import CoinScript.Engine.Checkbits
import Mathlib.Data.Nat.Nth

namespace CoinScript.Checkbits

/-- Whether a bit of an item is set, the lowest bit of the first byte being bit 0. -/
def isSet (item : Bytes) (j : Nat) : Bool := (item.getD (j / 8) 0).toNat.testBit (j % 8)

/-- No bit is set at or above the number of keys. -/
def InRange (item : Bytes) (keys : Nat) : Prop := ∀ j, keys ≤ j → isSet item j = false

/-- How many bits of an item are set. -/
def weight (item : Bytes) : Nat := Nat.count (isSet item ·) (8 * item.length)

/-- The position of the `i`-th lowest bit that is set. -/
noncomputable def place (item : Bytes) (i : Nat) : Nat := Nat.nth (isSet item ·) i

variable {item : Bytes} {bits keys i start : Nat}

theorem testBit_toNatLE (item : Bytes) (j : Nat) :
    (Bytes.toNatLE item).testBit j = isSet item j := by
  induction item generalizing j with
  | nil => simp [Bytes.toNatLE, isSet]
  | cons b bs ih =>
    have hsplit : Bytes.toNatLE (b :: bs) = 2 ^ 8 * Bytes.toNatLE bs + b.toNat := by
      simp only [Bytes.toNatLE]
      omega
    rw [hsplit, Nat.testBit_two_pow_mul_add _ b.toNat_lt]
    split
    · next h =>
      have hd : j / 8 = 0 := by omega
      have hm : j % 8 = j := by omega
      simp only [isSet, hd, hm, List.getD_cons_zero]
    · next h =>
      have hd : j / 8 = (j - 8) / 8 + 1 := by omega
      have hm : j % 8 = (j - 8) % 8 := by omega
      simp only [ih, isSet, hd, hm, List.getD_cons_succ]

theorem toNatLE_lt_iff : Bytes.toNatLE item < 2 ^ keys ↔ InRange item keys := by
  constructor
  · intro h j hj
    rw [← testBit_toNatLE]
    exact Nat.testBit_lt_two_pow (h.trans_le (Nat.pow_le_pow_right Nat.two_pos hj))
  · intro h
    apply Nat.lt_pow_two_of_testBit
    intro j hj
    rw [testBit_toNatLE]
    exact h j hj

theorem read_of_size_ne (hs : item.length ≠ (keys + 7) / 8) :
    read item keys = .error (.checkbitsSize item.length keys) := by
  simp [read, hs]

theorem read_of_not_inRange (hk : keys ≤ 32) (hs : item.length = (keys + 7) / 8)
    (hr : ¬ InRange item keys) :
    read item keys = .error (.checkbitsRange (Bytes.toNatLE item) keys) := by
  simp [read, hs, Nat.not_lt.mpr hk, toNatLE_lt_iff, hr]

theorem read_of_inRange (hk : keys ≤ 32) (hs : item.length = (keys + 7) / 8)
    (hr : InRange item keys) : read item keys = .ok (Bytes.toNatLE item) := by
  simp [read, hs, Nat.not_lt.mpr hk, toNatLE_lt_iff, hr]

theorem length_positions (bits keys : Nat) :
    (positions bits keys).length = Nat.count (bits.testBit ·) keys := by
  simp [positions, Nat.count, List.countP_eq_length_filter]

/-- All bits that are set lie below the number of keys. -/
theorem weight_eq (hs : item.length = (keys + 7) / 8) (hr : InRange item keys) :
    weight item = (positions (Bytes.toNatLE item) keys).length := by
  obtain ⟨above, ha⟩ := Nat.exists_eq_add_of_le (show keys ≤ 8 * item.length by omega)
  have hnone : Nat.count (fun j => isSet item (keys + j)) above = 0 := by
    rw [Nat.count_iff_forall_not]
    intro j _
    simp [hr (keys + j) (Nat.le_add_right keys j)]
  simp only [length_positions, testBit_toNatLE, weight, ha, Nat.count_add, hnone, Nat.add_zero]

/-- By induction on the number of keys: a bit at the end comes after as many as are counted. -/
theorem positions_getElem? (hi : i < (positions bits keys).length) :
    (positions bits keys)[i]? = some (Nat.nth (bits.testBit ·) i) := by
  induction keys with
  | zero => simp [positions] at hi
  | succ n ih =>
    have hsucc : positions bits (n + 1) =
        positions bits n ++ bif bits.testBit n then [n] else [] := by
      rw [positions, List.range_succ, List.filter_append, List.filter_singleton]
      rfl
    rw [hsucc] at hi ⊢
    by_cases hlt : i < (positions bits n).length
    · rw [List.getElem?_append_left hlt, ih hlt]
    · cases hb : bits.testBit n with
      | false => simp [hb, hlt] at hi
      | true =>
        have heq : i = (positions bits n).length := by
          simp only [hb, cond_true, List.length_append, List.length_singleton] at hi
          omega
        rw [heq, cond_true, List.getElem?_concat_length, length_positions]
        exact congrArg some (Nat.nth_count hb).symm

theorem place_lt {item : Bytes} {keys i : Nat}
    (hi : i < (positions (Bytes.toNatLE item) keys).length) :
    (positions (Bytes.toNatLE item) keys)[i]? = some (place item i) ∧ place item i < keys := by
  have h := positions_getElem? hi
  simp only [testBit_toNatLE] at h
  have hmem := List.mem_of_getElem? h
  rw [positions, List.mem_filter, List.mem_range] at hmem
  exact ⟨h, hmem.1⟩

/-- The first bit that is set from position `i` on. A word of 32 bits is not shifted further than
its last bit. -/
def seek? (bits i : Nat) : Option Nat :=
  if i < 32 then if bits.testBit i then some i else seek? bits (i + 1) else none
termination_by 32 - i

/-- The positions from `start` on. -/
def positionsFrom (bits keys start : Nat) : List Nat :=
  (List.range' start (keys - start)).filter bits.testBit

theorem positionsFrom_zero : positionsFrom bits keys 0 = positions bits keys := by
  rw [positionsFrom, positions, Nat.sub_zero, List.range_eq_range']

theorem positionsFrom_of_lt (h : start < keys) :
    positionsFrom bits keys start =
      if bits.testBit start then start :: positionsFrom bits keys (start + 1)
      else positionsFrom bits keys (start + 1) := by
  have hlen : keys - start = keys - (start + 1) + 1 := by omega
  rw [positionsFrom, hlen, List.range'_succ, List.filter_cons]
  rfl

/-- While a position is left, the search ends at it, inside the word. -/
theorem seek?_of_positionsFrom {start position : Nat} {rest : List Nat} (hk : keys ≤ 32)
    (h : positionsFrom bits keys start = position :: rest) :
    seek? bits start = some position ∧ position < keys ∧
      positionsFrom bits keys (position + 1) = rest := by
  have hlt : start < keys := by
    by_contra hge
    have hlen : keys - start = 0 := by omega
    rw [positionsFrom, hlen] at h
    cases h
  rw [positionsFrom_of_lt hlt] at h
  rw [seek?, if_pos (hlt.trans_le hk)]
  split at h
  · next hb =>
    obtain ⟨rfl, hrest⟩ := List.cons.inj h
    rw [if_pos hb]
    exact ⟨rfl, hlt, hrest⟩
  · next hb =>
    rw [if_neg hb]
    exact seek?_of_positionsFrom hk h
termination_by keys - start

end CoinScript.Checkbits
