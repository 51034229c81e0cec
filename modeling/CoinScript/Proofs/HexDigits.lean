import CoinScript.Bytes.Hex
import Mathlib.Tactic.Common

namespace CoinScript.Hex

/-- A digit of base 16 and its value. -/
def IsDigit (c : Char) (n : Nat) : Prop := n < 16 ∧ (c = Nat.digitChar n ∨ c = (Nat.digitChar n).toUpper)

instance (c : Char) (n : Nat) : Decidable (IsDigit c n) :=
  inferInstanceAs (Decidable (n < 16 ∧ (c = Nat.digitChar n ∨ c = (Nat.digitChar n).toUpper)))

/-- Pairs of digits and the bytes they spell, the greater digit first. -/
inductive Spells : List Char → Bytes → Prop
  | nil : Spells [] []
  | pair {hi lo : Char} {h l : Nat} {cs : List Char} {bs : Bytes} (hh : IsDigit hi h) (hl : IsDigit lo l)
      (rest : Spells cs bs) : Spells (hi :: lo :: cs) (UInt8.ofNat (16 * h + l) :: bs)

variable {c : Char} {cs : List Char} {bs : Bytes} {b : UInt8} {n pos : Nat}

theorem IsDigit.digit?_eq (h : IsDigit c n) :
    c.toNat < 128 ∧ digit? (UInt8.ofNat c.toNat) = some (UInt8.ofNat n) := by
  have hlower : ∀ n < 16, (Nat.digitChar n).toNat < 128 ∧
      digit? (UInt8.ofNat (Nat.digitChar n).toNat) = some (UInt8.ofNat n) := by decide
  have hupper : ∀ n < 16, (Nat.digitChar n).toUpper.toNat < 128 ∧
      digit? (UInt8.ofNat (Nat.digitChar n).toUpper.toNat) = some (UInt8.ofNat n) := by decide
  obtain ⟨hn, rfl | rfl⟩ := h
  · exact hlower n hn
  · exact hupper n hn

/-- Within ASCII, the reader takes no other bytes for digits. -/
theorem isDigit_of_digit? (hc : c.toNat < 128) (h : digit? (UInt8.ofNat c.toNat) = some b) :
    IsDigit c b.toNat := by
  have hall : ∀ k < 128, (digit? (UInt8.ofNat k)).all fun b => IsDigit (Char.ofNat k) b.toNat := by decide +kernel
  have hdigit := hall c.toNat hc
  rw [h, Char.ofNat_toNat] at hdigit
  exact of_decide_eq_true hdigit

theorem digit?_of_ge (h : 128 ≤ b.toNat) : digit? b = none := by
  unfold digit?
  simp only [UInt8.le_iff_toNat_le, UInt8.reduceToNat]
  rw [if_neg (by omega), if_neg (by omega), if_neg (by omega)]

theorem utf8_ascii (h : c.toNat < 128) : String.utf8EncodeChar c = [UInt8.ofNat c.toNat] :=
  if_pos (Nat.le_of_lt_succ h)

/-- Beyond ASCII, characters begin with a byte that no digit has. -/
theorem exists_utf8_of_ge (h : 128 ≤ c.toNat) :
    ∃ first more, String.utf8EncodeChar c = first :: more ∧ 128 ≤ first.toNat := by
  have hfirst {k : Nat} (hk : 128 ≤ k ∧ k < 256) : 128 ≤ (UInt8.ofNat k).toNat := by
    rw [UInt8.toNat_ofNat_of_lt' hk.2]
    exact hk.1
  have hval : ¬ c.val.toNat ≤ 127 := Nat.not_le_of_lt h
  unfold String.utf8EncodeChar
  rw [if_neg hval]
  split
  · exact ⟨_, _, rfl, hfirst (by omega)⟩
  · split
    · exact ⟨_, _, rfl, hfirst (by omega)⟩
    · exact ⟨_, _, rfl, hfirst (by omega)⟩

/-- A character is a digit and one byte, or begins with a byte that is no digit. -/
theorem digit_cases (c : Char) :
    (∃ b d, String.utf8EncodeChar c = [b] ∧ digit? b = some d ∧ ∀ n, IsDigit c n ↔ n = d.toNat) ∨
    (∀ n, ¬ IsDigit c n) ∧ ∃ first more, String.utf8EncodeChar c = first :: more ∧ digit? first = none := by
  by_cases hc : c.toNat < 128
  · cases hd : digit? (UInt8.ofNat c.toNat) with
    | some d =>
      refine .inl ⟨_, d, utf8_ascii hc, hd, fun n => ⟨fun hn => ?_, fun hn => hn ▸ isDigit_of_digit? hc hd⟩⟩
      have hvalue : d = UInt8.ofNat n := Option.some.inj (hd.symm.trans hn.digit?_eq.2)
      rw [hvalue, UInt8.toNat_ofNat_of_lt' (Nat.lt_trans hn.1 (by decide))]
    | none =>
      refine .inr ⟨fun n hn => ?_, _, [], utf8_ascii hc, hd⟩
      cases hd.symm.trans hn.digit?_eq.2
  · obtain ⟨first, more, hutf8, hfirst⟩ := exists_utf8_of_ge (Nat.le_of_not_lt hc)
    exact .inr ⟨fun n hn => hc hn.digit?_eq.1, first, more, hutf8, digit?_of_ge hfirst⟩

theorem decodePairs_not_digit (hb : digit? b = none) (rest : Bytes) : decodePairs pos (b :: rest) ≠ .ok bs := by
  cases rest <;> simp [decodePairs, hb]

theorem decodePairs_second_not_digit {first : UInt8} (hb : digit? b = none) (rest : Bytes) :
    decodePairs pos (first :: b :: rest) ≠ .ok bs := by
  cases hfirst : digit? first <;> simp [decodePairs, hfirst, hb]

theorem decodePairs_digits {hi lo h l : UInt8} {rest : Bytes} (hh : digit? hi = some h) (hl : digit? lo = some l) :
    decodePairs pos (hi :: lo :: rest) = .ok bs ↔
      ∃ more, decodePairs (pos + 2) rest = .ok more ∧ UInt8.ofNat (16 * h.toNat + l.toNat) :: more = bs := by
  have hvalue : h * 16 + l = UInt8.ofNat (16 * h.toNat + l.toNat) := by
    apply UInt8.toNat_inj.mp
    simp [Nat.mul_comm]
  rw [decodePairs, hh, hl, ← hvalue]
  cases decodePairs (pos + 2) rest <;> simp [Except.map]

theorem spells_pair {hi lo : Char} {h l : Nat} (hh : ∀ n, IsDigit hi n ↔ n = h) (hl : ∀ n, IsDigit lo n ↔ n = l) :
    Spells (hi :: lo :: cs) bs ↔ ∃ more, Spells cs more ∧ UInt8.ofNat (16 * h + l) :: more = bs := by
  constructor
  · intro hs
    cases hs with
    | pair hh' hl' rest =>
      rw [(hh _).mp hh', (hl _).mp hl']
      exact ⟨_, rest, rfl⟩
  · rintro ⟨more, hmore, rfl⟩
    exact .pair ((hh h).mpr rfl) ((hl l).mpr rfl) hmore

/-- The characters are taken two at a time, as the reader takes the bytes. -/
theorem decodePairs_ok_iff : ∀ (cs : List Char) (pos : Nat) (bs : Bytes),
    decodePairs pos (cs.flatMap String.utf8EncodeChar) = .ok bs ↔ Spells cs bs
  | [], pos, bs => by
    constructor
    · intro h
      cases h
      exact .nil
    · intro h
      cases h
      rfl
  | [c], pos, bs => by
    have hodd : decodePairs pos ([c].flatMap String.utf8EncodeChar) ≠ .ok bs := by
      rcases digit_cases c with ⟨b, d, hc, -⟩ | ⟨-, first, more, hc, hfirst⟩
      · simp [hc, decodePairs]
      · simpa [hc] using decodePairs_not_digit hfirst more
    exact iff_of_false hodd nofun
  | hi :: lo :: cs, pos, bs => by
    rw [List.flatMap_cons, List.flatMap_cons]
    rcases digit_cases hi with ⟨b, d, hhi, hb, hd⟩ | ⟨hno, first, more, hhi, hfirst⟩
    · rcases digit_cases lo with ⟨b', d', hlo, hb', hd'⟩ | ⟨hno, first, more, hlo, hfirst⟩
      · rw [hhi, hlo, List.singleton_append, List.singleton_append, decodePairs_digits hb hb', spells_pair hd hd']
        exact exists_congr fun more => and_congr_left fun _ => decodePairs_ok_iff cs (pos + 2) more
      · rw [hhi, hlo]
        refine iff_of_false (decodePairs_second_not_digit hfirst _) fun h => ?_
        cases h with
        | pair _ hl _ => exact hno _ hl
    · rw [hhi]
      refine iff_of_false (decodePairs_not_digit hfirst _) fun h => ?_
      cases h with
      | pair hh _ _ => exact hno _ hh

/-- An odd number of bytes has no pairs to be read as. -/
theorem even_of_decodePairs {bytes : Bytes} (h : decodePairs pos bytes = .ok bs) : bytes.length % 2 = 0 := by
  fun_induction decodePairs pos bytes generalizing bs with
  | case1 => rfl
  | case2 => cases h
  | case3 => cases h
  | case4 => cases h
  | case5 pos hi lo rest d d' _ _ ih =>
    cases hrest : decodePairs (pos + 2) rest with
    | error fault => simp [hrest, Except.map] at h
    | ok more =>
      have heven := ih hrest
      rw [List.length_cons, List.length_cons]
      omega

theorem utf8_ofList (cs : List Char) :
    (String.ofList cs).toUTF8.data.toList = cs.flatMap String.utf8EncodeChar := by
  simp [String.toUTF8, List.utf8Encode]

theorem decode_ok_iff : decode (String.ofList cs) = .ok bs ↔ Spells cs bs := by
  rw [decode, utf8_ofList, ← decodePairs_ok_iff cs 0]
  split
  · next hodd =>
    refine iff_of_false nofun fun h => ?_
    rw [even_of_decodePairs h] at hodd
    cases hodd
  · rfl

theorem isDigit_hexDigit (hn : n < 16) : IsDigit (Text.Quoted.hexDigit n) n := by
  have hall : ∀ n < 16, IsDigit (Text.Quoted.hexDigit n) n := by decide
  exact hall n hn

theorem spells_encode (bs : Bytes) : Spells (bs.flatMap pairChars) bs := by
  induction bs with
  | nil => exact .nil
  | cons b bs ih =>
    have hlt := b.toNat_lt
    have hb : UInt8.ofNat (16 * (b.toNat / 16) + b.toNat % 16) = b := by
      rw [Nat.div_add_mod, UInt8.ofNat_toNat]
    have hpair := Spells.pair (isDigit_hexDigit (show b.toNat / 16 < 16 by omega))
      (isDigit_hexDigit (show b.toNat % 16 < 16 by omega)) ih
    rw [hb] at hpair
    exact hpair

/-- What is written is read back. -/
theorem decode_encode (bs : Bytes) : decode (encode bs) = .ok bs := decode_ok_iff.mpr (spells_encode bs)

end CoinScript.Hex
