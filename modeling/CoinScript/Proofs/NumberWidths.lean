import CoinScript.Proofs.ItemGrowth
import CoinScript.Proofs.MinimalNumbers
import CoinScript.Proofs.NumberWords

namespace CoinScript

namespace Opcode

/-- The code that spells a number in a given width. -/
def toWidth : Opcode := 0x80

/-- The code that spells a number in the shortest way. -/
def toNumber : Opcode := 0x81

end Opcode

namespace Number

variable {size : Nat} {bs x : Bytes}

/-- The digits keep their places below new zeros, and the sign goes above these. -/
theorem widen_concat (below : Bytes) (last : UInt8) (h : below.length + 1 < size) :
    widen size (below ++ [last]) =
      ((last &&& 0x80) :: (List.replicate (size - (below.length + 2)) 0 ++
        (last &&& 0x7f) :: below.reverse)).reverse := by
  have hlength : (below ++ [last]).length = below.length + 1 := List.length_append
  have hzeros : size - 1 - (below.length + 1) = size - (below.length + 2) := by omega
  rw [widen, hlength, if_neg (Nat.not_le.mpr h), List.reverse_concat, hzeros]
  simp

theorem signMagnitude_widen (size : Nat) (bs : Bytes) :
    signMagnitude (widen size bs) = signMagnitude bs := by
  by_cases h : size ≤ bs.length
  · rw [widen, if_pos h]
  · rcases List.eq_nil_or_concat bs with rfl | ⟨below, last, rfl⟩
    · cases size with
      | zero => rfl
      | succ size =>
        have hzeros : widen (size + 1) [] = (0 :: List.replicate size (0 : UInt8)).reverse := by
          rw [widen, if_neg h, List.reverse_nil, ← List.replicate_succ, List.reverse_replicate]
        have hvalue : Bytes.toNatBE (List.replicate size 0 ++ []) = Bytes.toNatBE [] :=
          Bytes.toNatBE_zeros size []
        rw [List.append_nil] at hvalue
        rw [hzeros, signMagnitude_sign_cons (.inl rfl), hvalue]
        rfl
    · rw [List.concat_eq_append] at h ⊢
      have hlength : (below ++ [last]).length = below.length + 1 := List.length_append
      have hsign : (last &&& 0x80 == 0x80) = decide (0x80 ≤ last) := by
        rw [← high_ne_zero]
        rcases isSign_high last with h0 | h1
        · rw [h0]
          rfl
        · rw [h1]
          rfl
      rw [widen_concat below last (by omega), signMagnitude_sign_cons (isSign_high last),
        Bytes.toNatBE_zeros, Bytes.toNatBE_cons, hsign, signMagnitude, isNegative_concat, magnitude_concat,
        List.length_reverse, Bytes.toNatBE, List.reverse_reverse, Nat.add_comm, Nat.mul_comm]

/-- What has been widened is found again. -/
theorem minimize_widen (size : Nat) (bs : Bytes) : minimize (widen size bs) = minimize bs := by
  rw [minimize_eq_encode, signMagnitude_widen, minimize_eq_encode]

theorem signMagnitude_minimize (bs : Bytes) : signMagnitude (minimize bs) = signMagnitude bs := by
  rw [minimize_eq_encode, signMagnitude_encode]

theorem minimize_minimize (bs : Bytes) : minimize (minimize bs) = minimize bs := by
  rw [minimize_eq_encode, signMagnitude_minimize, minimize_eq_encode]

theorem minimize_of_checkMinimal (h : checkMinimal x = .ok ()) : minimize x = x := by
  rw [minimize_eq_encode]
  exact (checkMinimal_ok.mp h).symm

theorem isMinimalWithin_minimize (limit : Nat) (bs : Bytes) :
    isMinimalWithin limit (minimize bs) = decide ((minimize bs).length ≤ limit) := by
  rw [isMinimalWithin, minimize_eq_encode, isMinimal_encode, Bool.and_true]

end Number

namespace Data

variable {minimal : Bool} {n x : Bytes} {below : Stack} {size : Int}

theorem toWidth_ok (hn : Number.operand minimal n = .ok size) (h0 : 0 ≤ size) (hs : size ≤ Fault.maxItem)
    (hl : (Number.minimize x).length ≤ size) :
    toWidth minimal (n :: x :: below) = .ok () (Number.widen size.toNat (Number.minimize x) :: below) := by
  have hmax : size.toNat ≤ maxItem := Int.toNat_le.mpr hs
  simp only [toWidth, hn]
  rw [if_pos ⟨h0, hmax⟩, if_pos (by omega)]

theorem toWidth_narrow (hn : Number.operand minimal n = .ok size) (h0 : 0 ≤ size)
    (hs : size ≤ Fault.maxItem) (hl : size < (Number.minimize x).length) :
    toWidth minimal (n :: x :: below) =
      .error (.widthTooSmall (Number.minimize x).length size.toNat) below := by
  have hmax : size.toNat ≤ maxItem := Int.toNat_le.mpr hs
  simp only [toWidth, hn]
  rw [if_pos ⟨h0, hmax⟩, if_neg (by omega)]

theorem toWidth_outside (hn : Number.operand minimal n = .ok size)
    (h : ¬ (0 ≤ size ∧ size ≤ Fault.maxItem)) :
    toWidth minimal (n :: x :: below) = .error (.widthOutOfRange size) (n :: x :: below) := by
  have hmax : size.toNat ≤ maxItem ↔ size ≤ Fault.maxItem := Int.toNat_le
  simp only [toWidth, hn]
  rw [if_neg (by rwa [hmax])]

theorem toNumber_ok (hl : (Number.minimize x).length ≤ Number.operandLimit) :
    toNumber (x :: below) = .ok () (Number.minimize x :: below) := by
  simp only [toNumber, onTop, Number.isMinimalWithin_minimize, if_pos (decide_eq_true hl)]

theorem toNumber_long (hl : Number.operandLimit < (Number.minimize x).length) :
    toNumber (x :: below) = .error (.notANumber (Number.minimize x)) below := by
  have hlong : ¬ decide ((Number.minimize x).length ≤ Number.operandLimit) = true := by simpa using hl
  simp only [toNumber, onTop, Number.isMinimalWithin_minimize, if_neg hlong]

end Data

open Number in
/-- A number under the size that it is to have. If the size is in range, the number is spelled in that
many bytes exactly where its shortest spelling is no longer, and what is spelled so is read in the
shortest spelling again if this is short enough for an operand; so every operand is found again from
every width that has room for it. -/
theorem width_round_trip (ctx : Context) (st : State) (rest n x : Bytes) (below : Stack) (size : Int)
    (hn : operand ctx.minimal n = .ok size) :
    let widening := Opcode.toWidth.run ctx rest
    let reading := Opcode.toNumber.run ctx rest
    let start : State := { st with main := n :: x :: below }
    let shortest := minimize x
    (0 ≤ size → size ≤ 520 →
      (shortest.length ≤ size → ∃ item : Bytes, item.length = size ∧ signMagnitude item = signMagnitude x ∧
        widening start = .ok () { st with main := item :: below } ∧
        (shortest.length ≤ 4 →
          reading { st with main := item :: below } = .ok () { st with main := shortest :: below }) ∧
        (4 < shortest.length → ∃ fault, fault.code = .invalidNumberRange ∧
          reading { st with main := item :: below } = .error fault { st with main := below })) ∧
      (size < shortest.length → ∃ fault, fault.code = .impossibleEncoding ∧
        widening start = .error fault { st with main := below }) ∧
      (x.length ≤ 4 → checkMinimal x = .ok () → x.length ≤ size →
        (widening >>= fun _ => reading) start = .ok () { st with main := x :: below })) ∧
    (¬ (0 ≤ size ∧ size ≤ 520) → ∃ fault, fault.code = .pushSize ∧ widening start = .error fault start) := by
  intro widening reading start shortest
  have hrun (h0 : 0 ≤ size) (hs : size ≤ 520) (hl : shortest.length ≤ size) :
      widening start = .ok () { st with main := widen size.toNat shortest :: below } :=
    Effect.onMain_ok.mpr ⟨_, Data.toWidth_ok hn h0 hs hl, rfl⟩
  have hagain : minimize (widen size.toNat shortest) = shortest := by
    rw [minimize_widen, minimize_minimize]
  have hread (hl : shortest.length ≤ 4) : reading { st with main := widen size.toNat shortest :: below } =
      .ok () { st with main := shortest :: below } := by
    refine Effect.onMain_ok.mpr ⟨_, Data.toNumber_ok (by rwa [hagain]), ?_⟩
    rw [hagain]
  refine ⟨fun h0 hs => ⟨fun hl => ?_, fun hl => ?_, fun hx hminimal hl => ?_⟩, fun h => ?_⟩
  · have hlength : (widen size.toNat shortest).length = size.toNat := length_widen (by omega)
    refine ⟨widen size.toNat shortest, by omega, ?_, hrun h0 hs hl, hread, fun hlong => ?_⟩
    · rw [signMagnitude_widen, signMagnitude_minimize]
    · exact ⟨_, rfl, Effect.onMain_error.mpr ⟨_, Data.toNumber_long (by rwa [hagain]), rfl⟩⟩
  · exact ⟨_, rfl, Effect.onMain_error.mpr ⟨_, Data.toWidth_narrow hn h0 hs hl, rfl⟩⟩
  · have hsame : shortest = x := minimize_of_checkMinimal hminimal
    rw [Effect.bind_of_ok (hrun h0 hs (by rwa [hsame])), hread (by rwa [hsame]), hsame]
  · exact ⟨_, rfl, Effect.onMain_error.mpr ⟨_, Data.toWidth_outside hn h, rfl⟩⟩

open Number in
/-- The number -133 in three bytes, and back. -/
theorem width_round_trip_three_bytes :
    let ctx : Context := ⟨.only .minimalData, .none, 201⟩
    let start : State := { main := [[3], [0x85, 0x80]] }
    operand ctx.minimal [3] = .ok 3 ∧ [0x85, 0x80].length ≤ 4 ∧ checkMinimal [0x85, 0x80] = .ok () ∧
      (∃ item : Bytes, (item.length : Int) = 3 ∧ signMagnitude item = -133 ∧
        Opcode.toWidth.run ctx [] start = .ok () { start with main := [item] }) ∧
      (Opcode.toWidth.run ctx [] >>= fun _ => Opcode.toNumber.run ctx []) start =
        .ok () { start with main := [[0x85, 0x80]] } := by
  intro ctx start
  have hsize : operand ctx.minimal [3] = .ok 3 := by decide +kernel
  have hminimal : checkMinimal [0x85, 0x80] = .ok () := rfl
  obtain ⟨hrange, -⟩ := width_round_trip ctx {} [] [3] [0x85, 0x80] [] 3 hsize
  obtain ⟨hwide, -, hagain⟩ := hrange (by decide) (by decide)
  obtain ⟨item, hlength, hvalue, hrun, -, -⟩ := hwide (by decide)
  exact ⟨hsize, by decide, hminimal, ⟨item, hlength, hvalue, hrun⟩, hagain (by decide) hminimal (by decide)⟩

end CoinScript
