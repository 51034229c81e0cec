import CoinScript.Curve.Basic
import CoinScript.Proofs.CurveGroup
import CoinScript.Proofs.PrimeCertificates
import Mathlib.GroupTheory.OrderOfElement
import Mathlib.NumberTheory.LegendreSymbol.Basic

namespace CoinScript.Curve

open WeierstrassCurve.Affine

variable {C : Curve} [C.Lawful]

instance : Fact C.order.Prime := ⟨Lawful.order_prime⟩

/-- Half of the nonzero residues, as an exponent; the field has no root of -1, so it is odd. -/
theorem half_odd : Odd ((C.prime - 1) / 2) := by
  have hmod := Lawful.mod_four (C := C)
  rw [Nat.odd_iff]
  omega

theorem isSquare_val_iff (y : ZMod C.prime) :
    C.isSquare y.val = true ↔ y ^ ((C.prime - 1) / 2) = 1 := by
  have hthree := Lawful.three_lt (C := C)
  rw [isSquare, beq_iff_eq, powMod_eq_one_iff (by omega), ZMod.natCast_zmod_val]

theorem ne_zero_of_isSquare {y : ZMod C.prime} (h : C.isSquare y.val = true) : y ≠ 0 := by
  rintro rfl
  rw [isSquare_val_iff, zero_pow half_odd.pos.ne'] at h
  exact zero_ne_one h

theorem pow_half (y : ZMod C.prime) (hy : y ≠ 0) :
    y ^ ((C.prime - 1) / 2) = 1 ∨ y ^ ((C.prime - 1) / 2) = -1 := by
  have hmod := Lawful.mod_four (C := C)
  have hhalf : (C.prime - 1) / 2 = C.prime / 2 := by omega
  rw [hhalf]
  exact ZMod.pow_div_two_eq_neg_one_or_one C.prime hy

/-- Negation turns squares into the other residues and these into squares. -/
theorem isSquare_neg {y : ZMod C.prime} (hy : y ≠ 0) :
    C.isSquare (-y).val = !C.isSquare y.val := by
  have hne : (1 : ZMod C.prime) ≠ -1 := ne_neg_self one_ne_zero
  rw [Bool.eq_iff_iff, Bool.not_eq_true', Bool.eq_false_iff, Ne, isSquare_val_iff, isSquare_val_iff,
    half_odd.neg_pow]
  obtain h | h := pow_half y hy
  · rw [h]
    simp [hne.symm]
  · rw [h]
    simp [hne.symm]

theorem base_represented : ∃ G : C.equation.Point, coordinates G = C.base :=
  contains_iff_coordinates.mp Lawful.contains_base

/-- The base point, in the group. -/
noncomputable def generator (C : Curve) [C.Lawful] : C.equation.Point := base_represented.choose

theorem coordinates_generator : coordinates C.generator = C.base := base_represented.choose_spec

theorem smul_base (k : Nat) : C.smul k C.base = coordinates (k • C.generator) := by
  rw [← coordinates_generator, smul_coordinates]

theorem generator_ne_zero : C.generator ≠ 0 := by
  intro h
  have hbase := coordinates_generator (C := C)
  rw [h] at hbase
  cases hbase

theorem order_nsmul_generator : C.order • C.generator = 0 := by
  refine coordinates_injective ?_
  rw [← smul_base, Lawful.smul_order]
  rfl

theorem addOrderOf_generator : addOrderOf C.generator = C.order :=
  addOrderOf_eq_prime order_nsmul_generator generator_ne_zero

theorem nsmul_generator_eq_zero_iff {k : Nat} : k • C.generator = 0 ↔ C.order ∣ k := by
  rw [← addOrderOf_generator, addOrderOf_dvd_iff_nsmul_eq_zero]

theorem mod_order_nsmul_generator (k : Nat) : (k % C.order) • C.generator = k • C.generator := by
  rw [← addOrderOf_generator, mod_addOrderOf_nsmul]

/-- Scalars below the order are told apart by their points. -/
theorem eq_of_nsmul_generator_eq {s t : Nat} (hs : s < C.order) (ht : t < C.order)
    (h : s • C.generator = t • C.generator) : s = t := by
  rw [nsmul_eq_nsmul_iff_modEq, addOrderOf_generator] at h
  exact h.eq_of_lt_of_lt hs ht

/-- No multiple of the base point is its own negative, infinity aside. -/
theorem y_ne_zero_of_nsmul_generator {k : Nat} {x y : ZMod C.prime}
    {h : C.equation.Nonsingular x y} (hk : k • C.generator = .some x y h) : y ≠ 0 := by
  rintro rfl
  have htwice : (2 * k) • C.generator = 0 := by
    rw [mul_nsmul', hk, two_nsmul, Point.add_self_of_Y_eq (by rw [negY_equation, neg_zero])]
  rw [nsmul_generator_eq_zero_iff, Lawful.order_prime.dvd_mul] at htwice
  obtain htwo | hdvd := htwice
  · exact Nat.not_dvd_of_pos_of_lt (by decide) Lawful.two_lt_order htwo
  · rw [nsmul_generator_eq_zero_iff.mpr hdvd] at hk
    cases hk

/-- A multiple of the base point by what lies between zero and the order is not infinity. -/
theorem exists_nsmul_generator {k : Nat} (hpos : 0 < k) (hlt : k < C.order) :
    ∃ x y h, k • C.generator = .some x y h := by
  match hk : k • C.generator with
  | .zero => exact absurd (nsmul_generator_eq_zero_iff.mp hk) (Nat.not_dvd_of_pos_of_lt hpos hlt)
  | .some x y h => exact ⟨x, y, h, rfl⟩

end CoinScript.Curve

namespace CoinScript

instance : secp256k1.Lawful where
  prime := Primality.prime_field
  mod_four := by decide
  three_lt := by decide
  b_pos := by decide
  b_lt := by decide
  order_prime := Primality.prime_order
  two_lt_order := by decide
  contains_base := by decide +kernel
  smul_order := by decide +kernel

end CoinScript
