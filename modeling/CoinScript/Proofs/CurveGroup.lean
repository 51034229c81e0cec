import CoinScript.Proofs.ModularPowers
import Mathlib.AlgebraicGeometry.EllipticCurve.Affine.Point

namespace CoinScript.Curve

open WeierstrassCurve.Affine

/-- Numbers that do make a curve: a field without the roots of -1, a coefficient that keeps the curve
smooth, and a base on it whose multiples are as many as a prime. -/
class Lawful (C : Curve) : Prop where
  prime : C.prime.Prime
  mod_four : C.prime % 4 = 3
  three_lt : 3 < C.prime
  b_pos : 0 < C.b
  b_lt : C.b < C.prime
  order_prime : C.order.Prime
  two_lt_order : 2 < C.order
  contains_base : C.Contains C.base = true
  smul_order : C.smul C.order C.base = .infinity

instance (C : Curve) [C.Lawful] : Fact C.prime.Prime := ⟨Lawful.prime⟩

/-- `y² = x³ + b` over the field of residues. -/
def equation (C : Curve) : WeierstrassCurve.Affine (ZMod C.prime) := ⟨0, 0, 0, 0, C.b⟩

variable {C : Curve} [C.Lawful]

theorem prime_pos : 0 < C.prime := (Lawful.prime (C := C)).pos

@[simp] theorem cast_mul (a b : Nat) : (C.mul a b : ZMod C.prime) = a * b := by
  rw [mul, ZMod.natCast_mod, Nat.cast_mul]

theorem cast_sub {a b : Nat} (h : b < C.prime) : (C.sub a b : ZMod C.prime) = a - b := by
  rw [sub, ZMod.natCast_mod, Nat.cast_sub (by omega), Nat.cast_add, ZMod.natCast_self, add_zero]

theorem mul_lt (a b : Nat) : C.mul a b < C.prime := Nat.mod_lt _ prime_pos

theorem sub_lt (a b : Nat) : C.sub a b < C.prime := Nat.mod_lt _ prime_pos

/-- What is taken away has been reduced before. -/
@[simp] theorem cast_sub_mul (a b c : Nat) : (C.sub a (C.mul b c) : ZMod C.prime) = a - C.mul b c :=
  cast_sub (mul_lt b c)

@[simp] theorem cast_sub_sub (a b c : Nat) : (C.sub a (C.sub b c) : ZMod C.prime) = a - C.sub b c :=
  cast_sub (sub_lt b c)

theorem cast_inverse (a : Nat) : (C.inverse a : ZMod C.prime) = (a : ZMod C.prime)⁻¹ := by
  have hthree := Lawful.three_lt (C := C)
  rw [inverse, cast_powMod]
  by_cases ha : (a : ZMod C.prime) = 0
  · rw [ha, inv_zero, zero_pow (by omega)]
  · refine eq_inv_of_mul_eq_one_left ?_
    rw [← pow_succ]
    have hexp : C.prime - 2 + 1 = C.prime - 1 := by omega
    rw [hexp, ZMod.pow_card_sub_one_eq_one ha]

theorem cast_ne_zero_of_lt {a : Nat} (h0 : 0 < a) (h : a < C.prime) : (a : ZMod C.prime) ≠ 0 := by
  rw [Ne, ZMod.natCast_eq_zero_iff]
  exact Nat.not_dvd_of_pos_of_lt h0 h

theorem two_ne_zero : (2 : ZMod C.prime) ≠ 0 := by
  have hthree := Lawful.three_lt (C := C)
  exact_mod_cast cast_ne_zero_of_lt (C := C) (a := 2) (by decide) (by omega)

theorem three_ne_zero : (3 : ZMod C.prime) ≠ 0 := by
  have hthree := Lawful.three_lt (C := C)
  exact_mod_cast cast_ne_zero_of_lt (C := C) (a := 3) (by decide) hthree

variable {x y : ZMod C.prime}

theorem equation_iff_cubic : C.equation.Equation x y ↔ y ^ 2 = x ^ 3 + C.b := by
  rw [equation_iff]
  simp [equation]

/-- The curve has no singular point. -/
theorem nonsingular_iff_cubic : C.equation.Nonsingular x y ↔ y ^ 2 = x ^ 3 + C.b := by
  have hb : (C.b : ZMod C.prime) ≠ 0 := cast_ne_zero_of_lt Lawful.b_pos Lawful.b_lt
  have hdisc : C.equation.Δ = -(2 ^ 4 * 3 ^ 3 * (C.b : ZMod C.prime) ^ 2) := by
    simp only [WeierstrassCurve.Δ, WeierstrassCurve.b₂, WeierstrassCurve.b₄, WeierstrassCurve.b₆,
      WeierstrassCurve.b₈, equation]
    ring
  have hne : C.equation.Δ ≠ 0 := by
    rw [hdisc]
    exact neg_ne_zero.mpr (mul_ne_zero (mul_ne_zero (pow_ne_zero _ two_ne_zero)
      (pow_ne_zero _ three_ne_zero)) (pow_ne_zero _ hb))
  rw [← equation_iff_nonsingular_of_Δ_ne_zero hne, equation_iff_cubic]

@[simp] theorem negY_equation (x y : ZMod C.prime) : C.equation.negY x y = -y := by
  simp [negY, equation]

@[simp] theorem addX_equation (x₁ x₂ l : ZMod C.prime) :
    C.equation.addX x₁ x₂ l = l ^ 2 - x₁ - x₂ := by
  simp [addX, equation]

@[simp] theorem addY_equation (x₁ x₂ y₁ l : ZMod C.prime) :
    C.equation.addY x₁ x₂ y₁ l = l * (x₁ - (l ^ 2 - x₁ - x₂)) - y₁ := by
  rw [addY, negY_equation, negAddY, addX_equation]
  ring

theorem ne_neg_self (h : y ≠ 0) : y ≠ -y := by
  intro heq
  exact mul_ne_zero two_ne_zero h (by linear_combination heq)

theorem slope_self (h : y ≠ 0) : C.equation.slope x x y y * (2 * y) = 3 * x ^ 2 := by
  have hne : y ≠ C.equation.negY x y := by
    rw [negY_equation]
    exact ne_neg_self h
  have hsum : y - C.equation.negY x y = 2 * y := by
    rw [negY_equation]
    ring
  rw [slope_of_Y_ne rfl hne, hsum, div_mul_cancel₀ _ (mul_ne_zero two_ne_zero h)]
  simp [equation]

/-- The point of the group that fractions stand for. -/
inductive Represents (C : Curve) : Fractions → C.equation.Point → Prop
  | infinity {P : Fractions} (hz : P.z = 0) : Represents C P 0
  | affine {P : Fractions} {x y : ZMod C.prime} (h : C.equation.Nonsingular x y)
    (hx : (P.x : ZMod C.prime) = x * P.z ^ 2) (hy : (P.y : ZMod C.prime) = y * P.z ^ 3)
    (hz : (P.z : ZMod C.prime) ≠ 0) (hlt : P.y < C.prime) : Represents C P (.some x y h)

variable {P Q : Fractions} {A B : C.equation.Point}

theorem ne_zero_of_cast {a : Nat} (h : (a : ZMod C.prime) ≠ 0) : a ≠ 0 := by
  rintro rfl
  exact h Nat.cast_zero

theorem double_represents (hA : Represents C P A) : Represents C (C.double P) (A + A) := by
  cases hA with
  | infinity hz =>
    rw [double, if_pos (.inl hz), add_zero]
    exact .infinity rfl
  | @affine x y h hx hy hz hlt =>
    by_cases h0 : P.y = 0
    · have hzero : y = 0 := by
        rw [h0, Nat.cast_zero] at hy
        exact (mul_eq_zero.mp hy.symm).resolve_right (pow_ne_zero 3 hz)
      rw [double, if_pos (.inr h0), Point.add_self_of_Y_eq (by rw [negY_equation, hzero, neg_zero])]
      exact .infinity rfl
    · have hY : (P.y : ZMod C.prime) ≠ 0 := cast_ne_zero_of_lt (Nat.pos_of_ne_zero h0) hlt
      have hne : y ≠ 0 := by
        rintro rfl
        exact hY (by rw [hy, zero_mul])
      have hneg : y ≠ C.equation.negY x y := by
        rw [negY_equation]
        exact ne_neg_self hne
      -- The slope of the tangent, without the division that it stands for.
      have htangent : 3 * ((P.x : ZMod C.prime) * P.x) =
          C.equation.slope x x y y * (2 * (P.y * P.z)) := by
        rw [hx, hy]
        linear_combination (-(P.z : ZMod C.prime) ^ 4) * slope_self (x := x) hne
      rw [Point.add_self_of_Y_ne hneg, double, if_neg (not_or_intro (ne_zero_of_cast hz) h0)]
      refine .affine _ ?_ ?_ ?_ (sub_lt _ _)
      · simp only [cast_mul, cast_sub_mul, Nat.cast_ofNat, htangent, addX_equation]
        rw [hx, hy]
        ring
      · simp only [cast_mul, cast_sub_mul, cast_sub_sub, Nat.cast_ofNat, htangent,
          addY_equation]
        rw [hx, hy]
        ring
      · simp only [cast_mul, Nat.cast_ofNat]
        exact mul_ne_zero two_ne_zero (mul_ne_zero hY hz)

theorem over_common_x {a z w : Nat} (h : (a : ZMod C.prime) = x * z ^ 2) :
    (C.mul a (C.mul w w) : ZMod C.prime) = x * (z * w) ^ 2 := by
  rw [cast_mul, cast_mul, h]
  ring

theorem over_common_y {a z w : Nat} (h : (a : ZMod C.prime) = y * z ^ 3) :
    (C.mul a (C.mul w (C.mul w w)) : ZMod C.prime) = y * (z * w) ^ 3 := by
  rw [cast_mul, cast_mul, cast_mul, h]
  ring

/-- The chord through two points, from their coordinates over one denominator. -/
theorem chord_represents {x₁ x₂ y₁ y₂ l : ZMod C.prime} {u v s t z₁ z₂ : Nat}
    (hsum : C.equation.Nonsingular (C.equation.addX x₁ x₂ l) (C.equation.addY x₁ x₂ y₁ l))
    (hl : l * (x₁ - x₂) = y₁ - y₂) (hx : x₁ ≠ x₂) (hz : (z₁ * z₂ : ZMod C.prime) ≠ 0)
    (hu : (u : ZMod C.prime) = x₁ * (z₁ * z₂) ^ 2) (hv : (v : ZMod C.prime) = x₂ * (z₁ * z₂) ^ 2)
    (hs : (s : ZMod C.prime) = y₁ * (z₁ * z₂) ^ 3) (ht : (t : ZMod C.prime) = y₂ * (z₁ * z₂) ^ 3)
    (hult : u < C.prime) (hslt : s < C.prime) :
    let h := C.sub v u
    let r := C.sub t s
    let hh := C.mul h h
    let x := C.sub (C.sub (C.mul r r) (C.mul h hh)) (C.mul 2 (C.mul u hh))
    Represents C ⟨x, C.sub (C.mul r (C.sub (C.mul u hh) x)) (C.mul s (C.mul h hh)),
      C.mul h (C.mul z₁ z₂)⟩ (.some _ _ hsum) := by
  intro h r hh x
  -- The quotient of the two differences is the slope, up to the denominator.
  have hh' : (h : ZMod C.prime) = (x₂ - x₁) * (z₁ * z₂) ^ 2 := by
    rw [cast_sub hult, hu, hv]
    ring
  have hr' : (r : ZMod C.prime) = l * (h * (z₁ * z₂)) := by
    rw [cast_sub hslt, hs, ht, hh']
    linear_combination ((z₁ * z₂ : ZMod C.prime) ^ 3) * hl
  refine .affine _ ?_ ?_ ?_ (sub_lt _ _)
  · simp only [x, hh, cast_mul, cast_sub_mul, Nat.cast_ofNat, addX_equation]
    rw [hr', hu, hh']
    ring
  · simp only [x, hh, cast_mul, cast_sub_mul, cast_sub_sub, Nat.cast_ofNat, addY_equation]
    rw [hr', hu, hs, hh']
    ring
  · simp only [cast_mul]
    rw [hh']
    exact mul_ne_zero (mul_ne_zero (sub_ne_zero.mpr hx.symm) (pow_ne_zero 2 hz)) hz

theorem sum_represents (hA : Represents C P A) (hB : Represents C Q B) :
    Represents C (C.sum P Q) (A + B) := by
  cases hA with
  | infinity hz =>
    rw [sum, if_pos hz, zero_add]
    exact hB
  | @affine x₁ y₁ h₁ hx₁ hy₁ hz₁ hlt₁ =>
    rw [sum, if_neg (ne_zero_of_cast hz₁)]
    cases hB with
    | infinity hz =>
      rw [if_pos hz, add_zero]
      exact .affine h₁ hx₁ hy₁ hz₁ hlt₁
    | @affine x₂ y₂ h₂ hx₂ hy₂ hz₂ hlt₂ =>
      rw [if_neg (ne_zero_of_cast hz₂)]
      have hz : (P.z : ZMod C.prime) * Q.z ≠ 0 := mul_ne_zero hz₁ hz₂
      have hu := over_common_x (w := Q.z) hx₁
      have hv := over_common_x (w := P.z) hx₂
      have hs := over_common_y (w := Q.z) hy₁
      have ht := over_common_y (w := P.z) hy₂
      rw [mul_comm (Q.z : ZMod C.prime)] at hv ht
      have hxs : C.mul P.x (C.mul Q.z Q.z) = C.mul Q.x (C.mul P.z P.z) ↔ x₁ = x₂ := by
        rw [← cast_eq_iff (mul_lt _ _) (mul_lt _ _), hu, hv]
        exact mul_left_inj' (pow_ne_zero 2 hz)
      have hys : C.mul P.y (C.mul Q.z (C.mul Q.z Q.z)) = C.mul Q.y (C.mul P.z (C.mul P.z P.z)) ↔
          y₁ = y₂ := by
        rw [← cast_eq_iff (mul_lt _ _) (mul_lt _ _), hs, ht]
        exact mul_left_inj' (pow_ne_zero 3 hz)
      dsimp only
      -- The fractions are compared where both have one denominator, which is not zero.
      by_cases hx : x₁ = x₂
      · subst hx
        rw [if_pos (hxs.mpr rfl)]
        by_cases hy : y₁ = y₂
        · subst hy
          rw [if_pos (hys.mpr rfl)]
          exact double_represents (.affine h₁ hx₁ hy₁ hz₁ hlt₁)
        · have hopposite := (Y_eq_of_X_eq h₁.1 h₂.1 rfl).resolve_left hy
          rw [if_neg (mt hys.mp hy), Point.add_of_Y_eq rfl hopposite]
          exact .infinity rfl
      · have hchord : C.equation.slope x₁ x₂ y₁ y₂ * (x₁ - x₂) = y₁ - y₂ := by
          rw [slope_of_X_ne hx, div_mul_cancel₀ _ (sub_ne_zero.mpr hx)]
        rw [if_neg (mt hxs.mp hx), Point.add_of_X_ne hx]
        exact chord_represents _ hchord hx hz hu hv hs ht (mul_lt _ _) (mul_lt _ _)

theorem multiple_represents (hA : Represents C P A) (k : Nat) :
    Represents C (C.multiple k P) (k • A) := by
  induction k using multiple.induct C P with
  | case1 =>
    rw [multiple, if_pos rfl, zero_nsmul]
    exact .infinity rfl
  | case2 k hk hodd ih =>
    have hsplit : k • A = (k / 2) • A + (k / 2) • A + A := by
      rw [← two_nsmul, ← mul_nsmul, ← succ_nsmul]
      congr 1
      omega
    rw [multiple, if_neg hk, hsplit]
    dsimp only
    rw [if_pos hodd]
    exact sum_represents (double_represents ih) hA
  | case3 k hk heven ih =>
    have hsplit : k • A = (k / 2) • A + (k / 2) • A := by
      rw [← two_nsmul, ← mul_nsmul]
      congr 1
      omega
    rw [multiple, if_neg hk, hsplit]
    dsimp only
    rw [if_neg heven]
    exact double_represents ih

/-- A point of the group by the least residues of its coordinates. -/
def coordinates : C.equation.Point → Point
  | .zero => .infinity
  | .some x y _ => .affine x.val y.val

theorem coordinates_injective : Function.Injective (coordinates (C := C)) := by
  intro A B h
  match A, B with
  | .zero, .zero => rfl
  | .some x y hA, .some x' y' hB =>
    obtain ⟨hx, hy⟩ := Point.affine.inj h
    cases ZMod.val_injective _ hx
    cases ZMod.val_injective _ hy
    rfl

theorem spread_represents (A : C.equation.Point) : Represents C (spread (coordinates A)) A := by
  match A with
  | .zero => exact .infinity rfl
  | .some x y h =>
    refine .affine h ?_ ?_ ?_ (ZMod.val_lt y)
    all_goals simp [spread, coordinates]

theorem settle_eq (hA : Represents C P A) : C.settle P = coordinates A := by
  cases hA with
  | infinity hz => exact if_pos hz
  | @affine x y h hx hy hz hlt =>
    rw [settle, if_neg (ne_zero_of_cast hz)]
    dsimp only [coordinates]
    congr 1
    · rw [← cast_eq_iff (mul_lt _ _) (ZMod.val_lt x), ZMod.natCast_zmod_val]
      simp only [cast_mul, cast_inverse]
      rw [hx]
      field_simp
    · rw [← cast_eq_iff (mul_lt _ _) (ZMod.val_lt y), ZMod.natCast_zmod_val]
      simp only [cast_mul, cast_inverse]
      rw [hy]
      field_simp

theorem add_coordinates (A B : C.equation.Point) :
    C.add (coordinates A) (coordinates B) = coordinates (A + B) :=
  settle_eq (sum_represents (spread_represents A) (spread_represents B))

theorem smul_coordinates (k : Nat) (A : C.equation.Point) :
    C.smul k (coordinates A) = coordinates (k • A) :=
  settle_eq (multiple_represents (spread_represents A) k)

theorem neg_coordinates (A : C.equation.Point) : C.neg (coordinates A) = coordinates (-A) := by
  match A with
  | .zero => rfl
  | .some x y h =>
    rw [Point.neg_some]
    dsimp only [neg, coordinates]
    congr 1
    rw [← cast_eq_iff (sub_lt _ _) (ZMod.val_lt _), cast_sub (ZMod.val_lt y), ZMod.natCast_zmod_val,
      ZMod.natCast_zmod_val, negY_equation, Nat.cast_zero, zero_sub]

theorem cast_cubic (a : Nat) : (C.cubic a : ZMod C.prime) = (a : ZMod C.prime) ^ 3 + C.b := by
  rw [cubic, ZMod.natCast_mod, Nat.cast_add, Nat.cast_mul, ZMod.natCast_mod, Nat.cast_mul]
  ring

/-- The written points are the ones that the curve contains. -/
theorem contains_iff_coordinates {p : Point} :
    C.Contains p = true ↔ ∃ A : C.equation.Point, coordinates A = p := by
  constructor
  · intro h
    match p with
    | .infinity => exact ⟨0, rfl⟩
    | .affine a b =>
      simp only [Contains, Bool.and_eq_true, decide_eq_true_eq, beq_iff_eq] at h
      obtain ⟨⟨ha, hb⟩, heq⟩ := h
      have hcubic : (b : ZMod C.prime) ^ 2 = (a : ZMod C.prime) ^ 3 + C.b := by
        rw [← cast_cubic, ← heq, ZMod.natCast_mod, Nat.cast_mul, pow_two]
      refine ⟨.some a b (nonsingular_iff_cubic.mpr hcubic), ?_⟩
      rw [coordinates, ZMod.val_cast_of_lt ha, ZMod.val_cast_of_lt hb]
  · rintro ⟨A, rfl⟩
    match A with
    | .zero => rfl
    | .some x y h =>
      have hcubic : y.val * y.val % C.prime = C.cubic x.val := by
        have hlt : C.cubic x.val < C.prime := Nat.mod_lt _ prime_pos
        rw [← cast_eq_iff (Nat.mod_lt _ prime_pos) hlt, cast_cubic, ZMod.natCast_mod,
          Nat.cast_mul, ZMod.natCast_zmod_val, ZMod.natCast_zmod_val,
          ← nonsingular_iff_cubic.mp h, pow_two]
      simp [coordinates, Contains, ZMod.val_lt, hcubic]

end CoinScript.Curve
