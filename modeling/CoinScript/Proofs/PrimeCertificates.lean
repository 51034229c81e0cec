import CoinScript.Curve.Basic
import CoinScript.Proofs.ModularPowers
import Mathlib.Data.List.Prime
import Mathlib.NumberTheory.LucasPrimality

namespace CoinScript.Primality

/-- A number with a base whose powers are to run through its residues, and the prime factors of the
number less one, each as often as it divides. -/
structure Step where
  number : Nat
  base : Nat
  factors : List Nat

/-- Trial division, which decides for numbers up to the square of 200. -/
def isSmallPrime (n : Nat) : Bool :=
  1 < n && n < 200 * 200 && (List.range 200).all fun d => d < 2 || n ≤ d || n % d != 0

def isKnown (known : List Nat) (q : Nat) : Bool := isSmallPrime q || known.contains q

/-- Whether the factors are known primes, and no power of the base but the whole one is 1. -/
def Step.isChecked (known : List Nat) (step : Step) : Bool :=
  1 < step.number && step.factors.prod == step.number - 1 &&
    powMod step.number step.base (step.number - 1) == 1 &&
    step.factors.all fun q =>
      isKnown known q && powMod step.number step.base ((step.number - 1) / q) != 1

/-- Whether each step is checked with the numbers of the steps before it. -/
def areChecked : (known : List Nat) → List Step → Bool
  | _, [] => true
  | known, step :: steps => step.isChecked known && areChecked (step.number :: known) steps

variable {known : List Nat} {step : Step} {steps : List Step} {n q : Nat}

theorem prime_of_isSmallPrime (h : isSmallPrime n = true) : n.Prime := by
  simp only [isSmallPrime, Bool.and_eq_true, decide_eq_true_iff, List.all_eq_true, List.mem_range,
    Bool.or_eq_true, bne_iff_ne] at h
  obtain ⟨⟨hn, hbound⟩, hdivisors⟩ := h
  refine Nat.prime_def_le_sqrt.mpr ⟨hn, fun d hd hroot hdvd => ?_⟩
  have hsquare : d * d ≤ n := Nat.le_sqrt.mp hroot
  have hsmall : d < 200 := by
    by_contra hge
    have hmul := Nat.mul_le_mul (Nat.le_of_not_lt hge) (Nat.le_of_not_lt hge)
    omega
  rcases hdivisors d hsmall with (hlt | hle) | hmod
  · omega
  · have hmul := Nat.mul_le_mul_right d hd
    omega
  · exact hmod (Nat.mod_eq_zero_of_dvd hdvd)

theorem prime_of_isKnown (hknown : ∀ p ∈ known, p.Prime) (h : isKnown known q = true) : q.Prime := by
  rcases Bool.or_eq_true_iff.mp h with hsmall | hmem
  · exact prime_of_isSmallPrime hsmall
  · exact hknown q (List.contains_iff_mem.mp hmem)

/-- The powers of the base tell a prime, if every prime factor of the number less one is listed. -/
theorem Step.prime (hknown : ∀ p ∈ known, p.Prime) (h : step.isChecked known = true) :
    step.number.Prime := by
  simp only [Step.isChecked, Bool.and_eq_true, decide_eq_true_iff, beq_iff_eq, List.all_eq_true,
    bne_iff_ne] at h
  obtain ⟨⟨⟨hnumber, hprod⟩, hwhole⟩, hfactors⟩ := h
  refine lucas_primality step.number step.base ((powMod_eq_one_iff hnumber).mp hwhole) ?_
  intro q hq hdvd hone
  rw [← hprod] at hdvd
  obtain ⟨listed, hlisted, hdvd⟩ := hq.prime.dvd_prod_iff.mp hdvd
  obtain ⟨hprime, hpower⟩ := hfactors listed hlisted
  obtain rfl := (Nat.prime_dvd_prime_iff_eq hq (prime_of_isKnown hknown hprime)).mp hdvd
  exact hpower ((powMod_eq_one_iff hnumber).mpr hone)

theorem prime_of_areChecked (hknown : ∀ p ∈ known, p.Prime) (h : areChecked known steps = true) :
    ∀ step ∈ steps, step.number.Prime := by
  induction steps generalizing known with
  | nil => exact fun _ hmem => absurd hmem List.not_mem_nil
  | cons first steps ih =>
    obtain ⟨hfirst, hsteps⟩ := Bool.and_eq_true_iff.mp h
    have hprime := Step.prime hknown hfirst
    exact List.forall_mem_cons.mpr
      ⟨hprime, ih (List.forall_mem_cons.mpr ⟨hprime, hknown⟩) hsteps⟩

def fieldSteps : List Step :=
  [⟨13331831, 13, [2, 5, 971, 1373]⟩,
   ⟨173378833005251801, 6, [2, 2, 2, 5, 5, 2621, 24809, 13331831]⟩,
   ⟨22149492674086928081353, 5, [2, 2, 2, 3, 5323, 173378833005251801]⟩,
   ⟨132896956044521568488119, 6, [2, 3, 22149492674086928081353]⟩,
   ⟨41201, 3, [2, 2, 2, 2, 5, 5, 103]⟩,
   ⟨96557, 2, [2, 2, 101, 239]⟩,
   ⟨1206781, 10, [2, 2, 3, 5, 20113]⟩,
   ⟨7240687, 3, [2, 3, 1206781]⟩,
   ⟨107590001, 3, [2, 2, 2, 2, 5, 5, 5, 5, 7, 29, 53]⟩,
   ⟨255515944373312847190720520512484175977, 3,
    [2, 2, 2, 7, 7, 11, 1627, 2657, 4423, 41201, 96557, 7240687, 107590001]⟩,
   ⟨205115282021455665897114700593932402728804164701536103180137503955397371, 10,
    [2, 3, 5, 29, 29, 31, 7723, 132896956044521568488119, 255515944373312847190720520512484175977]⟩,
   ⟨secp256k1.prime, 3,
    [2, 3, 7, 13441, 205115282021455665897114700593932402728804164701536103180137503955397371]⟩]

def orderSteps : List Step :=
  [⟨85831, 3, [2, 3, 5, 2861]⟩,
   ⟨4681609, 23, [2, 2, 2, 3, 97, 2011]⟩,
   ⟨107361793816595537, 3, [2, 2, 2, 2, 16699, 85831, 4681609]⟩,
   ⟨120233, 3, [2, 2, 2, 7, 19, 113]⟩,
   ⟨44706919, 6, [2, 3, 797, 9349]⟩,
   ⟨174723607534414371449, 3, [2, 2, 2, 17, 59, 4051, 120233, 44706919]⟩,
   ⟨305873, 3, [2, 2, 2, 2, 7, 2731]⟩,
   ⟨545358713, 5, [2, 2, 2, 41, 59, 28181]⟩,
   ⟨1627771, 3, [2, 3, 5, 29, 1871]⟩,
   ⟨297159362677, 2, [2, 2, 3, 3, 11, 461, 1627771]⟩,
   ⟨29047611873442575647497758179, 2, [2, 293, 305873, 545358713, 297159362677]⟩,
   ⟨341948486974166000522343609283189, 2, [2, 2, 3, 3, 3, 109, 29047611873442575647497758179]⟩,
   ⟨secp256k1.order, 7,
    [2, 2, 2, 2, 2, 2, 3, 149, 631, 107361793816595537, 174723607534414371449,
      341948486974166000522343609283189]⟩]

theorem prime_field : secp256k1.prime.Prime := by
  have hchecked : areChecked [] fieldSteps = true := by decide +kernel
  exact prime_of_areChecked (fun _ h => absurd h List.not_mem_nil) hchecked ⟨secp256k1.prime, _, _⟩
    (List.mem_of_getLast? rfl)

theorem prime_order : secp256k1.order.Prime := by
  have hchecked : areChecked [] orderSteps = true := by decide +kernel
  exact prime_of_areChecked (fun _ h => absurd h List.not_mem_nil) hchecked ⟨secp256k1.order, _, _⟩
    (List.mem_of_getLast? rfl)

end CoinScript.Primality
