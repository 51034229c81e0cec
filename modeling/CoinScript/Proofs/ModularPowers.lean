import CoinScript.Curve.Basic
import Mathlib.FieldTheory.Finite.Basic

namespace CoinScript

variable {m a e : Nat}

theorem cast_powMod (m a e : Nat) : (powMod m a e : ZMod m) = (a : ZMod m) ^ e := by
  induction a, e using powMod.induct m with
  | case1 a =>
    rw [powMod, if_pos rfl, ZMod.natCast_mod, Nat.cast_one, pow_zero]
  | case2 a e he hodd ih =>
    rw [powMod, if_neg he]
    dsimp only
    rw [if_pos hodd, ZMod.natCast_mod, Nat.cast_mul, ih, ZMod.natCast_mod, Nat.cast_mul, ← pow_two,
      ← pow_mul, ← pow_succ]
    congr 1
    omega
  | case3 a e he heven ih =>
    rw [powMod, if_neg he]
    dsimp only
    rw [if_neg heven, ih, ZMod.natCast_mod, Nat.cast_mul, ← pow_two, ← pow_mul]
    congr 1
    omega

theorem powMod_lt (hm : 0 < m) (a e : Nat) : powMod m a e < m := by
  induction a, e using powMod.induct m with
  | case1 a =>
    rw [powMod, if_pos rfl]
    exact Nat.mod_lt _ hm
  | case2 a e he hodd ih =>
    rw [powMod, if_neg he]
    dsimp only
    rw [if_pos hodd]
    exact Nat.mod_lt _ hm
  | case3 a e he heven ih =>
    rw [powMod, if_neg he]
    dsimp only
    rw [if_neg heven]
    exact ih

/-- Residues below the modulus are told apart by their class. -/
theorem cast_eq_iff {b : Nat} (ha : a < m) (hb : b < m) : (a : ZMod m) = b ↔ a = b := by
  rw [ZMod.natCast_eq_natCast_iff', Nat.mod_eq_of_lt ha, Nat.mod_eq_of_lt hb]

theorem powMod_eq_one_iff (hm : 1 < m) : powMod m a e = 1 ↔ (a : ZMod m) ^ e = 1 := by
  rw [← cast_powMod, ← cast_eq_iff (powMod_lt (Nat.lt_trans Nat.zero_lt_one hm) a e) hm, Nat.cast_one]

end CoinScript
