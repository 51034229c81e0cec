import CoinScript.Bytes

namespace CoinScript.Bytes

variable {as bs : Bytes}

theorem toNatLE_append (as bs : Bytes) :
    toNatLE (as ++ bs) = toNatLE as + 256 ^ as.length * toNatLE bs := by
  induction as with
  | nil => simp [toNatLE]
  | cons a as ih =>
    rw [List.cons_append, toNatLE, ih, toNatLE, List.length_cons, Nat.pow_succ', Nat.mul_add,
      Nat.add_assoc, ← Nat.mul_assoc]

theorem toNatBE_cons (b : UInt8) (bs : Bytes) :
    toNatBE (b :: bs) = b.toNat * 256 ^ bs.length + toNatBE bs := by
  rw [toNatBE, List.reverse_cons, toNatLE_append, List.length_reverse, Nat.add_comm, Nat.mul_comm]
  rfl

theorem toNatBE_inj (hl : as.length = bs.length) (h : toNatBE as = toNatBE bs) : as = bs := by
  rw [← ofNatBE_toNatBE as, ← ofNatBE_toNatBE bs, hl, h]

/-- Zeros in front of digits make no difference. -/
theorem toNatBE_zeros (n : Nat) (bs : Bytes) :
    toNatBE (List.replicate n 0 ++ bs) = toNatBE bs := by
  induction n with
  | zero => rfl
  | succ n ih =>
    rw [List.replicate_succ, List.cons_append, toNatBE_cons, ih, UInt8.toNat_zero, Nat.zero_mul,
      Nat.zero_add]

theorem toNatBE_dropZeros (bs : Bytes) :
    toNatBE (bs.dropWhile (· == 0)) = toNatBE bs := by
  induction bs with
  | nil => rfl
  | cons b bs ih =>
    by_cases hb : b = 0
    · subst hb
      rw [List.dropWhile_cons_of_pos rfl, ih, toNatBE_cons, UInt8.toNat_zero, Nat.zero_mul,
        Nat.zero_add]
    · rw [List.dropWhile_cons_of_neg (by simpa using hb)]

theorem head?_dropZeros (bs : Bytes) : (bs.dropWhile (· == 0)).head? ≠ some 0 := by
  intro h
  have hkept := List.head?_dropWhile_not (· == 0) bs
  rw [h] at hkept
  exact absurd hkept (by decide)

theorem toNatLE_digits (n : Nat) : toNatLE (digits n) = n := by
  induction n using digits.induct with
  | case1 =>
    rw [digits, if_pos rfl]
    rfl
  | case2 n hn ih =>
    rw [digits, if_neg hn, toNatLE, ih, UInt8.toNat_ofNat']
    exact Nat.mod_add_div n 256

/-- The greatest digit is not zero. -/
theorem getLast?_digits_ne_zero (n : Nat) : (digits n).getLast? ≠ some 0 := by
  induction n using digits.induct with
  | case1 =>
    rw [digits, if_pos rfl]
    exact nofun
  | case2 n hn ih =>
    rw [digits, if_neg hn, List.getLast?_cons]
    cases hlast : (digits (n / 256)).getLast? with
    | some top =>
      rw [hlast] at ih
      exact ih
    | none =>
      have hempty : n / 256 = 0 := by
        rw [← toNatLE_digits (n / 256), List.getLast?_eq_none_iff.mp hlast]
        rfl
      intro hzero
      have hbyte : n % 256 = 0 := by
        have := congrArg UInt8.toNat (Option.some.inj hzero)
        rwa [Option.getD_none, UInt8.toNat_ofNat'] at this
      omega

/-- Digits without a leading zero are the digits of their number. -/
theorem digits_toNatLE (h : bs.getLast? ≠ some 0) : digits (toNatLE bs) = bs := by
  induction bs with
  | nil =>
    rw [toNatLE, digits, if_pos rfl]
  | cons b bs ih =>
    have hrest : digits (toNatLE bs) = bs := ih fun hlast => h (by rw [List.getLast?_cons, hlast]; rfl)
    have hb := b.toNat_lt
    have hne : b.toNat + 256 * toNatLE bs ≠ 0 := by
      intro h0
      have hzero : toNatLE bs = 0 := by omega
      rw [hzero, digits, if_pos rfl] at hrest
      subst hrest
      exact h (congrArg some (UInt8.toNat_inj.mp (show b.toNat = 0 by omega)))
    have hlow : UInt8.ofNat (b.toNat + 256 * toNatLE bs) = b := by
      rw [← UInt8.toNat_inj, UInt8.toNat_ofNat']
      omega
    have hhigh : (b.toNat + 256 * toNatLE bs) / 256 = toNatLE bs := by omega
    rw [toNatLE, digits, if_neg hne, hlow, hhigh, hrest]

/-- Words of one length stand in the dictionary order as their numbers do. -/
theorem precedes_iff_le (hl : as.length = bs.length) :
    precedes as bs = true ↔ toNatBE as ≤ toNatBE bs := by
  induction as generalizing bs with
  | nil =>
    rw [List.length_eq_zero_iff.mp hl.symm]
    simp [precedes]
  | cons a as ih =>
    cases bs with
    | nil => cases hl
    | cons b bs =>
      have hl : as.length = bs.length := Nat.succ.inj hl
      have ha := toNatBE_lt as
      have hb := toNatBE_lt bs
      rw [precedes, Bool.or_eq_true, Bool.and_eq_true, decide_eq_true_iff, beq_iff_eq, ih hl,
        UInt8.lt_iff_toNat_lt, ← UInt8.toNat_inj, toNatBE_cons, toNatBE_cons, hl]
      rw [hl] at ha
      rcases Nat.lt_trichotomy a.toNat b.toNat with h | h | h
      · have hmul := Nat.mul_le_mul_right (256 ^ bs.length) (Nat.succ_le_of_lt h)
        rw [Nat.succ_mul] at hmul
        omega
      · rw [h]
        omega
      · have hmul := Nat.mul_le_mul_right (256 ^ bs.length) (Nat.succ_le_of_lt h)
        rw [Nat.succ_mul] at hmul
        omega

/-- One word less another, least digit first, with a borrow that goes from each digit to the next and
is dropped at the end. -/
def subtractLE : Bytes → Bytes → Bool → Bytes
  | a :: as, b :: bs, borrow =>
    let taken := b.toNat + borrow.toNat
    if a.toNat < taken then UInt8.ofNat (a.toNat + 256 - taken) :: subtractLE as bs true
    else UInt8.ofNat (a.toNat - taken) :: subtractLE as bs false
  | _, _, _ => []

theorem length_subtractLE {borrow : Bool} (hl : as.length = bs.length) :
    (subtractLE as bs borrow).length = as.length := by
  induction as generalizing bs borrow with
  | nil => rfl
  | cons a as ih =>
    cases bs with
    | nil => cases hl
    | cons b bs =>
      have hl : as.length = bs.length := Nat.succ.inj hl
      dsimp only [subtractLE]
      split
      all_goals rw [List.length_cons, List.length_cons, ih hl]

/-- What was taken away and what remains make up the number again, but for a borrow at the end. -/
theorem subtractLE_value (borrow : Bool) (hl : as.length = bs.length) :
    ∃ dropped : Bool, toNatLE (subtractLE as bs borrow) + (toNatLE bs + borrow.toNat) =
      toNatLE as + dropped.toNat * 256 ^ as.length := by
  induction as generalizing bs borrow with
  | nil =>
    rw [List.length_eq_zero_iff.mp hl.symm]
    exact ⟨borrow, by simp [subtractLE, toNatLE]⟩
  | cons a as ih =>
    cases bs with
    | nil => cases hl
    | cons b bs =>
      have hl : as.length = bs.length := Nat.succ.inj hl
      have ha := a.toNat_lt
      have hb := b.toNat_lt
      have hborrow := Bool.toNat_le borrow
      dsimp only [subtractLE]
      split
      · next hlt =>
        obtain ⟨dropped, hrest⟩ := ih true hl
        have hdigit : (UInt8.ofNat (a.toNat + 256 - (b.toNat + borrow.toNat))).toNat =
            a.toNat + 256 - (b.toNat + borrow.toNat) := UInt8.toNat_ofNat_of_lt' (show _ < 256 by omega)
        refine ⟨dropped, ?_⟩
        rw [toNatLE, toNatLE, toNatLE, hdigit, List.length_cons, Nat.pow_succ, ← Nat.mul_assoc]
        rw [Bool.toNat_true] at hrest
        omega
      · next hle =>
        obtain ⟨dropped, hrest⟩ := ih false hl
        have hdigit : (UInt8.ofNat (a.toNat - (b.toNat + borrow.toNat))).toNat =
            a.toNat - (b.toNat + borrow.toNat) := UInt8.toNat_ofNat_of_lt' (show _ < 256 by omega)
        refine ⟨dropped, ?_⟩
        rw [toNatLE, toNatLE, toNatLE, hdigit, List.length_cons, Nat.pow_succ, ← Nat.mul_assoc]
        rw [Bool.toNat_false] at hrest
        omega

end CoinScript.Bytes
