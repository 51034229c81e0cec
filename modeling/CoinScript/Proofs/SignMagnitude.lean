import Mathlib.Data.Nat.Bitwise
import CoinScript.Engine.Operand
import CoinScript.Proofs.Numerals

namespace CoinScript.Number

variable {bs digits : Bytes} {b last sign top : UInt8} {n : Int} {k : Nat}

/-- What the digits spell, least first, without the top bit of the last byte. -/
def magnitude : Bytes → Nat
  | [] => 0
  | [last] => (last &&& 0x7f).toNat
  | b :: bs => b.toNat + 256 * magnitude bs

/-- Whether the top bit of the last byte is set. -/
def isNegative (bs : Bytes) : Bool :=
  match bs.getLast? with
  | none => false
  | some last => last &&& 0x80 != 0

def withSign (negative : Bool) (magnitude : Nat) : Int :=
  if negative then -(magnitude : Int) else magnitude

/-- The number of a byte string: its magnitude, negative where the top bit is set. -/
def signMagnitude (bs : Bytes) : Int := withSign (isNegative bs) (magnitude bs)

theorem toNat_low (b : UInt8) : (b &&& 0x7f).toNat = b.toNat % 128 := by
  rw [UInt8.toNat_and]
  exact Nat.and_two_pow_sub_one_eq_mod b.toNat 7

theorem toNat_high (b : UInt8) : (b &&& 0x80).toNat = if 128 ≤ b.toNat then 128 else 0 := by
  have hb := b.toNat_lt
  have hbit : b.toNat.testBit 7 = decide (128 ≤ b.toNat) := by
    rw [Nat.testBit_eq_decide_div_mod_eq]
    exact decide_eq_decide.mpr (by omega)
  rw [UInt8.toNat_and]
  change b.toNat &&& 2 ^ 7 = _
  rw [Nat.and_two_pow, hbit]
  split
  · next h => simp [h]
  · next h => simp [h]

theorem high_eq_zero : b &&& 0x80 = 0 ↔ ¬ 0x80 ≤ b := by
  rw [← UInt8.toNat_inj, toNat_high, UInt8.le_iff_toNat_le]
  change (if 128 ≤ b.toNat then 128 else 0) = 0 ↔ ¬ 128 ≤ b.toNat
  split <;> omega

theorem high_ne_zero : (b &&& 0x80 != 0) = decide (0x80 ≤ b) := by
  rw [Bool.eq_iff_iff, bne_iff_ne, ne_eq, high_eq_zero, Decidable.not_not, decide_eq_true_iff]

/-- A byte that holds a sign and no digits. -/
def IsSign (b : UInt8) : Prop := b = 0x00 ∨ b = 0x80

theorem low_eq_zero : b &&& 0x7f = 0 ↔ IsSign b := by
  have hb := b.toNat_lt
  simp only [IsSign, ← UInt8.toNat_inj, toNat_low]
  change b.toNat % 128 = 0 ↔ b.toNat = 0 ∨ b.toNat = 128
  omega

theorem low_or_high (b : UInt8) : (b &&& 0x7f) ||| (b &&& 0x80) = b := by
  rw [← UInt8.toNat_inj, UInt8.toNat_or, UInt8.toNat_and, UInt8.toNat_and, ← Nat.and_or_distrib_left]
  exact Nat.and_two_pow_sub_one_of_lt_two_pow b.toNat_lt

theorem isSign_high (b : UInt8) : IsSign (b &&& 0x80) := by
  simp only [IsSign, ← UInt8.toNat_inj, toNat_high]
  split
  · exact .inr rfl
  · exact .inl rfl

/-- A sign in a free top bit leaves the digits below it, and no other bit. -/
theorem low_or_sign (hs : IsSign sign) (ht : ¬ 0x80 ≤ top) :
    (top ||| sign) &&& 0x7f = top ∧ (top ||| sign) &&& 0x80 = sign := by
  have htop : top.toNat < 128 := UInt8.lt_iff_toNat_lt.mp (UInt8.not_le.mp ht)
  rcases hs with rfl | rfl
  · rw [UInt8.or_zero, ← UInt8.toNat_inj, ← UInt8.toNat_inj, toNat_low, toNat_high,
      Nat.mod_eq_of_lt htop, if_neg (Nat.not_le.mpr htop)]
    exact ⟨rfl, rfl⟩
  · have hor : (top ||| 0x80).toNat = 128 + top.toNat := by
      rw [UInt8.toNat_or, Nat.or_comm]
      exact (Nat.two_pow_add_eq_or_of_lt (i := 7) htop 1).symm
    rw [← UInt8.toNat_inj, ← UInt8.toNat_inj, toNat_low, toNat_high, hor, Nat.add_mod_left,
      Nat.mod_eq_of_lt htop, if_pos (Nat.le_add_right _ _)]
    exact ⟨rfl, rfl⟩

theorem magnitude_concat (bs : Bytes) (last : UInt8) :
    magnitude (bs ++ [last]) = Bytes.toNatLE bs + 256 ^ bs.length * (last &&& 0x7f).toNat := by
  induction bs with
  | nil => simp [magnitude, Bytes.toNatLE]
  | cons b bs ih =>
    have hcons : magnitude (b :: (bs ++ [last])) = b.toNat + 256 * magnitude (bs ++ [last]) := by
      cases bs <;> rfl
    rw [List.cons_append, hcons, ih, Bytes.toNatLE, List.length_cons, Nat.pow_succ', Nat.mul_add,
      Nat.add_assoc, Nat.mul_assoc]

theorem isNegative_concat (bs : Bytes) (last : UInt8) :
    isNegative (bs ++ [last]) = decide (0x80 ≤ last) := by
  rw [isNegative, List.getLast?_concat]
  exact high_ne_zero

theorem natAbs_withSign (negative : Bool) (m : Nat) : (withSign negative m).natAbs = m := by
  cases negative <;> simp [withSign]

theorem natAbs_signMagnitude (bs : Bytes) : (signMagnitude bs).natAbs = magnitude bs :=
  natAbs_withSign _ _

/-- The number that items are read as. -/
theorem value_eq (bs : Bytes) : value bs = signMagnitude bs := by
  rcases List.eq_nil_or_concat bs with rfl | ⟨below, last, rfl⟩
  · rfl
  · have hlast := last.toNat_lt
    have hlow := toNat_low last
    rw [List.concat_eq_append, signMagnitude, magnitude_concat, isNegative_concat, value,
      List.getLast?_concat, Bytes.toNatLE_append, List.length_append, List.length_singleton,
      Nat.add_sub_cancel, withSign]
    have hsingle : Bytes.toNatLE [last] = last.toNat := by simp [Bytes.toNatLE]
    dsimp only
    by_cases h : 0x80 ≤ last
    · have h128 : 128 ≤ last.toNat := UInt8.le_iff_toNat_le.mp h
      have hsplit : last.toNat = 128 + (last &&& 0x7f).toNat := by omega
      rw [if_pos h, if_pos (decide_eq_true h), hsingle, hsplit, Nat.mul_add, Nat.mul_comm 128,
        ← Nat.add_assoc, Nat.add_right_comm, Nat.add_sub_cancel]
    · have h128 : last.toNat < 128 := UInt8.lt_iff_toNat_lt.mp (UInt8.not_le.mp h)
      have hsame : (last &&& 0x7f).toNat = last.toNat := by omega
      rw [if_neg h, if_neg (by simpa using h), hsingle, hsame]

/-- A sign in a byte of its own, behind digits. -/
theorem signMagnitude_sign_cons (hs : IsSign sign) (digits : Bytes) :
    signMagnitude (sign :: digits).reverse = withSign (sign == 0x80) (Bytes.toNatBE digits) := by
  have hnegative : decide (0x80 ≤ sign) = (sign == 0x80) := by rcases hs with rfl | rfl <;> rfl
  rw [signMagnitude, List.reverse_cons, magnitude_concat, isNegative_concat, low_eq_zero.mpr hs, hnegative]
  rfl

/-- A string that carries a sign has the number of its digits. -/
theorem signMagnitude_signed (hs : IsSign sign) (digits : Bytes) :
    signMagnitude (signed sign digits).reverse =
      withSign (sign == 0x80) (Bytes.toNatBE digits) := by
  cases digits with
  | nil => rcases hs with rfl | rfl <;> rfl
  | cons top below =>
    rw [signed]
    split
    · exact signMagnitude_sign_cons hs _
    · next ht =>
      obtain ⟨hlow, hhigh⟩ := low_or_sign hs ht
      have hnegative : decide (0x80 ≤ top ||| sign) = (sign == 0x80) := by
        rw [← high_ne_zero, hhigh]
        rcases hs with rfl | rfl <;> rfl
      rw [signMagnitude, List.reverse_cons, magnitude_concat, isNegative_concat, hlow, hnegative,
        Bytes.toNatBE_cons, List.length_reverse, Nat.add_comm, Nat.mul_comm]
      rfl

/-- The last byte carries digits, or the one before it needs its top bit. -/
theorem isMinimal_reverse_cons (last : UInt8) (below : Bytes) :
    isMinimal (last :: below).reverse = true ↔ ¬ IsSign last ∨ ∃ top ∈ below.head?, 0x80 ≤ top := by
  have hlow : (last &&& 0x7f != 0) = true ↔ ¬ IsSign last := by rw [bne_iff_ne, ne_eq, low_eq_zero]
  cases below with
  | nil => simp [isMinimal, hlow]
  | cons top below =>
    rw [isMinimal, List.reverse_reverse]
    simp [hlow, high_ne_zero]

/-- The strings with nothing to leave out are the digits without a leading zero that carry a sign. -/
theorem isMinimal_iff_signed :
    isMinimal bs = true ↔
      ∃ sign digits, IsSign sign ∧ digits.head? ≠ some 0 ∧ bs = (signed sign digits).reverse := by
  constructor
  · intro h
    obtain ⟨greatestFirst, rfl⟩ : ∃ digits : Bytes, bs = digits.reverse :=
      ⟨bs.reverse, bs.reverse_reverse.symm⟩
    cases greatestFirst with
    | nil => exact ⟨0x00, [], .inl rfl, nofun, rfl⟩
    | cons last below =>
      by_cases hs : IsSign last
      · obtain ⟨top, hhead, htop⟩ := ((isMinimal_reverse_cons last below).mp h).resolve_left (not_not_intro hs)
        obtain ⟨rest, rfl⟩ := List.head?_eq_some_iff.mp hhead
        refine ⟨last, top :: rest, hs, ?_, by rw [signed, if_pos htop]⟩
        rintro h0
        cases Option.some.inj h0
        exact absurd htop (by decide)
      · have hfree : ¬ 0x80 ≤ last &&& 0x7f := by
          rw [UInt8.le_iff_toNat_le, toNat_low]
          exact Nat.not_le.mpr (Nat.mod_lt _ (by decide))
        refine ⟨last &&& 0x80, (last &&& 0x7f) :: below, isSign_high last, ?_, ?_⟩
        · exact fun h0 => hs (low_eq_zero.mp (Option.some.inj h0))
        · rw [signed, if_neg hfree, low_or_high]
  · rintro ⟨sign, digits, hs, hd, rfl⟩
    cases digits with
    | nil => rfl
    | cons top below =>
      rw [signed]
      split
      · next ht => exact (isMinimal_reverse_cons _ _).mpr (.inr ⟨top, rfl, ht⟩)
      · next ht =>
        refine (isMinimal_reverse_cons _ _).mpr (.inl fun hsign => hd ?_)
        rw [List.head?_cons, ← (low_or_sign hs ht).1, low_eq_zero.mpr hsign]

theorem signByte_eq (n : Int) : IsSign (signByte n) ∧ (signByte n == 0x80) = decide (n < 0) := by
  unfold signByte
  split
  · next h => exact ⟨.inr rfl, (decide_eq_true h).symm⟩
  · next h => exact ⟨.inl rfl, (decide_eq_false h).symm⟩

theorem encode_zero : encode 0 = [] := by
  rw [encode, Int.natAbs_zero, Bytes.digits, if_pos rfl]
  rfl

theorem toNatBE_digits (m : Nat) : Bytes.toNatBE (Bytes.digits m).reverse = m := by
  rw [Bytes.toNatBE, List.reverse_reverse, Bytes.toNatLE_digits]

/-- Numbers are read back from their encodings. -/
theorem signMagnitude_encode (n : Int) : signMagnitude (encode n) = n := by
  obtain ⟨hs, hn⟩ := signByte_eq n
  rw [encode, signMagnitude_signed hs, toNatBE_digits, hn, withSign]
  by_cases h : n < 0
  · rw [if_pos (decide_eq_true h)]
    omega
  · rw [if_neg (by simpa using h)]
    omega

theorem value_encode (n : Int) : value (encode n) = n := by
  rw [value_eq, signMagnitude_encode]

theorem isMinimal_encode (n : Int) : isMinimal (encode n) = true := by
  refine isMinimal_iff_signed.mpr ⟨_, _, (signByte_eq n).1, ?_, rfl⟩
  rw [List.head?_reverse]
  exact Bytes.getLast?_digits_ne_zero n.natAbs

/-- The sign of a number is the one that its string carries, unless there are no digits. -/
theorem signByte_withSign {m : Nat} (hs : IsSign sign) (hm : 0 < m) :
    signByte (withSign (sign == 0x80) m) = sign := by
  rcases hs with rfl | rfl
  · exact if_neg (Int.not_lt.mpr (Int.natCast_nonneg m))
  · exact if_pos (Int.neg_neg_of_pos (Int.natCast_pos.mpr hm))

/-- A string with nothing to leave out is the encoding of its number. -/
theorem encode_signMagnitude (h : isMinimal bs = true) : encode (signMagnitude bs) = bs := by
  obtain ⟨sign, digits, hs, hd, rfl⟩ := isMinimal_iff_signed.mp h
  have hdigits : (Bytes.digits (Bytes.toNatBE digits)).reverse = digits := by
    rw [Bytes.toNatBE, Bytes.digits_toNatLE (by rwa [List.getLast?_reverse]), List.reverse_reverse]
  rw [encode, signMagnitude_signed hs, natAbs_withSign, hdigits]
  cases digits with
  | nil => rfl
  | cons top below =>
    have hpos : 0 < Bytes.toNatBE (top :: below) := by
      refine Nat.pos_of_ne_zero fun h0 => ?_
      rw [h0, Bytes.digits, if_pos rfl] at hdigits
      cases hdigits
    rw [signByte_withSign hs hpos]

/-- The strings with nothing to leave out are the encodings, one for each number. -/
theorem isMinimal_iff : isMinimal bs = true ↔ bs = encode (signMagnitude bs) :=
  ⟨fun h => (encode_signMagnitude h).symm, fun h => h ▸ isMinimal_encode _⟩

theorem encode_inj {m : Int} (h : encode n = encode m) : n = m := by
  rw [← signMagnitude_encode n, h, signMagnitude_encode]

/-- The top bit of a string holds no digit. -/
theorem two_mul_magnitude_lt (bs : Bytes) : 2 * magnitude bs < 256 ^ bs.length := by
  rcases List.eq_nil_or_concat bs with rfl | ⟨below, last, rfl⟩
  · decide
  · have hbelow := Bytes.toNatLE_lt below
    have hlast : (last &&& 0x7f).toNat < 128 := toNat_low last ▸ Nat.mod_lt _ (by decide)
    have hmul := Nat.mul_le_mul_left (256 ^ below.length) (Nat.succ_le_of_lt hlast)
    rw [Nat.mul_succ] at hmul
    rw [List.concat_eq_append, magnitude_concat, List.length_append, List.length_singleton, Nat.pow_succ]
    omega

/-- A string with nothing to leave out has no room for its number one byte shorter. -/
theorem le_two_mul_magnitude (h : isMinimal bs = true) (hne : bs ≠ []) :
    256 ^ (bs.length - 1) ≤ 2 * magnitude bs := by
  obtain ⟨sign, digits, hs, hd, rfl⟩ := isMinimal_iff_signed.mp h
  have hvalue : magnitude (signed sign digits).reverse = Bytes.toNatBE digits := by
    rw [← natAbs_signMagnitude, signMagnitude_signed hs, natAbs_withSign]
  cases digits with
  | nil => exact absurd rfl hne
  | cons top below =>
    rw [hvalue, Bytes.toNatBE_cons, List.length_reverse, signed]
    split
    · next ht =>
      have hmul := Nat.mul_le_mul_right (256 ^ below.length) (UInt8.le_iff_toNat_le.mp ht)
      change 128 * 256 ^ below.length ≤ _ at hmul
      rw [List.length_cons, List.length_cons, Nat.add_sub_cancel, Nat.pow_succ]
      omega
    · have hpos : 1 ≤ top.toNat :=
        Nat.one_le_iff_ne_zero.mpr fun h0 => hd (congrArg some (UInt8.toNat_inj.mp h0))
      have hmul := Nat.mul_le_mul_right (256 ^ below.length) hpos
      rw [List.length_cons, Nat.add_sub_cancel]
      omega

/-- How many bytes a number takes. -/
theorem length_encode_le_iff : (encode n).length ≤ k ↔ 2 * n.natAbs < 256 ^ k := by
  have hvalue : magnitude (encode n) = n.natAbs := by rw [← natAbs_signMagnitude, signMagnitude_encode]
  constructor
  · intro h
    rw [← hvalue]
    exact Nat.lt_of_lt_of_le (two_mul_magnitude_lt _) (Nat.pow_le_pow_right (by decide) h)
  · intro h
    by_cases hne : encode n = []
    · rw [hne]
      exact Nat.zero_le k
    · have hlow := le_two_mul_magnitude (isMinimal_encode n) hne
      rw [hvalue] at hlow
      have hlt := (Nat.pow_lt_pow_iff_right (by decide)).mp (Nat.lt_of_le_of_lt hlow h)
      omega

end CoinScript.Number
