import CoinScript.Proofs.SignMagnitude

namespace CoinScript.Number

variable {bs : Bytes} {sign : UInt8}

/-- Rewriting gives the encoding of the number. -/
theorem minimize_eq_encode (bs : Bytes) : minimize bs = encode (signMagnitude bs) := by
  obtain ⟨digits, rfl⟩ : ∃ digits : Bytes, bs = digits.reverse := ⟨bs.reverse, bs.reverse_reverse.symm⟩
  cases digits with
  | nil => exact encode_zero.symm
  | cons last below =>
    rw [minimize, List.reverse_reverse]
    dsimp only
    by_cases hs : IsSign last
    · have hlow : last &&& 0x7f = 0 := low_eq_zero.mpr hs
      have hminimal : isMinimal (signed last (below.dropWhile (· == 0))).reverse = true :=
        isMinimal_iff_signed.mpr ⟨last, _, hs, Bytes.head?_dropZeros below, rfl⟩
      have hvalue : signMagnitude (signed last (below.dropWhile (· == 0))).reverse =
          signMagnitude (last :: below).reverse := by
        rw [signMagnitude_signed hs, Bytes.toNatBE_dropZeros, signMagnitude_sign_cons hs]
      rw [if_neg (by simp [hlow]), ← hvalue, encode_signMagnitude hminimal]
    · have hlow : (last &&& 0x7f != 0) = true := bne_iff_ne.mpr (mt low_eq_zero.mp hs)
      rw [if_pos hlow, encode_signMagnitude ((isMinimal_reverse_cons last below).mpr (.inl hs))]

theorem length_minimize_le (bs : Bytes) : (minimize bs).length ≤ bs.length := by
  rw [minimize_eq_encode, length_encode_le_iff, natAbs_signMagnitude]
  exact two_mul_magnitude_lt bs

theorem checkMinimal_ok : checkMinimal bs = .ok () ↔ bs = encode (signMagnitude bs) := by
  rw [← isMinimal_iff, checkMinimal]
  split
  · next h => exact ⟨fun _ => h, fun _ => rfl⟩
  · next h => exact ⟨nofun, fun h' => absurd h' h⟩

/-- An item is true if it has a digit. -/
theorem isTrue_iff_magnitude (bs : Bytes) : isTrue bs = true ↔ magnitude bs ≠ 0 := by
  induction bs with
  | nil => simp [isTrue, magnitude]
  | cons b bs ih =>
    cases bs with
    | nil =>
      rw [isTrue, magnitude, Bool.and_eq_true, bne_iff_ne, bne_iff_ne, ← not_or]
      exact not_congr (low_eq_zero.symm.trans UInt8.toNat_inj.symm)
    | cons next rest =>
      change (b != 0 || isTrue (next :: rest)) = true ↔ b.toNat + 256 * magnitude (next :: rest) ≠ 0
      rw [Bool.or_eq_true, ih, bne_iff_ne, ne_eq, ← UInt8.toNat_inj]
      change b.toNat ≠ 0 ∨ _ ↔ _
      omega

theorem isTrue_iff (bs : Bytes) : isTrue bs = true ↔ signMagnitude bs ≠ 0 := by
  rw [isTrue_iff_magnitude, ← natAbs_signMagnitude, ne_eq, Int.natAbs_eq_zero]

/-- Puts a byte at a place, if there is one. -/
def setAt? (bs : Bytes) (place : Nat) (b : UInt8) : Option Bytes :=
  if place < bs.length then some (bs.set place b) else none

/-- Goes down over zeros below a place. The sign goes into the top bit of the digit that is found, or
behind it, and what stands above is cut off. -/
def trimFrom? (bs : Bytes) (sign : UInt8) : Nat → Option Bytes
  | 0 => some []
  | place + 1 => do
    let digit ← bs[place]?
    if digit = 0 then trimFrom? bs sign place
    else if digit &&& 0x80 = 0 then (setAt? bs place (digit ||| sign)).map (·.take (place + 1))
    else (setAt? bs (place + 1) sign).map (·.take (place + 2))

/-- The shortest string for the same number; there is none where a place is looked at that is not
there. -/
def minimizeByPlaces? (bs : Bytes) : Option Bytes :=
  match bs.length with
  | 0 => some []
  | 1 => do
    if (← bs[0]?) &&& 0x7f = 0 then return []
    return bs
  | n + 2 => do
    let last ← bs[n + 1]?
    if last &&& 0x7f ≠ 0 then return bs
    if (← bs[n]?) &&& 0x80 ≠ 0 then return bs
    trimFrom? bs last (n + 1)

theorem setAt?_take {place : Nat} (h : place < bs.length) (b : UInt8) :
    (setAt? bs place b).map (·.take (place + 1)) = some (bs.take place ++ [b]) := by
  have hset : place < (bs.set place b).length := by rwa [List.length_set]
  rw [setAt?, if_pos h, Option.map_some, List.take_succ_eq_append_getElem hset, List.getElem_set_self,
    List.take_set_of_le (Nat.le_refl _)]

/-- By induction on the place: a zero below it is left out. -/
theorem trimFrom?_eq {place : Nat} (h : place < bs.length) :
    trimFrom? bs sign place =
      some (signed sign ((bs.take place).reverse.dropWhile (· == 0))).reverse := by
  induction place with
  | zero => rfl
  | succ place ih =>
    have hplace : place < bs.length := by omega
    have hget : bs[place]? = some bs[place] := List.getElem?_eq_getElem hplace
    rw [trimFrom?, hget, Option.bind_eq_bind, Option.bind_some, List.take_succ_eq_append_getElem hplace,
      List.reverse_concat]
    by_cases hzero : bs[place] = 0
    · rw [if_pos hzero, ih hplace, hzero, List.dropWhile_cons_of_pos (by decide)]
    · rw [if_neg hzero, List.dropWhile_cons_of_neg (by simpa using hzero), signed]
      by_cases ht : 0x80 ≤ bs[place]
      · rw [if_neg (fun h0 => high_eq_zero.mp h0 ht), if_pos ht, setAt?_take h,
          List.take_succ_eq_append_getElem hplace]
        simp
      · rw [if_pos (high_eq_zero.mpr ht), if_neg ht, setAt?_take hplace]
        simp

theorem minimizeByPlaces?_eq (bs : Bytes) : minimizeByPlaces? bs = some (minimize bs) := by
  obtain ⟨digits, rfl⟩ : ∃ digits : Bytes, bs = digits.reverse := ⟨bs.reverse, bs.reverse_reverse.symm⟩
  match digits with
  | [] => rfl
  | [last] =>
    change (if last &&& 0x7f = 0 then some [] else some [last]) = _
    rw [minimize, List.reverse_reverse]
    dsimp only
    by_cases hlow : last &&& 0x7f = 0
    · rw [if_pos hlow, if_neg (by simp [hlow])]
      rfl
    · rw [if_neg hlow, if_pos (bne_iff_ne.mpr hlow)]
      rfl
  | last :: before :: below =>
    have hsplit : (last :: before :: below).reverse = below.reverse ++ [before, last] := by simp
    have hlength : (below.reverse ++ [before, last]).length = below.length + 2 := by simp
    have hreverse : below.reverse.length = below.length := List.length_reverse
    have hlast : (below.reverse ++ [before, last])[below.length + 1]? = some last := by
      rw [← hreverse]
      simp
    have hbefore : (below.reverse ++ [before, last])[below.length]? = some before := by
      rw [← hreverse]
      simp
    have htake : (below.reverse ++ [before, last]).take (below.length + 1) = below.reverse ++ [before] := by
      rw [← hreverse, List.take_length_add_append]
      rfl
    rw [minimize, List.reverse_reverse, hsplit, minimizeByPlaces?]
    simp only [hlength, hlast, hbefore, Option.bind_eq_bind, Option.bind_some]
    by_cases hlow : last &&& 0x7f = 0
    · have hsign : ¬ (last &&& 0x7f != 0) = true := by simp [hlow]
      rw [if_neg (not_not_intro hlow), if_neg hsign]
      by_cases hhigh : before &&& 0x80 = 0
      · rw [if_neg (not_not_intro hhigh), trimFrom?_eq (by omega), htake]
        simp
      · have hbig : 0x80 ≤ before := Decidable.not_not.mp (mt high_eq_zero.mpr hhigh)
        have hne : before ≠ 0 := by
          rintro rfl
          exact absurd hbig (by decide)
        rw [if_pos hhigh, List.dropWhile_cons_of_neg (by simpa using hne), signed, if_pos hbig, ← hsplit]
        rfl
    · rw [if_pos hlow, if_pos (bne_iff_ne.mpr hlow)]
      rfl

/-- Any string is rewritten as the only one that passes for a shortest form and has the same number. It
is no longer than the string, and it is the string itself if that passes already. Items are true where
the number is not zero, so where something is left. -/
theorem minimize_canonical (bs : Bytes) :
    signMagnitude (minimize bs) = signMagnitude bs ∧ checkMinimal (minimize bs) = .ok () ∧
      (minimize bs).length ≤ bs.length ∧
      (∀ other, checkMinimal other = .ok () → signMagnitude other = signMagnitude bs →
        other = minimize bs) ∧
      (minimize bs = bs ↔ checkMinimal bs = .ok ()) ∧
      (isTrue bs = true ↔ signMagnitude bs ≠ 0) ∧ (isTrue bs = true ↔ minimize bs ≠ []) ∧
      minimizeByPlaces? bs = some (minimize bs) := by
  have hvalue : signMagnitude (minimize bs) = signMagnitude bs := by
    rw [minimize_eq_encode, signMagnitude_encode]
  refine ⟨hvalue, ?_, length_minimize_le bs, ?_, ?_, isTrue_iff bs, ?_, minimizeByPlaces?_eq bs⟩
  · rw [checkMinimal_ok, hvalue, minimize_eq_encode]
  · intro other hother hsame
    rw [checkMinimal_ok.mp hother, hsame, minimize_eq_encode]
  · rw [checkMinimal_ok, minimize_eq_encode, eq_comm]
  · rw [isTrue_iff, minimize_eq_encode, ← encode_zero]
    exact not_congr ⟨fun h => congrArg encode h, encode_inj⟩

end CoinScript.Number
