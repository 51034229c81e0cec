import CoinScript.Proofs.Numerals
import CoinScript.Proofs.StrictDer

namespace CoinScript.Der

open Ecdsa (Signature order)

variable {body body' word : Bytes} {n : Nat} {sig : Signature}

namespace Minimal

theorem toNatBE_lt (h : Minimal body) : Bytes.toNatBE body < 128 * 256 ^ (body.length - 1) := by
  match body with
  | [] => exact absurd rfl h.nonempty
  | top :: rest =>
    have htop : top.toNat < 128 := UInt8.lt_iff_toNat_lt.mp (h.nonnegative top rfl)
    have hrest := Bytes.toNatBE_lt rest
    have hmul := Nat.mul_le_mul_right (256 ^ rest.length) (Nat.succ_le_of_lt htop)
    rw [Nat.succ_mul] at hmul
    rw [Bytes.toNatBE_cons, List.length_cons, Nat.add_sub_cancel]
    omega

/-- A body with one byte less would not hold the number. -/
theorem le_toNatBE (h : Minimal body) (hl : 2 ≤ body.length) :
    128 * 256 ^ (body.length - 2) ≤ Bytes.toNatBE body := by
  match body with
  | top :: next :: rest =>
    have hpow : 256 ^ (rest.length + 1) = 256 * 256 ^ rest.length := Nat.pow_succ'
    rw [Bytes.toNatBE_cons, Bytes.toNatBE_cons, List.length_cons, List.length_cons, hpow]
    by_cases htop : top = 0
    · subst htop
      have hnext : 128 ≤ next.toNat := UInt8.le_iff_toNat_le.mp (h.tight next rest rfl)
      have hmul := Nat.mul_le_mul_right (256 ^ rest.length) hnext
      change 128 * 256 ^ rest.length ≤ _
      omega
    · have hpos : 1 ≤ top.toNat := Nat.one_le_iff_ne_zero.mpr fun h0 => htop (UInt8.toNat_inj.mp h0)
      have hmul := Nat.mul_le_mul_right (256 * 256 ^ rest.length) hpos
      change 128 * 256 ^ rest.length ≤ _
      omega

theorem length_le {k : Nat} (h : Minimal body) (hn : Bytes.toNatBE body < 128 * 256 ^ k) :
    body.length ≤ k + 1 := by
  refine Nat.le_of_not_lt fun hlong => ?_
  have hlow := h.le_toNatBE (by omega)
  have hpow : 256 ^ k ≤ 256 ^ (body.length - 2) := Nat.pow_le_pow_right (by decide) (by omega)
  omega

theorem unique (h : Minimal body) (h' : Minimal body')
    (hn : Bytes.toNatBE body = Bytes.toNatBE body') : body = body' := by
  have hle := h.length_le (hn ▸ h'.toNatBE_lt)
  have hle' := h'.length_le (hn ▸ h.toNatBE_lt)
  have hpos := List.length_pos_iff.mpr h.nonempty
  have hpos' := List.length_pos_iff.mpr h'.nonempty
  exact Bytes.toNatBE_inj (by omega) hn

end Minimal

theorem toNatBE_integerBody (n : Nat) : Bytes.toNatBE (integerBody n) = n := by
  have hdigits : Bytes.toNatBE (Bytes.digits n).reverse = n := by
    rw [Bytes.toNatBE, List.reverse_reverse, Bytes.toNatLE_digits]
  unfold integerBody
  split
  · next hempty =>
    rw [hempty] at hdigits
    exact hdigits
  · next top rest hrest =>
    rw [hrest] at hdigits
    split
    · rw [Bytes.toNatBE_cons, hdigits]
      simp
    · exact hdigits

theorem minimal_integerBody (n : Nat) : Minimal (integerBody n) := by
  have hlast := Bytes.getLast?_digits_ne_zero n
  unfold integerBody
  split
  · exact minimal_cons.mpr (by decide)
  · next top rest hrest =>
    have htop : top ≠ 0 := by
      rw [← List.head?_reverse, hrest] at hlast
      exact fun h0 => hlast (congrArg some h0)
    split
    · next hhigh =>
      refine minimal_cons.mpr ⟨by decide, ?_⟩
      exact decide_eq_false (UInt8.not_lt.mpr hhigh)
    · next hlow =>
      refine minimal_cons.mpr ⟨UInt8.not_le.mp hlow, ?_⟩
      unfold isPadded
      split
      · next next more he => exact absurd (List.cons.inj he).1 htop
      · rfl

/-- The strict bodies are the ones that are written. -/
theorem minimal_iff : Minimal body ↔ body = integerBody (Bytes.toNatBE body) := by
  constructor
  · intro h
    exact h.unique (minimal_integerBody _) (toNatBE_integerBody _).symm
  · intro h
    rw [h]
    exact minimal_integerBody _

theorem length_integerBody_le {k : Nat} (h : n < 128 * 256 ^ k) : (integerBody n).length ≤ k + 1 :=
  (minimal_integerBody n).length_le (by rwa [toNatBE_integerBody])

theorem lowS_eq (h : sig.s < order) :
    sig.lowS = if sig.s ≤ order / 2 then sig.s else order - sig.s := by
  have hs := sig.s_lt
  have horder : order < 2 ^ 256 := by decide
  unfold Signature.lowS Signature.isHigh
  by_cases hlow : sig.s ≤ order / 2
  · rw [if_pos hlow, if_neg (by simpa using hlow)]
  · rw [if_neg hlow, if_pos (by simpa using hlow), Nat.sub_add_comm (Nat.le_of_lt h),
      Nat.add_mod_right, Nat.mod_eq_of_lt (by omega)]

/-- The order is odd, so that one of a number and its negative is low. -/
theorem order_odd : order = 2 * (order / 2) + 1 := by decide

theorem lowS_le (h : sig.s < order) : sig.lowS ≤ order / 2 := by
  have hodd := order_odd
  rw [lowS_eq h]
  split <;> omega

theorem strict_encode (hr : sig.r < order) (hs : sig.s < order) :
    Strict (encode sig) (integerBody sig.r) (integerBody sig.lowS) ∧ (encode sig).length ≤ 71 := by
  have horder : order < 128 * 256 ^ 32 ∧ order / 2 < 128 * 256 ^ 31 := by decide
  have hfirst : (integerBody sig.r).length ≤ 33 := length_integerBody_le (Nat.lt_trans hr horder.1)
  have hsecond : (integerBody sig.lowS).length ≤ 32 :=
    length_integerBody_le (Nat.lt_of_le_of_lt (lowS_le hs) horder.2)
  have hlength : (encode sig).length =
      (integerBody sig.r).length + (integerBody sig.lowS).length + 6 := by
    simp only [encode, integer, List.length_cons, List.length_append]
    omega
  refine ⟨⟨rfl, by omega, minimal_integerBody _, minimal_integerBody _⟩, by omega⟩

/-- The digits of a word from the first that is not zero, or the last one. -/
def trimmed : Bytes → Bytes
  | [] => []
  | top :: rest => if top = 0 ∧ rest ≠ [] then trimmed rest else top :: rest

/-- The digits behind a zero where the top bit is set. -/
def signed (digits : Bytes) : Bytes :=
  match digits with
  | top :: _ => if 0x80 ≤ top then 0 :: digits else digits
  | [] => []

theorem toNatBE_trimmed (word : Bytes) : Bytes.toNatBE (trimmed word) = Bytes.toNatBE word := by
  induction word with
  | nil => rfl
  | cons top rest ih =>
    rw [trimmed]
    split
    · next h =>
      rw [ih, h.1, Bytes.toNatBE_cons 0]
      simp
    · rfl

theorem trimmed_ne_nil (h : word ≠ []) : trimmed word ≠ [] := by
  induction word with
  | nil => exact absurd rfl h
  | cons top rest ih =>
    rw [trimmed]
    split
    · next h => exact ih h.2
    · exact List.cons_ne_nil _ _

theorem trimmed_tight {more : Bytes} (h : trimmed word = 0 :: more) : more = [] := by
  induction word with
  | nil => cases h
  | cons top rest ih =>
    rw [trimmed] at h
    split at h
    · exact ih h
    · next hkept =>
      obtain ⟨rfl, rfl⟩ := List.cons.inj h
      exact Decidable.not_not.mp fun hne => hkept ⟨rfl, hne⟩

theorem toNatBE_signed (digits : Bytes) : Bytes.toNatBE (signed digits) = Bytes.toNatBE digits := by
  unfold signed
  split
  · split
    · rw [Bytes.toNatBE_cons 0]
      simp
    · rfl
  · rfl

theorem minimal_signed {top : UInt8} {more : Bytes} (h : top = 0 → more = []) :
    Minimal (signed (top :: more)) := by
  unfold signed
  dsimp only
  split
  · next hhigh => exact minimal_cons.mpr ⟨by decide, decide_eq_false (UInt8.not_lt.mpr hhigh)⟩
  · next hlow =>
    refine minimal_cons.mpr ⟨UInt8.not_le.mp hlow, ?_⟩
    unfold isPadded
    split
    · next next rest he =>
      obtain ⟨rfl, rfl⟩ := List.cons.inj he
      cases h rfl
    · rfl

theorem signed_trimmed (h : word ≠ []) : signed (trimmed word) = integerBody (Bytes.toNatBE word) := by
  have hvalue : Bytes.toNatBE (signed (trimmed word)) = Bytes.toNatBE word := by
    rw [toNatBE_signed, toNatBE_trimmed]
  have hminimal : Minimal (signed (trimmed word)) := by
    match hdigits : trimmed word with
    | [] => exact absurd hdigits (trimmed_ne_nil h)
    | top :: more =>
      refine minimal_signed fun h0 => ?_
      rw [h0] at hdigits
      exact trimmed_tight hdigits
  rw [← hvalue]
  exact minimal_iff.mp hminimal

/-- A word of the order less another word. -/
def negated (word : Bytes) : Bytes :=
  (Bytes.subtractLE (Bytes.ofNatLE 32 order) word.reverse false).reverse

/-- The word of `s`, or of its negative where the word is above the one of half the order. -/
def lowWord (s : Bytes) : Bytes :=
  if Bytes.precedes s (Bytes.ofNatBE 32 (order / 2)) then s else negated s

/-- The same form from the words of `r` and `s`. -/
def encodeWords (r s : Bytes) : Bytes :=
  let first := signed (trimmed r)
  let second := signed (trimmed (lowWord s))
  0x30 :: UInt8.ofNat (first.length + second.length + 4) ::
    0x02 :: UInt8.ofNat first.length :: (first ++ 0x02 :: UInt8.ofNat second.length :: second)

theorem length_negated (h : word.length = 32) : (negated word).length = 32 := by
  rw [negated, List.length_reverse, Bytes.length_subtractLE (by simp [h]), Bytes.length_ofNatLE]

theorem toNatBE_word_lt (h : word.length = 32) : Bytes.toNatBE word < 2 ^ 256 := by
  have hlt := Bytes.toNatBE_lt word
  rwa [h] at hlt

/-- Words of 32 bytes spell every number of a signature. -/
theorem toNatBE_word (h : n < 2 ^ 256) : Bytes.toNatBE (Bytes.ofNatBE 32 n) = n := by
  rw [Bytes.toNatBE_ofNatBE]
  exact Nat.mod_eq_of_lt h

/-- The borrow that is dropped makes it the subtraction of 256-bit words. -/
theorem toNatBE_negated (h : word.length = 32) :
    Bytes.toNatBE (negated word) = (order + 2 ^ 256 - Bytes.toNatBE word) % 2 ^ 256 := by
  have hword := toNatBE_word_lt h
  have hless := toNatBE_word_lt (length_negated h)
  have horder : Bytes.toNatLE (Bytes.ofNatLE 32 order) = order := by
    rw [Bytes.toNatLE_ofNatLE]
    exact Nat.mod_eq_of_lt (by decide)
  have hlength : (Bytes.ofNatLE 32 order).length = word.reverse.length := by simp [h]
  obtain ⟨dropped, hvalue⟩ := Bytes.subtractLE_value false hlength
  rw [horder, Bytes.length_ofNatLE] at hvalue
  have hsum : Bytes.toNatBE (negated word) + Bytes.toNatBE word = order + dropped.toNat * 2 ^ 256 := by
    rw [negated, Bytes.toNatBE, List.reverse_reverse]
    exact hvalue
  cases dropped with
  | false =>
    rw [Bool.toNat_false] at hsum
    omega
  | true =>
    rw [Bool.toNat_true] at hsum
    omega

theorem length_lowWord (h : word.length = 32) : (lowWord word).length = 32 := by
  unfold lowWord
  split
  · exact h
  · exact length_negated h

theorem toNatBE_lowWord (sig : Signature) :
    Bytes.toNatBE (lowWord (Bytes.ofNatBE 32 sig.s)) = sig.lowS := by
  have hhalf : Bytes.toNatBE (Bytes.ofNatBE 32 (order / 2)) = order / 2 := toNatBE_word (by decide)
  have hlow : Bytes.precedes (Bytes.ofNatBE 32 sig.s) (Bytes.ofNatBE 32 (order / 2)) = true ↔
      sig.s ≤ order / 2 := by
    rw [Bytes.precedes_iff_le (by simp), toNatBE_word sig.s_lt, hhalf]
  unfold lowWord Signature.lowS Signature.isHigh
  by_cases h : sig.s ≤ order / 2
  · rw [if_pos (hlow.mpr h), if_neg (by simpa using h), toNatBE_word sig.s_lt]
  · rw [if_neg (mt hlow.mp h), if_pos (by simpa using h), toNatBE_negated (by simp),
      toNatBE_word sig.s_lt]

theorem encodeWords_eq (sig : Signature) :
    encodeWords (Bytes.ofNatBE 32 sig.r) (Bytes.ofNatBE 32 sig.s) = encode sig := by
  have hword (n : Nat) : (Bytes.ofNatBE 32 n).length = 32 := Bytes.length_ofNatBE 32 n
  have hlow := length_lowWord (hword sig.s)
  have hne {word : Bytes} (h : word.length = 32) : word ≠ [] := by
    rintro rfl
    cases h
  rw [encodeWords, signed_trimmed (hne (hword _)), signed_trimmed (hne hlow), toNatBE_lowWord,
    toNatBE_word sig.r_lt, encode]
  simp only [integer, List.length_append, List.length_cons, List.cons_append]
  congr 3

/-- The signature with the negative of `s`. -/
def opposite (sig : Signature) : Signature where
  r := sig.r
  s := order - sig.s
  r_lt := sig.r_lt
  s_lt := Nat.lt_of_le_of_lt (Nat.sub_le _ _) (by decide)

theorem lowS_opposite (h : 0 < sig.s) (hs : sig.s < order) : (opposite sig).lowS = sig.lowS := by
  have hodd := order_odd
  rw [lowS_eq hs, lowS_eq (show order - sig.s < order by omega)]
  change (if order - sig.s ≤ order / 2 then order - sig.s else order - (order - sig.s)) = _
  split <;> split <;> omega

theorem encode_opposite (h : 0 < sig.s) (hs : sig.s < order) : encode (opposite sig) = encode sig := by
  rw [encode, encode, lowS_opposite h hs]
  rfl

theorem verify_opposite (h : 0 < sig.s) (hs : sig.s < order) (key : PublicKey secp256k1)
    (digest : FixedBytes 32) : Ecdsa.verify key digest (opposite sig) = Ecdsa.verify key digest sig := by
  rw [Ecdsa.verify, Ecdsa.verify, lowS_opposite h hs]
  rfl

/-- What is written for a signature below the order is strict and short with a low `s`. It is what
the words of 32 bytes give, the low `s` being taken from the order byte by byte, and reads back as the
signature with its low `s`. A signature and its opposite are written and verify alike. -/
theorem encode_reread (sig : Signature) (hr : sig.r < order) (hs : sig.s < order) :
    isStrict (encode sig) = true ∧ (encode sig).length ≤ 71 ∧ hasLowS (encode sig) = true ∧
      encodeWords (Bytes.ofNatBE 32 sig.r) (Bytes.ofNatBE 32 sig.s) = encode sig ∧
      Bytes.toNatBE (lowWord (Bytes.ofNatBE 32 sig.s)) = sig.lowS ∧
      (∃ back, readLax (encode sig) = .ok back ∧ back.r = sig.r ∧
        back.s = if sig.s ≤ order / 2 then sig.s else order - sig.s) ∧
      (0 < sig.s → encode (opposite sig) = encode sig ∧
        ∀ (key : PublicKey secp256k1) (digest : FixedBytes 32),
          Ecdsa.verify key digest (opposite sig) = Ecdsa.verify key digest sig) := by
  obtain ⟨hstrict, hlength⟩ := strict_encode hr hs
  have hlow := lowS_le hs
  have hback := ofIntegers_below (m := sig.r) (n := sig.lowS) ⟨hr, Nat.lt_of_le_of_lt hlow (by decide)⟩
  refine ⟨isStrict_iff.mpr ⟨_, _, hstrict⟩, hlength, ?_, encodeWords_eq sig, toNatBE_lowWord sig, ?_, ?_⟩
  · rw [hstrict.hasLowS_eq, toNatBE_integerBody]
    exact decide_eq_true hlow
  · refine ⟨_, hstrict.readLax_eq, ?_⟩
    rw [toNatBE_integerBody, toNatBE_integerBody, ← lowS_eq hs]
    exact hback
  · intro hpos
    exact ⟨encode_opposite hpos hs, verify_opposite hpos hs⟩

/-- Two numbers with a set top bit, the second as its negative. -/
theorem encode_reread_padded :
    let sig : Signature := ⟨0x80, order - 0x80, by decide, by decide⟩
    let written : Bytes := [0x30, 0x08, 0x02, 0x02, 0x00, 0x80, 0x02, 0x02, 0x00, 0x80]
    sig.r < order ∧ sig.s < order ∧ encode sig = written ∧ isStrict written = true ∧
      (∃ back, readLax written = .ok back ∧ back.r = 0x80 ∧ back.s = 0x80) ∧
      encode (opposite sig) = written := by
  intro sig written
  have hr : sig.r < order := by decide
  have hs : sig.s < order := by decide
  have hlow : sig.lowS = 0x80 := by decide
  have hminimal : Minimal [0x00, 0x80] := minimal_cons.mpr (by decide)
  have hbody : integerBody 0x80 = [0x00, 0x80] := (minimal_iff.mp hminimal).symm
  have hwritten : encode sig = written := by
    rw [encode, integer, integer, hlow, hbody]
    rfl
  obtain ⟨hstrict, -, -, -, -, ⟨back, hread, hbackr, hbacks⟩, hopposite⟩ := encode_reread sig hr hs
  rw [← lowS_eq hs, hlow] at hbacks
  rw [hwritten] at hstrict hread hopposite
  exact ⟨hr, hs, hwritten, hstrict, ⟨back, hread, hbackr, hbacks⟩, (hopposite (by decide)).1⟩

end CoinScript.Der
