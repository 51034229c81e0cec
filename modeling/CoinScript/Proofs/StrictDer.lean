import CoinScript.Proofs.SignatureEncoding

namespace CoinScript.Der

open Ecdsa (Signature order)

/-- The digits of a number that is not negative, greatest first and none to spare. -/
structure Minimal (body : Bytes) : Prop where
  nonempty : body ≠ []
  nonnegative : ∀ top ∈ body.head?, top < 0x80
  tight : ∀ next rest, body = 0 :: next :: rest → 0x80 ≤ next

/-- An integer: its tag, the length of its digits, and these. -/
def tagged (body : Bytes) : Bytes := 0x02 :: UInt8.ofNat body.length :: body

/-- A sequence of two integers, with the length of what follows its second byte. -/
structure Strict (bs r s : Bytes) : Prop where
  bytes_eq : bs = 0x30 :: UInt8.ofNat (bs.length - 2) :: (tagged r ++ tagged s)
  short : bs.length ≤ 72
  first : Minimal r
  second : Minimal s

variable {bs body rest r s : Bytes} {n : UInt8}

theorem isStrictBody_iff : isStrictBody body = true ↔ Minimal body := by
  constructor
  · intro h
    match body with
    | [] => cases h
    | [b] =>
      have hb : b < 0x80 := by simpa [isStrictBody] using h
      exact ⟨List.cons_ne_nil _ _, by simpa using hb, by simp⟩
    | b :: c :: rest =>
      have hb : b < 0x80 ∧ (b ≠ 0 ∨ 0x80 ≤ c) := by simpa [isStrictBody] using h
      refine ⟨List.cons_ne_nil _ _, by simpa using hb.1, ?_⟩
      intro next rest' he
      cases he
      exact hb.2.resolve_left fun h0 => h0 rfl
  · intro h
    match body with
    | [] => exact absurd rfl h.nonempty
    | [b] => simpa [isStrictBody] using h.nonnegative b rfl
    | b :: c :: rest =>
      have hb : b < 0x80 := h.nonnegative b rfl
      have hc : b ≠ 0 ∨ 0x80 ≤ c := by
        by_cases h0 : b = 0
        · subst h0
          exact .inr (h.tight c rest rfl)
        · exact .inl h0
      simpa [isStrictBody] using And.intro hb hc

theorem tagged_append (body rest : Bytes) :
    tagged body ++ rest = 0x02 :: UInt8.ofNat body.length :: (body ++ rest) := rfl

theorem length_tagged (body : Bytes) : (tagged body).length = body.length + 2 := rfl

/-- A length that a byte says is the number of this byte. -/
theorem eq_ofNat_length (body : Bytes) (h : body.length = n.toNat) : n = UInt8.ofNat body.length := by
  rw [h, UInt8.ofNat_toNat]

theorem toNat_ofNat_length (body : Bytes) (h : body.length < 256) :
    (UInt8.ofNat body.length).toNat = body.length :=
  UInt8.toNat_ofNat_of_lt' h

theorem strictInteger?_eq_some :
    strictInteger? bs = some (body, rest) ↔
      bs = tagged body ++ rest ∧ body.length < 256 ∧ Minimal body := by
  constructor
  · intro h
    unfold strictInteger? at h
    split at h
    · next n found =>
      obtain ⟨hs, hb⟩ := Option.filter_eq_some_iff.mp h
      obtain ⟨hn, rfl⟩ := Bytes.split?_eq_some.mp hs
      refine ⟨?_, ?_, isStrictBody_iff.mp hb⟩
      · rw [tagged_append, ← eq_ofNat_length _ hn]
      · rw [hn]
        exact n.toNat_lt
    · cases h
  · intro h
    obtain ⟨rfl, hl, hb⟩ := h
    have hs : Bytes.split? (UInt8.ofNat body.length).toNat (body ++ rest) = some (body, rest) := by
      rw [toNat_ofNat_length _ hl]
      exact Bytes.split?_append body rest
    rw [tagged_append, strictInteger?, hs]
    exact Option.filter_eq_some_iff.mpr ⟨rfl, isStrictBody_iff.mpr hb⟩

namespace Strict

theorem length_eq (h : Strict bs r s) : bs.length = (tagged r ++ tagged s).length + 2 := by
  have hlength := congrArg List.length h.bytes_eq
  rwa [List.length_cons, List.length_cons] at hlength

/-- What stands before the digits takes six bytes. -/
theorem length_digits (h : Strict bs r s) : r.length + s.length + 6 = bs.length := by
  rw [h.length_eq, List.length_append, length_tagged, length_tagged]
  omega

/-- The length that is written is the one of the two integers. -/
theorem eq_cons (h : Strict bs r s) :
    bs = 0x30 :: UInt8.ofNat (tagged r ++ tagged s).length :: (tagged r ++ tagged s) := by
  have hbytes := h.bytes_eq
  rwa [h.length_eq, Nat.add_sub_cancel] at hbytes

end Strict

theorem strict?_eq_some : strict? bs = some (r, s) ↔ Strict bs r s := by
  constructor
  · intro h
    unfold strict? at h
    split at h
    · next n rest =>
      split at h
      · next hlength =>
        obtain ⟨⟨first, rest'⟩, hfirst, h⟩ := Option.bind_eq_some_iff.mp h
        obtain ⟨⟨second, rest''⟩, hsecond, h⟩ := Option.bind_eq_some_iff.mp h
        dsimp only at hsecond h
        split at h
        · next hend =>
          cases h
          subst hend
          obtain ⟨rfl, -, hr⟩ := strictInteger?_eq_some.mp hfirst
          obtain ⟨rfl, -, hs⟩ := strictInteger?_eq_some.mp hsecond
          rw [List.append_nil] at hlength ⊢
          refine ⟨?_, hlength.1, hr, hs⟩
          rw [eq_ofNat_length _ hlength.2.symm]
          rfl
        · cases h
      · cases h
    · cases h
  · intro h
    have hdigits := h.length_digits
    have hshort := h.short
    have hfirst : strictInteger? (tagged r ++ tagged s) = some (r, tagged s) :=
      strictInteger?_eq_some.mpr ⟨rfl, by omega, h.first⟩
    have hsecond : strictInteger? (tagged s) = some (s, []) :=
      strictInteger?_eq_some.mpr ⟨(List.append_nil _).symm, by omega, h.second⟩
    have hn : (UInt8.ofNat (tagged r ++ tagged s).length).toNat = (tagged r ++ tagged s).length :=
      toNat_ofNat_length _ (by have := h.length_eq; omega)
    rw [h.eq_cons] at hshort ⊢
    rw [strict?, if_pos ⟨hshort, hn⟩, hfirst, Option.bind_some]
    dsimp only
    rw [hsecond]
    rfl

theorem isStrict_iff : isStrict bs = true ↔ ∃ r s, Strict bs r s := by
  simp only [isStrict, Option.isSome_iff_exists, Prod.exists, strict?_eq_some]

/-- An integer whose length takes one byte is read with its digits, whatever they are. -/
theorem laxInteger?_tagged (hl : body.length < 128) (rest : Bytes) :
    laxInteger? (tagged body ++ rest) = some (body, rest) := by
  have hn := toNat_ofNat_length body (Nat.lt_trans hl (by decide))
  have hlt : UInt8.ofNat body.length < 0x80 := by
    rw [UInt8.lt_iff_toNat_lt, hn]
    exact hl
  rw [tagged_append, laxInteger?, if_pos hlt, hn]
  exact Bytes.split?_append body rest

theorem Strict.readLax_eq (h : Strict bs r s) :
    readLax bs = .ok (ofIntegers (Bytes.toNatBE r) (Bytes.toNatBE s)) := by
  have hdigits := h.length_digits
  have hshort := h.short
  have hlength := h.length_eq
  have hlt : UInt8.ofNat (tagged r ++ tagged s).length < 0x80 := by
    rw [UInt8.lt_iff_toNat_lt, toNat_ofNat_length _ (by omega)]
    change _ < 128
    omega
  have hsequence : laxSequence bs = .ok (tagged r ++ tagged s) := by
    rw [h.eq_cons, laxSequence]
    exact if_pos hlt
  have hsecond : laxInteger? (tagged s) = some (s, []) := by
    have hs : laxInteger? (tagged s ++ []) = some (s, []) := laxInteger?_tagged (by omega) []
    rwa [List.append_nil] at hs
  rw [readLax, hsequence]
  dsimp only [bind, Except.bind]
  rw [laxInteger?_tagged (by omega)]
  dsimp only
  rw [hsecond]
  rfl

theorem ofIntegers_below {m n : Nat} (h : m < order ∧ n < order) :
    (ofIntegers m n).r = m ∧ (ofIntegers m n).s = n := by
  rw [ofIntegers, dif_pos h]
  exact ⟨rfl, rfl⟩

theorem ofIntegers_beyond {m n : Nat} (h : ¬ (m < order ∧ n < order)) :
    (ofIntegers m n).r = 0 ∧ (ofIntegers m n).s = 0 := by
  rw [ofIntegers, dif_neg h]
  exact ⟨rfl, rfl⟩

/-- Whether the digits from a place on begin with a zero that could be left out. A second digit is
looked at only if there is one and the first is zero. -/
def paddedAt? (bs : Bytes) (start length : Nat) (top : UInt8) : Option Bool :=
  if 1 < length && top == 0 then bs[start + 1]?.map (· < 0x80) else some false

/-- The strict form as rules about places of a byte string, one after the other. It is `none` to look
at a place that is not there. -/
def strictByPlaces? (bs : Bytes) : Option Bool := do
  if bs.length < 8 || 72 < bs.length then return false
  if (← bs[0]?) != 0x30 then return false
  if (← bs[1]?).toNat != bs.length - 2 then return false
  let lengthR := (← bs[3]?).toNat
  if (← bs[2]?) != 0x02 || lengthR == 0 then return false
  let topR ← bs[4]?
  if 0x80 ≤ topR || bs.length - 7 < lengthR then return false
  if ← paddedAt? bs 4 lengthR topR then return false
  let startS := lengthR + 4
  if (← bs[startS]?) != 0x02 then return false
  let lengthS := (← bs[startS + 1]?).toNat
  if lengthS == 0 || startS + lengthS + 2 != bs.length then return false
  let topS ← bs[startS + 2]?
  if (0x80 ≤ topS : Bool) then return false
  return !(← paddedAt? bs (startS + 2) lengthS topS)

/-- Digits that begin with a zero which could be left out. -/
def isPadded : Bytes → Bool
  | 0 :: next :: _ => next < 0x80
  | _ => false

theorem minimal_cons {top : UInt8} {more : Bytes} :
    Minimal (top :: more) ↔ top < 0x80 ∧ isPadded (top :: more) = false := by
  constructor
  · intro h
    refine ⟨h.nonnegative top rfl, ?_⟩
    unfold isPadded
    split
    · next next rest he => exact decide_eq_false (UInt8.not_lt.mpr (h.tight next rest he))
    · rfl
  · intro h
    refine ⟨List.cons_ne_nil _ _, by simpa using h.1, ?_⟩
    intro next rest he
    have hpadded := h.2
    rw [he] at hpadded
    exact UInt8.not_lt.mp (of_decide_eq_false hpadded)

theorem paddedAt?_eq {start length : Nat} {top : UInt8} {more tail : Bytes}
    (h : bs.drop start = top :: (more ++ tail)) (hl : length = more.length + 1) :
    paddedAt? bs start length top = some (isPadded (top :: more)) := by
  have hnext : bs[start + 1]? = (more ++ tail)[0]? := by
    rw [← List.getElem?_drop, h, List.getElem?_cons_succ]
  subst hl
  unfold paddedAt?
  rw [hnext]
  cases more with
  | nil => simp [isPadded]
  | cons next more =>
    by_cases h0 : top = 0
    · subst h0
      simp [isPadded]
    · simp [isPadded, h0]

/-- Bytes that go on for three places after a number of digits. -/
theorem exists_pieces {rest : Bytes} {length : Nat} (h0 : length ≠ 0) (hl : length + 3 ≤ rest.length) :
    ∃ top more tag n topS tail, rest = top :: (more ++ tag :: n :: topS :: tail) ∧
      length = more.length + 1 := by
  have hsplit := (List.take_append_drop length rest).symm
  have hfront : (rest.take length).length = length := by
    rw [List.length_take]
    omega
  have hback : (rest.drop length).length = rest.length - length := List.length_drop
  match hf : rest.take length, hb : rest.drop length with
  | top :: more, tag :: n :: topS :: tail =>
    rw [hf] at hfront
    rw [hf, hb] at hsplit
    exact ⟨top, more, tag, n, topS, tail, hsplit, hfront.symm⟩
  | [], _ =>
    rw [hf] at hfront
    exact absurd hfront.symm h0
  | _ :: _, [] | _ :: _, [_] | _ :: _, [_, _] =>
    rw [hb] at hback
    simp only [List.length_cons, List.length_nil] at hback
    omega

/-- A rule that is broken decides; otherwise the following ones do. -/
theorem rule_eq {broken holds : Bool} {following : Option Bool}
    (h : broken = false → following = some holds) :
    (if broken then some false else following) = some (!broken && holds) := by
  cases broken with
  | true => rfl
  | false => exact h rfl

/-- Bytes laid out with a first integer and the beginning of a second one: what remains are the rules
on each byte and on the digits. -/
theorem strictByPlaces?_pieces {b0 b1 b2 b3 top tag n topS : UInt8} {more tail : Bytes}
    (hbs : bs = b0 :: b1 :: b2 :: b3 :: top :: (more ++ tag :: n :: topS :: tail))
    (hlength : b3.toNat = more.length + 1) (hshort : bs.length ≤ 72) :
    strictByPlaces? bs =
      some (!(b0 != 0x30) && (!(b1.toNat != bs.length - 2) && (!(b2 != 0x02) && (!(0x80 ≤ top : Bool) &&
        (!isPadded (top :: more) && (!(tag != 0x02) && (!(n.toNat != tail.length + 1) &&
        (!(0x80 ≤ topS : Bool) && !isPadded (topS :: tail))))))))) := by
  have hsize : bs.length = more.length + tail.length + 8 := by
    subst hbs
    simp only [List.length_cons, List.length_append]
    omega
  have hfirst : bs.drop 4 = top :: (more ++ tag :: n :: topS :: tail) := by
    rw [hbs]
    rfl
  have hsecond : bs.drop (b3.toNat + 4 + 2) = topS :: (tail ++ []) := by
    rw [hbs, hlength]
    simp
  have hR : paddedAt? bs 4 b3.toNat top = some (isPadded (top :: more)) := paddedAt?_eq hfirst hlength
  have hS (hn : n.toNat = tail.length + 1) :
      paddedAt? bs (b3.toNat + 4 + 2) n.toNat topS = some (isPadded (topS :: tail)) :=
    paddedAt?_eq hsecond hn
  have htag : bs[b3.toNat + 4]? = some tag := by
    rw [hbs, hlength]
    simp
  have hn : bs[b3.toNat + 4 + 1]? = some n := by
    rw [hbs, hlength]
    simp
  have htopS : bs[b3.toNat + 4 + 2]? = some topS := by
    rw [hbs, hlength]
    simp
  have h0 : bs[0]? = some b0 := by rw [hbs]; rfl
  have h1 : bs[1]? = some b1 := by rw [hbs]; rfl
  have h2 : bs[2]? = some b2 := by rw [hbs]; rfl
  have h3 : bs[3]? = some b3 := by rw [hbs]; rfl
  have h4 : bs[4]? = some top := by rw [hbs]; rfl
  have hlong : (decide (bs.length < 8) || decide (72 < bs.length)) = false := by
    simp only [Bool.or_eq_false_iff, decide_eq_false_iff_not]
    omega
  have hfits : decide (bs.length - 7 < b3.toNat) = false := by
    simp only [decide_eq_false_iff_not]
    omega
  have hcount : (n.toNat == 0 || b3.toNat + 4 + n.toNat + 2 != bs.length) =
      (n.toNat != tail.length + 1) := by
    rw [Bool.eq_iff_iff]
    simp only [Bool.or_eq_true, beq_iff_eq, bne_iff_ne]
    omega
  have hnonempty : (b3.toNat == 0) = false := by
    rw [beq_eq_false_iff_ne]
    omega
  simp only [strictByPlaces?, h0, h1, h2, h3, h4, htag, hn, htopS, hR, hlong, hfits, hcount, hnonempty,
    Option.bind_eq_bind, Option.bind_some, Option.pure_def, Bool.or_false, Bool.false_eq_true, if_false]
  refine rule_eq fun _ => rule_eq fun _ => rule_eq fun _ => rule_eq fun _ => rule_eq fun _ =>
    rule_eq fun _ => rule_eq fun hrest => rule_eq fun _ => ?_
  rw [hS (by simpa using hrest)]
  rfl

theorem Strict.byPlaces (h : Strict bs r s) : strictByPlaces? bs = some true := by
  have hdigits := h.length_digits
  have hshort := h.short
  match hr : r, hs : s with
  | top :: more, topS :: tail =>
    have hR := minimal_cons.mp h.first
    have hS := minimal_cons.mp h.second
    rw [List.length_cons, List.length_cons] at hdigits
    have hbs : bs = 0x30 :: UInt8.ofNat (bs.length - 2) :: 0x02 :: UInt8.ofNat (more.length + 1) ::
        top :: (more ++ 0x02 :: UInt8.ofNat (tail.length + 1) :: topS :: tail) := h.bytes_eq
    have hlengthR : (UInt8.ofNat (more.length + 1)).toNat = more.length + 1 :=
      toNat_ofNat_length (top :: more) (by simp only [List.length_cons]; omega)
    have hlengthS : (UInt8.ofNat (tail.length + 1)).toNat = tail.length + 1 :=
      toNat_ofNat_length (topS :: tail) (by simp only [List.length_cons]; omega)
    have hlength : (UInt8.ofNat (bs.length - 2)).toNat = bs.length - 2 :=
      UInt8.toNat_ofNat_of_lt' (show bs.length - 2 < 256 by omega)
    rw [strictByPlaces?_pieces hbs hlengthR hshort, hlength, hlengthS, hR.2, hS.2,
      decide_eq_false (UInt8.not_le.mpr hR.1), decide_eq_false (UInt8.not_le.mpr hS.1)]
    simp
  | [], _ => exact absurd rfl h.first.nonempty
  | _ :: _, [] => exact absurd rfl h.second.nonempty

/-- No place is looked at that is not there, and what passes has the strict form. Once the first
length is known to be good, the places behind it are, too. -/
theorem strictByPlaces?_sound (bs : Bytes) :
    ∃ verdict, strictByPlaces? bs = some verdict ∧ (verdict = true → ∃ r s, Strict bs r s) := by
  by_cases hsize : 8 ≤ bs.length ∧ bs.length ≤ 72
  · match hbs : bs with
    | b0 :: b1 :: b2 :: b3 :: b4 :: rest =>
      by_cases hlength : b3.toNat ≠ 0 ∧ b3.toNat + 7 ≤ bs.length
      · have hfits : b3.toNat + 3 ≤ (b4 :: rest).length := by
          subst hbs
          simp only [List.length_cons] at hlength ⊢
          omega
        obtain ⟨top, more, tag, n, topS, tail, hrest, hmore⟩ := exists_pieces hlength.1 hfits
        rw [hrest]
        refine ⟨_, strictByPlaces?_pieces rfl hmore (hrest ▸ hsize.2), ?_⟩
        simp only [Bool.and_eq_true, Bool.not_eq_true', bne_eq_false_iff_eq, decide_eq_false_iff_not]
        intro hrules
        obtain ⟨h0, h1, h2, htop, hR, htag, hn, htopS, hS⟩ := hrules
        refine ⟨top :: more, topS :: tail, ?_, hrest ▸ hsize.2,
          minimal_cons.mpr ⟨UInt8.not_le.mp htop, hR⟩, minimal_cons.mpr ⟨UInt8.not_le.mp htopS, hS⟩⟩
        rw [← h1, UInt8.ofNat_toNat, h0, h2, htag, eq_ofNat_length (top :: more) hmore.symm,
          eq_ofNat_length (topS :: tail) hn.symm]
        rfl
      · refine ⟨false, ?_, nofun⟩
        simp only [strictByPlaces?, List.getElem?_cons_zero, List.getElem?_cons_succ,
          Option.bind_eq_bind, Option.bind_some, Option.pure_def]
        refine ite_eq_left_iff.mpr fun _ => ite_eq_left_iff.mpr fun _ => ite_eq_left_iff.mpr fun _ =>
          ite_eq_left_iff.mpr fun hr => ite_eq_left_iff.mpr fun hfits => absurd ?_ hlength
        simp only [Bool.or_eq_true, not_or, beq_iff_eq, decide_eq_true_iff] at hr hfits
        subst hbs
        omega
    | [] | [_] | [_, _] | [_, _, _] | [_, _, _, _] => exact absurd hsize.1 (by simp)
  · refine ⟨false, if_pos ?_, nofun⟩
    simp only [Bool.or_eq_true, decide_eq_true_iff]
    omega

theorem strictByPlaces?_eq (bs : Bytes) : strictByPlaces? bs = some (isStrict bs) := by
  obtain ⟨verdict, hplaces, hsound⟩ := strictByPlaces?_sound bs
  cases hstrict : isStrict bs with
  | true =>
    obtain ⟨r, s, h⟩ := isStrict_iff.mp hstrict
    exact h.byPlaces
  | false =>
    cases verdict with
    | false => exact hplaces
    | true => exact absurd (isStrict_iff.mpr (hsound rfl)) (by rw [hstrict]; decide)

/-- Whether the second integer is low, by places of a string that has the strict form. It is `none`
to look at a place that is not there. -/
def lowSByPlaces? (bs : Bytes) : Option Bool := do
  let startS := (← bs[3]?).toNat + 4
  let lengthS := (← bs[startS + 1]?).toNat
  let (digits, _) ← Bytes.split? lengthS (bs.drop (startS + 2))
  return Bytes.toNatBE digits ≤ order / 2

namespace Strict

theorem hasLowS_eq (h : Strict bs r s) : hasLowS bs = decide (Bytes.toNatBE s ≤ order / 2) := by
  rw [hasLowS, strict?_eq_some.mpr h]

theorem lowSByPlaces?_eq (h : Strict bs r s) : lowSByPlaces? bs = some (hasLowS bs) := by
  have hdigits := h.length_digits
  have hshort := h.short
  have hlengthR := toNat_ofNat_length r (by omega)
  have hlengthS := toNat_ofNat_length s (by omega)
  have h3 : bs[3]? = some (UInt8.ofNat r.length) := by
    rw [h.bytes_eq]
    rfl
  have hrest : bs.drop (r.length + 4) = tagged s := by
    rw [h.bytes_eq, tagged_append]
    simp
  have hn : bs[r.length + 4 + 1]? = some (UInt8.ofNat s.length) := by
    rw [← List.getElem?_drop, hrest]
    rfl
  have hdrop : bs.drop (r.length + 4 + 2) = s := by
    rw [← List.drop_drop, hrest]
    rfl
  have hsplit : Bytes.split? s.length s = some (s, []) := by
    have ha := Bytes.split?_append s []
    rwa [List.append_nil] at ha
  rw [h.hasLowS_eq]
  simp only [lowSByPlaces?, h3, hlengthR, hn, hlengthS, hdrop, hsplit, Option.bind_eq_bind,
    Option.bind_some, Option.pure_def]

/-- A data signature of strict form is refused for nothing but a high `s`. -/
theorem checkDataSignature_ok {F : Flags} (h : Strict bs r s) (hF : F.has .lowS = true)
    (hl : bs.length ≠ 64) :
    Encoding.checkDataSignature F bs = .ok () ↔ Bytes.toNatBE s ≤ order / 2 := by
  have hne : bs ≠ [] := by
    rw [h.bytes_eq]
    exact List.cons_ne_nil _ _
  have hstrict : isStrict bs = true := isStrict_iff.mpr ⟨r, s, h⟩
  have hlength : bs.length ≠ Schnorr.signatureLength := hl
  rw [Encoding.checkDataSignature, if_neg hne, if_neg hlength, Encoding.checkDer, hstrict, hF,
    h.hasLowS_eq]
  simp [except_bind_ok, Encoding.demand_ok]

end Strict

/-- The strict reader accepts what has the strict form and nothing else, and looks at no place that
is not there. In such a string the lax reader finds the numbers that the two integers spell, and the
rule on a low `s` judges the second of them. -/
theorem strict_form_read (bs : Bytes) :
    (isStrict bs = true ↔ ∃ r s, Strict bs r s) ∧ strictByPlaces? bs = some (isStrict bs) ∧
      ∀ r s, Strict bs r s →
        (∃ sig, readLax bs = .ok sig ∧
          (Bytes.toNatBE r < order ∧ Bytes.toNatBE s < order →
            sig.r = Bytes.toNatBE r ∧ sig.s = Bytes.toNatBE s) ∧
          (¬ (Bytes.toNatBE r < order ∧ Bytes.toNatBE s < order) → sig.r = 0 ∧ sig.s = 0)) ∧
        lowSByPlaces? bs = some (decide (Bytes.toNatBE s ≤ order / 2)) ∧
        ∀ F : Flags, F.has .lowS = true → bs.length ≠ 64 →
          (Encoding.checkDataSignature F bs = .ok () ↔ Bytes.toNatBE s ≤ order / 2) := by
  refine ⟨isStrict_iff, strictByPlaces?_eq bs, fun r s h => ⟨?_, ?_, ?_⟩⟩
  · exact ⟨_, h.readLax_eq, ofIntegers_below, ofIntegers_beyond⟩
  · rw [h.lowSByPlaces?_eq, h.hasLowS_eq]
  · intro F hF hl
    exact h.checkDataSignature_ok hF hl

end CoinScript.Der
