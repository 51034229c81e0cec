import CoinScript.Proofs.Numerals
import CoinScript.Proofs.Outcome
import CoinScript.Signature.Der

namespace CoinScript.Der

open Ecdsa (Signature order)

variable {bs front size digits rest after body more : Bytes} {n : Nat}

/-- A number less another one, which is not greater. -/
def less? (a b : Nat) : Option Nat := if b ≤ a then some (a - b) else none

/-- A length that a word of 64 bits holds. -/
def word? (length : Nat) : Option Nat := if length < 2 ^ 64 then some length else none

/-- Goes over zeros, at most `n` of them, and tells how many of the `n` bytes are left. -/
def skipZeros? (bs : Bytes) : (pos n : Nat) → Option (Nat × Nat)
  | pos, 0 => some (pos, 0)
  | pos, n + 1 => do
    if (← bs[pos]?) == 0 then skipZeros? bs (pos + 1) n else return (pos, n + 1)

/-- Adds the next `n` bytes as digits to a length. -/
def gather? (bs : Bytes) : (length pos n : Nat) → Option (Nat × Nat)
  | length, pos, 0 => some (length, pos)
  | length, pos, n + 1 => do
    gather? bs (← word? (256 * length + (← bs[pos]?).toNat)) (pos + 1) n

/-- The length that `n` bytes from a place on spell, and the place behind them. -/
def longLength? (bs : Bytes) (pos n : Nat) : Option (Option (Nat × Nat)) := do
  if (← less? bs.length pos) < n then return none
  let (pos, n) ← skipZeros? bs pos n
  if 8 ≤ n then return none
  return some (← gather? bs 0 pos n)

/-- A body of a length, if that many bytes are left. -/
def bodyAt? (bs : Bytes) (start length : Nat) : Option (Option (Nat × Nat)) := do
  if (← less? bs.length start) < length then return none
  return some (start, length)

/-- Where the body of the integer at a place starts, and its length. -/
def integerByPlaces? (bs : Bytes) (pos : Nat) : Option (Option (Nat × Nat)) := do
  if bs[pos]? ≠ some 0x02 then return none
  match bs[pos + 1]? with
  | none => return none
  | some n =>
    if n < 0x80 then bodyAt? bs (pos + 2) n.toNat
    else
      match ← longLength? bs (pos + 2) (n.toNat - 0x80) with
      | none => return none
      | some (length, start) => bodyAt? bs start length

/-- Where the first integer of a sequence is looked for. -/
def sequenceByPlaces? (bs : Bytes) : Option (Except SignatureFault Nat) := do
  if bs[0]? ≠ some 0x30 then return .error .noSequence
  match bs[1]? with
  | none => return .error .truncated
  | some n =>
    if n < 0x80 then return .ok 2
    if (← less? bs.length 2) < n.toNat - 0x80 then return .error .sequenceOverruns
    return .ok (2 + (n.toNat - 0x80))

/-- The word of 32 bytes that the digits fit in, if they do. -/
def wordOf? (digits : Bytes) : Option (Option (FixedBytes 32)) := do
  let digits := digits.dropWhile (· == 0)
  if 32 < digits.length then return none
  return some (← FixedBytes.ofBytes? (List.replicate (← less? 32 digits.length) 0 ++ digits))

/-- Whether a word comes before the one of the order. -/
def isBelowOrder (word : FixedBytes 32) : Bool := !Bytes.precedes (Bytes.ofNatBE 32 order) word.bytes

def ofWords : Option (FixedBytes 32) → Option (FixedBytes 32) → Signature
  | some r, some s => if isBelowOrder r && isBelowOrder s then .ofBytes r s else .null
  | _, _ => .null

/-- The lax reader place by place. It is `none` to look at a place that is not there, to subtract
from less, or to gather a length that a word does not hold. -/
def readLaxByPlaces? (bs : Bytes) : Option (Except SignatureFault Signature) := do
  match ← sequenceByPlaces? bs with
  | .error fault => return .error fault
  | .ok pos =>
    match ← integerByPlaces? bs pos with
    | none => return .error .badR
    | some (startR, lengthR) =>
      match ← integerByPlaces? bs (startR + lengthR) with
      | none => return .error .badS
      | some (startS, lengthS) =>
        let (r, _) ← Bytes.split? lengthR (bs.drop startR)
        let (s, _) ← Bytes.split? lengthS (bs.drop startS)
        return .ok (ofWords (← wordOf? r) (← wordOf? s))

theorem less?_append (front rest : Bytes) :
    less? (front ++ rest).length front.length = some rest.length := by
  rw [less?, List.length_append, if_pos (Nat.le_add_right _ _), Nat.add_sub_cancel_left]

theorem getElem?_front (front rest : Bytes) (b : UInt8) :
    (front ++ b :: rest)[front.length]? = some b := by
  rw [List.getElem?_append_right (Nat.le_refl _), Nat.sub_self]
  rfl

theorem skipZeros?_append (front size rest : Bytes) :
    skipZeros? (front ++ (size ++ rest)) front.length size.length =
      some ((front ++ size.takeWhile (· == 0)).length, (size.dropWhile (· == 0)).length) := by
  induction size generalizing front with
  | nil => simp [skipZeros?]
  | cons b size ih =>
    rw [List.length_cons, skipZeros?, List.cons_append, getElem?_front]
    by_cases hb : (b == 0) = true
    · have hrest := ih (front ++ [b])
      rw [List.append_assoc, List.singleton_append, List.length_append, List.length_singleton] at hrest
      simp only [Option.bind_eq_bind, Option.bind_some, hb, if_true, hrest,
        List.takeWhile_cons_of_pos, List.dropWhile_cons_of_pos, List.length_append,
        List.length_cons, Option.some.injEq, Prod.mk.injEq, and_true]
      exact Nat.add_right_comm _ _ _
    · rw [List.takeWhile_cons_of_neg (p := (· == 0)) hb, List.dropWhile_cons_of_neg (p := (· == 0)) hb,
        List.append_nil]
      simp only [Option.bind_eq_bind, Option.bind_some, if_neg hb]
      rfl

theorem gather?_append (front digits rest : Bytes) (length : Nat)
    (h : length * 256 ^ digits.length + Bytes.toNatBE digits < 2 ^ 64) :
    gather? (front ++ (digits ++ rest)) length front.length digits.length =
      some (length * 256 ^ digits.length + Bytes.toNatBE digits, (front ++ digits).length) := by
  induction digits generalizing front length with
  | nil => simp [gather?, Bytes.toNatBE, Bytes.toNatLE]
  | cons b digits ih =>
    have hvalue : length * 256 ^ (b :: digits).length + Bytes.toNatBE (b :: digits) =
        (256 * length + b.toNat) * 256 ^ digits.length + Bytes.toNatBE digits := by
      rw [Bytes.toNatBE_cons, List.length_cons, Nat.pow_succ', Nat.add_mul]
      rw [← Nat.mul_assoc, Nat.mul_comm length 256, Nat.add_assoc]
    rw [hvalue] at h ⊢
    have hpos : 1 ≤ 256 ^ digits.length := Nat.one_le_pow _ _ (by decide)
    have hword : 256 * length + b.toNat < 2 ^ 64 := by
      have hmul := Nat.le_mul_of_pos_right (256 * length + b.toNat) hpos
      omega
    have hrest := ih (front ++ [b]) (256 * length + b.toNat) h
    rw [List.append_assoc, List.singleton_append, List.length_append, List.length_singleton] at hrest
    rw [List.length_cons, gather?, List.cons_append, getElem?_front]
    simp only [Option.bind_eq_bind, Option.bind_some, word?, if_pos hword, hrest]
    rw [List.append_assoc, List.singleton_append]

/-- Seven digits do not outgrow a word. -/
theorem toNatBE_lt_word (h : digits.length < 8) : Bytes.toNatBE digits < 2 ^ 64 := by
  have hlt := Bytes.toNatBE_lt digits
  have hpow : 256 ^ digits.length ≤ 256 ^ 7 := Nat.pow_le_pow_right (by decide) (Nat.le_of_lt_succ h)
  exact Nat.lt_of_lt_of_le hlt (Nat.le_trans hpow (by decide))

theorem longLength?_append (front size rest : Bytes) :
    longLength? (front ++ (size ++ rest)) front.length size.length =
      some (if 8 ≤ (size.dropWhile (· == 0)).length then none
        else some (Bytes.toNatBE (size.dropWhile (· == 0)), (front ++ size).length)) := by
  have hroom : ¬ (size ++ rest).length < size.length := by simp
  have hsize := List.takeWhile_append_dropWhile (p := (· == (0 : UInt8))) (l := size)
  rw [longLength?, less?_append]
  simp only [Option.bind_eq_bind, Option.bind_some, if_neg hroom, skipZeros?_append]
  split
  · rfl
  · next hshort =>
    have hg := gather?_append (front ++ size.takeWhile (· == 0)) (size.dropWhile (· == 0)) rest 0
      (by simpa using toNatBE_lt_word (Nat.lt_of_not_le hshort))
    rw [Nat.zero_mul, Nat.zero_add, List.append_assoc, ← List.append_assoc (List.takeWhile _ _), hsize,
      List.append_assoc, hsize] at hg
    rw [hg]
    rfl

theorem longLength?_short (front : Bytes) (h : rest.length < n) :
    longLength? (front ++ rest) front.length n = some none := by
  rw [longLength?, less?_append]
  simp [h]

/-- What the walk finds where the reader finds a body, the walk having come over `front`. -/
inductive Finds (front rest : Bytes) : Option (Bytes × Bytes) → Option (Nat × Nat) → Prop
  | nothing : Finds front rest none none
  | found {before body after : Bytes} (h : rest = before ++ (body ++ after)) :
    Finds front rest (some (body, after)) (some ((front ++ before).length, body.length))

theorem bodyAt?_append (front before rest : Bytes) (length : Nat) :
    ∃ found, bodyAt? (front ++ (before ++ rest)) (front ++ before).length length = some found ∧
      Finds front (before ++ rest) (Bytes.split? length rest) found := by
  rw [bodyAt?, ← List.append_assoc, less?_append]
  cases hs : Bytes.split? length rest with
  | none =>
    have hshort : rest.length < length := Bytes.split?_eq_none.mp hs
    exact ⟨none, if_pos hshort, .nothing⟩
  | some cut =>
    obtain ⟨body, after⟩ := cut
    obtain ⟨hbody, rfl⟩ := Bytes.split?_eq_some.mp hs
    have hroom : ¬ (body ++ after).length < length := by
      rw [List.length_append]
      omega
    subst hbody
    exact ⟨_, if_neg hroom, .found rfl⟩

theorem integerByPlaces?_append (front rest : Bytes) :
    ∃ found, integerByPlaces? (front ++ rest) front.length = some found ∧
      Finds front rest (laxInteger? rest) found := by
  match rest with
  | [] => exact ⟨none, by simp [integerByPlaces?], .nothing⟩
  | [tag] =>
    have hnone : laxInteger? [tag] = none := by
      unfold laxInteger?
      split
      · next h => cases h
      · rfl
    rw [hnone]
    exact ⟨none, by simp [integerByPlaces?], .nothing⟩
  | tag :: n :: rest =>
    have hlength : front.length + 2 = (front ++ [tag, n]).length := by rw [List.length_append]; rfl
    have hn : (front ++ tag :: n :: rest)[front.length + 1]? = some n := by
      have hnext := getElem?_front (front ++ [tag]) rest n
      rwa [List.append_assoc, List.length_append] at hnext
    rw [integerByPlaces?, getElem?_front, hn, hlength]
    by_cases htag : tag = 0x02
    · subst htag
      rw [if_neg (not_not_intro rfl), laxInteger?]
      dsimp only
      by_cases hshort : n < 0x80
      · rw [if_pos hshort, if_pos hshort]
        exact bodyAt?_append front [0x02, n] rest n.toNat
      · rw [if_neg hshort, if_neg hshort]
        cases hs : Bytes.split? (n.toNat - 0x80) rest with
        | none =>
          have hwalk := longLength?_short (front ++ [0x02, n]) (Bytes.split?_eq_none.mp hs)
          rw [List.append_assoc] at hwalk
          exact ⟨none, congrArg (· >>= _) hwalk, .nothing⟩
        | some cut =>
          obtain ⟨size, behind⟩ := cut
          obtain ⟨hsize, rfl⟩ := Bytes.split?_eq_some.mp hs
          have hwalk := longLength?_append (front ++ [0x02, n]) size behind
          rw [hsize, List.append_assoc] at hwalk
          rw [Option.bind_some]
          dsimp only
          split
          · next hlong =>
            rw [if_pos hlong] at hwalk
            exact ⟨none, congrArg (· >>= _) hwalk, .nothing⟩
          · next hlong =>
            rw [if_neg hlong] at hwalk
            have hbody := bodyAt?_append front (0x02 :: n :: size) behind
              (Bytes.toNatBE (size.dropWhile (· == 0)))
            obtain ⟨found, hfound, hfinds⟩ := hbody
            refine ⟨found, (congrArg (· >>= _) hwalk).trans ?_, hfinds⟩
            simpa using hfound
    · have hnone : laxInteger? (tag :: n :: rest) = none := by
        unfold laxInteger?
        split
        · next h => exact absurd (List.cons.inj h).1 htag
        · rfl
      rw [hnone]
      exact ⟨none, if_pos fun h => htag (Option.some.inj h), .nothing⟩

theorem split?_more {n : Nat} (h : Bytes.split? n bs = some (body, rest)) (more : Bytes) :
    Bytes.split? n (bs ++ more) = some (body, rest ++ more) := by
  obtain ⟨hl, rfl⟩ := Bytes.split?_eq_some.mp h
  exact Bytes.split?_eq_some.mpr ⟨hl, List.append_assoc _ _ _⟩

theorem laxInteger?_more (h : laxInteger? bs = some (body, rest)) (more : Bytes) :
    laxInteger? (bs ++ more) = some (body, rest ++ more) := by
  unfold laxInteger? at h
  split at h
  · next n found =>
    rw [List.cons_append, List.cons_append, laxInteger?]
    by_cases hshort : n < 0x80
    · rw [if_pos hshort] at h ⊢
      exact split?_more h more
    · rw [if_neg hshort] at h ⊢
      obtain ⟨⟨size, behind⟩, hsize, h⟩ := Option.bind_eq_some_iff.mp h
      rw [split?_more hsize more, Option.bind_some]
      dsimp only at h ⊢
      split at h
      · cases h
      · next hlong =>
        rw [if_neg hlong]
        exact split?_more h more
  · cases h

theorem laxSequence_more (h : laxSequence bs = .ok rest) (more : Bytes) :
    laxSequence (bs ++ more) = .ok (rest ++ more) := by
  unfold laxSequence at h
  split at h
  · next found =>
    split at h
    · cases h
    · next n behind =>
      rw [List.cons_append, List.cons_append, laxSequence]
      by_cases hshort : n < 0x80
      · rw [if_pos hshort] at h ⊢
        cases h
        rfl
      · rw [if_neg hshort] at h ⊢
        split at h
        · next skipped behind' hskip =>
          cases h
          rw [split?_more hskip more]
        · cases h
  · cases h

theorem readLax_more {sig : Signature} (h : readLax bs = .ok sig) (more : Bytes) :
    readLax (bs ++ more) = .ok sig := by
  obtain ⟨rest, hsequence, h⟩ := except_bind_ok.mp h
  rw [readLax, laxSequence_more hsequence more]
  dsimp only [bind, Except.bind]
  split at h
  · cases h
  · next r behind hr =>
    rw [laxInteger?_more hr more]
    dsimp only
    split at h
    · cases h
    · next s after hs =>
      rw [laxInteger?_more hs more]
      exact h

/-- Digits that are more than 32 without leading zeros spell a number that no word holds. -/
theorem le_toNatBE_of_long (h : 32 < (digits.dropWhile (· == 0)).length) :
    2 ^ 256 ≤ Bytes.toNatBE digits := by
  rw [← Bytes.toNatBE_dropZeros digits]
  match hd : digits.dropWhile (· == 0) with
  | [] =>
    rw [hd] at h
    cases h
  | top :: more =>
    have htop : 1 ≤ top.toNat := by
      have hkept := Bytes.head?_dropZeros digits
      rw [hd] at hkept
      exact Nat.one_le_iff_ne_zero.mpr fun h0 => hkept (congrArg some (UInt8.toNat_inj.mp h0))
    have hpow : 256 ^ 32 ≤ 256 ^ more.length := by
      rw [hd] at h
      exact Nat.pow_le_pow_right (by decide) (Nat.le_of_lt_succ h)
    have hmul := Nat.mul_le_mul_right (256 ^ more.length) htop
    rw [Bytes.toNatBE_cons]
    change 256 ^ 32 ≤ _
    omega

/-- The walk finds the word of a number, unless there is none. -/
theorem wordOf?_eq (digits : Bytes) :
    ∃ found, wordOf? digits = some found ∧
      (∀ word, found = some word → word.toNatBE = Bytes.toNatBE digits) ∧
      (found = none → 2 ^ 256 ≤ Bytes.toNatBE digits) := by
  by_cases hlong : 32 < (digits.dropWhile (· == 0)).length
  · exact ⟨none, if_pos hlong, nofun, fun _ => le_toNatBE_of_long hlong⟩
  · have hle : (digits.dropWhile (· == 0)).length ≤ 32 := Nat.le_of_not_lt hlong
    have hlength : (List.replicate (32 - (digits.dropWhile (· == 0)).length) 0 ++
        digits.dropWhile (· == 0)).length = 32 := by
      rw [List.length_append, List.length_replicate]
      omega
    refine ⟨some ⟨_, hlength⟩, ?_, ?_, nofun⟩
    · simp [wordOf?, hlong, less?, hle, FixedBytes.ofBytes?]
    · intro word hword
      cases hword
      rw [FixedBytes.toNatBE, Bytes.toNatBE_zeros, Bytes.toNatBE_dropZeros]

theorem isBelowOrder_iff (word : FixedBytes 32) : isBelowOrder word = true ↔ word.toNatBE < order := by
  have horder : Bytes.toNatBE (Bytes.ofNatBE 32 order) = order := by
    rw [Bytes.toNatBE_ofNatBE]
    exact Nat.mod_eq_of_lt (by decide)
  have hlength : (Bytes.ofNatBE 32 order).length = word.bytes.length := by simp
  have hle := Bytes.precedes_iff_le hlength
  rw [horder] at hle
  rw [isBelowOrder, Bool.not_eq_true', ← Bool.not_eq_true, hle]
  exact Nat.not_le

/-- The words below the order are the numbers of a signature, and all else gives the one that never
verifies. -/
theorem ofWords_eq {r s : Bytes} {foundR foundS : Option (FixedBytes 32)}
    (hr : wordOf? r = some foundR) (hs : wordOf? s = some foundS) :
    ofWords foundR foundS = ofIntegers (Bytes.toNatBE r) (Bytes.toNatBE s) := by
  have horder : order < 2 ^ 256 := by decide
  obtain ⟨_, hfound, hvalueR, hgreatR⟩ := wordOf?_eq r
  cases hr.symm.trans hfound
  obtain ⟨_, hfound, hvalueS, hgreatS⟩ := wordOf?_eq s
  cases hs.symm.trans hfound
  match foundR, foundS with
  | none, _ =>
    have hbeyond : ¬ (Bytes.toNatBE r < order ∧ Bytes.toNatBE s < order) := by
      have hle := hgreatR rfl
      omega
    rw [ofIntegers, dif_neg hbeyond]
    rfl
  | some _, none =>
    have hbeyond : ¬ (Bytes.toNatBE r < order ∧ Bytes.toNatBE s < order) := by
      have hle := hgreatS rfl
      omega
    rw [ofIntegers, dif_neg hbeyond]
    rfl
  | some wordR, some wordS =>
    rw [← hvalueR wordR rfl, ← hvalueS wordS rfl, ofWords, ofIntegers]
    by_cases hbelow : wordR.toNatBE < order ∧ wordS.toNatBE < order
    · have hwords := Bool.and_eq_true_iff.mpr
        ⟨(isBelowOrder_iff wordR).mpr hbelow.1, (isBelowOrder_iff wordS).mpr hbelow.2⟩
      rw [if_pos hwords, dif_pos hbelow]
      rfl
    · have hwords : ¬ (isBelowOrder wordR && isBelowOrder wordS) = true := by
        rwa [Bool.and_eq_true, isBelowOrder_iff, isBelowOrder_iff]
      rw [if_neg hwords, dif_neg hbelow]

theorem sequenceByPlaces?_cons (n : UInt8) (rest : Bytes) :
    sequenceByPlaces? (0x30 :: n :: rest) =
      some (if n < 0x80 then .ok 2
        else if rest.length < n.toNat - 0x80 then .error .sequenceOverruns
        else .ok (2 + (n.toNat - 0x80))) := by
  have hless : less? (0x30 :: n :: rest).length 2 = some rest.length := less?_append [0x30, n] rest
  simp only [sequenceByPlaces?, hless, List.getElem?_cons_zero, List.getElem?_cons_succ,
    Option.bind_eq_bind, Option.bind_some, ne_eq, not_true_eq_false, if_false, Option.pure_def,
    ← apply_ite some]

/-- The walk over the head of a sequence refuses what the reader refuses, and else stops where the
inside starts. -/
theorem sequenceByPlaces?_eq (bs : Bytes) :
    (∃ fault, laxSequence bs = .error fault ∧ sequenceByPlaces? bs = some (.error fault)) ∨
      ∃ front rest, bs = front ++ rest ∧ laxSequence bs = .ok rest ∧
        sequenceByPlaces? bs = some (.ok front.length) := by
  match bs with
  | [] => exact .inl ⟨_, rfl, rfl⟩
  | tag :: rest =>
    by_cases htag : tag = 0x30
    · subst htag
      match rest with
      | [] => exact .inl ⟨_, rfl, rfl⟩
      | n :: rest =>
        rw [laxSequence, sequenceByPlaces?_cons]
        by_cases hshort : n < 0x80
        · exact .inr ⟨[0x30, n], rest, rfl, if_pos hshort, congrArg some (if_pos hshort)⟩
        · rw [if_neg hshort, if_neg hshort]
          cases hs : Bytes.split? (n.toNat - 0x80) rest with
          | none => exact .inl ⟨_, rfl, congrArg some (if_pos (Bytes.split?_eq_none.mp hs))⟩
          | some cut =>
            obtain ⟨skipped, behind⟩ := cut
            obtain ⟨hlength, rfl⟩ := Bytes.split?_eq_some.mp hs
            have hroom : ¬ (skipped ++ behind).length < n.toNat - 0x80 := by
              rw [List.length_append]
              omega
            refine .inr ⟨0x30 :: n :: skipped, behind, rfl, rfl, ?_⟩
            rw [if_neg hroom, ← hlength, Nat.add_comm]
            rfl
    · have hnone : laxSequence (tag :: rest) = .error .noSequence := by
        unfold laxSequence
        split
        · next h => exact absurd (List.cons.inj h).1 htag
        · rfl
      exact .inl ⟨_, hnone, if_pos fun h => htag (Option.some.inj h)⟩

/-- The bytes of a body that has been found. -/
theorem split?_found (before body after : Bytes) :
    Bytes.split? body.length ((before ++ (body ++ after)).drop before.length) = some (body, after) := by
  rw [List.drop_left]
  exact Bytes.split?_append body after

theorem readLaxByPlaces?_eq (bs : Bytes) : readLaxByPlaces? bs = some (readLax bs) := by
  rw [readLaxByPlaces?, readLax]
  obtain ⟨fault, hread, hwalk⟩ | ⟨front, rest, rfl, hread, hwalk⟩ := sequenceByPlaces?_eq bs
  · rw [hread, hwalk]
    rfl
  obtain ⟨found, hfirst, hfinds⟩ := integerByPlaces?_append front rest
  rw [hread, hwalk]
  simp only [Option.bind_eq_bind, Option.bind_some, hfirst]
  dsimp only [bind, Except.bind]
  generalize laxInteger? rest = read at hfinds ⊢
  cases hfinds with
  | nothing => rfl
  | @found before r after hr =>
    subst hr
    have hnext : (front ++ before).length + r.length = (front ++ before ++ r).length :=
      List.length_append.symm
    have hwhole : front ++ (before ++ (r ++ after)) = front ++ before ++ r ++ after := by
      simp only [List.append_assoc]
    obtain ⟨found, hsecond, hfinds⟩ := integerByPlaces?_append (front ++ before ++ r) after
    dsimp only
    rw [hnext, hwhole, hsecond]
    generalize laxInteger? after = read at hfinds ⊢
    cases hfinds with
    | nothing => rfl
    | @found before' s after' hs =>
      subst hs
      have hsplitR := split?_found (front ++ before) r (before' ++ (s ++ after'))
      have hsplitS := split?_found (front ++ before ++ r ++ before') s after'
      rw [← List.append_assoc (front ++ before)] at hsplitR
      rw [List.append_assoc _ before'] at hsplitS
      obtain ⟨foundR, hwordR, -⟩ := wordOf?_eq r
      obtain ⟨foundS, hwordS, -⟩ := wordOf?_eq s
      simp only [Option.bind_some, hsplitR, hsplitS, hwordR, hwordS, ofWords_eq hwordR hwordS]
      rfl

theorem ofIntegers_lt (m n : Nat) : (ofIntegers m n).r < order ∧ (ofIntegers m n).s < order := by
  unfold ofIntegers
  split
  · next h => exact h
  · exact ⟨by decide, by decide⟩

theorem readLax_lt {sig : Signature} (h : readLax bs = .ok sig) : sig.r < order ∧ sig.s < order := by
  obtain ⟨rest, -, h⟩ := except_bind_ok.mp h
  split at h
  · cases h
  · split at h
    · cases h
    · cases h
      exact ofIntegers_lt _ _

/-- The lax reader is safe on every byte string: its walk looks at no place that is not there and
gathers no length that outgrows a word. The numbers it reads are below the order, and what follows a
signature that is read makes no difference. -/
theorem lax_form_read (bs : Bytes) :
    readLaxByPlaces? bs = some (readLax bs) ∧
      ∀ sig, readLax bs = .ok sig →
        sig.r < order ∧ sig.s < order ∧ ∀ more, readLax (bs ++ more) = .ok sig := by
  refine ⟨readLaxByPlaces?_eq bs, fun sig h => ?_⟩
  obtain ⟨hr, hs⟩ := readLax_lt h
  exact ⟨hr, hs, readLax_more h⟩

/-- A sequence length of two bytes that is passed over, and a length behind two zeros. -/
theorem lax_form_read_long_lengths :
    let bs : Bytes := [0x30, 0x82, 0xff, 0xff, 0x02, 0x83, 0x00, 0x00, 0x01, 0x05, 0x02, 0x01, 0x07]
    let sig : Signature := ⟨5, 7, by decide, by decide⟩
    readLax bs = .ok sig ∧ readLaxByPlaces? bs = some (.ok sig) ∧
      readLax (bs ++ [0xde, 0xad]) = .ok sig := by
  intro bs sig
  have hread : readLax bs = .ok sig := by rfl
  obtain ⟨hplaces, hsig⟩ := lax_form_read bs
  rw [hread] at hplaces
  exact ⟨hread, hplaces, (hsig sig hread).2.2 _⟩

end CoinScript.Der
