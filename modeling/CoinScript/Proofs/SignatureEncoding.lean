import CoinScript.Proofs.Outcome

namespace CoinScript.Encoding

open Ecdsa (order)

/-- A signature of the Schnorr length, by the rules of all flags. -/
structure AdmitsSchnorr (F : Flags) (sig : Bytes) : Prop where
  length : sig.length = 65
  hashType : F.has .strictEncoding = true → (HashType.ofSignature sig).isDefined = true
  forkId : F.has .strictEncoding = true → F.has .forkId = true →
    (HashType.ofSignature sig).hasForkId = true

/-- A signature of another length, by the rules for what stands before its hash type. -/
structure AdmitsBody (F : Flags) (sig : Bytes) : Prop where
  nonempty : sig ≠ []
  length : sig.length ≠ 65
  strict : F.has .strictDer = true ∨ F.has .lowS = true ∨ F.has .strictEncoding = true →
    Der.isStrict sig.dropLast = true
  low : F.has .lowS = true →
    ∃ r s, Der.strict? sig.dropLast = some (r, s) ∧ Bytes.toNatBE s ≤ order / 2

/-- The rules of all flags, for every spelling. -/
def Conforms (F : Flags) (sig : Bytes) : Prop :=
  sig = [] ∨ AdmitsSchnorr F sig ∨
    AdmitsBody F sig ∧
      (F.has .strictEncoding = true → (HashType.ofSignature sig).isDefined = true)

/-- A signature that breaks no rule but that on the hash type, where the rule on `s` takes the place
of it. -/
structure Overlooked (F : Flags) (sig : Bytes) : Prop where
  body : AdmitsBody F sig
  lowS : F.has .lowS = true
  strictEncoding : F.has .strictEncoding = true
  hashType : (HashType.ofSignature sig).isDefined = false

variable {F G : Flags} {sig body : Bytes} {t : HashType}

theorem needsDer_iff :
    needsDer F = true ↔
      F.has .strictDer = true ∨ F.has .lowS = true ∨ F.has .strictEncoding = true := by
  simp only [needsDer, Bool.or_eq_true, or_assoc]

theorem hasLowS_iff :
    Der.hasLowS body = true ↔
      ∃ r s, Der.strict? body = some (r, s) ∧ Bytes.toNatBE s ≤ order / 2 := by
  unfold Der.hasLowS
  cases Der.strict? body with
  | none => simp
  | some found =>
    obtain ⟨r, s⟩ := found
    simp [and_assoc]

theorem checkSchnorr_ok :
    checkSchnorr F (some t) = .ok () ↔
      (F.has .strictEncoding = true → t.isDefined = true) ∧
        (F.has .strictEncoding = true → F.has .forkId = true → t.hasForkId = true) := by
  cases hs : F.has .strictEncoding with
  | false => simp [checkSchnorr, hs]
  | true => cases hf : F.has .forkId <;> simp [checkSchnorr, hs, hf, except_bind_ok, demand_ok]

/-- The hash type is judged only where `s` is not. -/
theorem checkDer_ok :
    checkDer F body (some t) = .ok () ↔
      (needsDer F = true → Der.isStrict body = true) ∧
        (F.has .lowS = true → Der.hasLowS body = true) ∧
        (F.has .strictEncoding = true → F.has .lowS = false → t.isDefined = true) := by
  have hneeds : (!needsDer F || Der.isStrict body) = true ↔
      (needsDer F = true → Der.isStrict body = true) := by
    cases needsDer F <;> simp
  cases hl : F.has .lowS with
  | true => simp [checkDer, hl, except_bind_ok, demand_ok, hneeds]
  | false =>
    cases hs : F.has .strictEncoding <;>
      simp [checkDer, hl, hs, except_bind_ok, demand_ok, hneeds]

theorem checkSignature_ok :
    checkSignature F sig = .ok () ↔
      sig = [] ∨ AdmitsSchnorr F sig ∨
        AdmitsBody F sig ∧ (F.has .strictEncoding = true → F.has .lowS = false →
          (HashType.ofSignature sig).isDefined = true) := by
  unfold checkSignature
  split
  · next he => simp [he]
  · next he =>
    split
    · next hl =>
      rw [checkSchnorr_ok]
      constructor
      · intro h
        exact .inr (.inl ⟨hl, h.1, h.2⟩)
      · rintro (h | h | h)
        · exact absurd h he
        · exact ⟨h.hashType, h.forkId⟩
        · exact absurd hl h.1.length
    · next hl =>
      rw [checkDer_ok, needsDer_iff, hasLowS_iff]
      constructor
      · intro h
        exact .inr (.inr ⟨⟨he, hl, h.1, h.2.1⟩, h.2.2⟩)
      · rintro (h | h | h)
        · exact absurd h he
        · exact absurd h.length hl
        · exact ⟨h.1.strict, h.1.low, h.2⟩

theorem Overlooked.not_conforms (h : Overlooked F sig) : ¬ Conforms F sig := by
  rintro (he | hs | ⟨-, hd⟩)
  · exact h.body.nonempty he
  · exact h.body.length hs.length
  · cases h.hashType.symm.trans (hd h.strictEncoding)

theorem checkSignature_ok_iff :
    checkSignature F sig = .ok () ↔ Conforms F sig ∨ Overlooked F sig := by
  rw [checkSignature_ok]
  constructor
  · rintro (he | hs | ⟨hb, hd⟩)
    · exact .inl (.inl he)
    · exact .inl (.inr (.inl hs))
    · by_cases ho : F.has .lowS = true ∧ F.has .strictEncoding = true ∧
          (HashType.ofSignature sig).isDefined = false
      · exact .inr ⟨hb, ho.1, ho.2.1, ho.2.2⟩
      · refine .inl (.inr (.inr ⟨hb, fun hs => ?_⟩))
        cases hl : F.has .lowS with
        | false => exact hd hs hl
        | true => exact Bool.of_not_eq_false fun hu => ho ⟨hl, hs, hu⟩
  · rintro ((he | hs | ⟨hb, hd⟩) | ho)
    · exact .inl he
    · exact .inr (.inl hs)
    · exact .inr (.inr ⟨hb, fun hs _ => hd hs⟩)
    · exact .inr (.inr ⟨ho.body, fun _ hl => absurd (hl.symm.trans ho.lowS) (by decide)⟩)

section Fewer

variable (hF : ∀ f, F.has f = true → G.has f = true)
include hF

theorem AdmitsBody.fewer (h : AdmitsBody G sig) : AdmitsBody F sig where
  nonempty := h.nonempty
  length := h.length
  strict := fun hf => h.strict (hf.imp (hF _) (Or.imp (hF _) (hF _)))
  low := fun hf => h.low (hF _ hf)

theorem Conforms.fewer (h : Conforms G sig) : Conforms F sig := by
  rcases h with he | hs | ⟨hb, hd⟩
  · exact .inl he
  · exact .inr (.inl ⟨hs.length, fun hf => hs.hashType (hF _ hf),
      fun hf hk => hs.forkId (hF _ hf) (hF _ hk)⟩)
  · exact .inr (.inr ⟨hb.fewer hF, fun hf => hd (hF _ hf)⟩)

/-- A signature that is overlooked stays admitted, unless `s` is the only rule that is dropped. -/
theorem Overlooked.fewer (h : Overlooked G sig) :
    checkSignature F sig = .ok () ∨ F.has .strictEncoding = true ∧ F.has .lowS = false := by
  cases hs : F.has .strictEncoding with
  | false =>
    refine .inl (checkSignature_ok.mpr (.inr (.inr ⟨h.body.fewer hF, fun hs' => ?_⟩)))
    cases hs.symm.trans hs'
  | true =>
    cases hl : F.has .lowS with
    | false => exact .inr ⟨rfl, rfl⟩
    | true => exact .inl (checkSignature_ok_iff.mpr (.inr ⟨h.body.fewer hF, hl, hs, h.hashType⟩))

end Fewer

/-- A signature is admitted if it keeps the rules of all flags. Beyond that are admitted exactly the
signatures whose hash type is overlooked: only these have an undefined hash type in spite of strict
encoding, and only these can be refused by fewer flags. -/
theorem signature_admitted_iff (F : Flags) (sig : Bytes) :
    (checkSignature F sig = .ok () ↔ Conforms F sig ∨ Overlooked F sig) ∧
      ¬ (Conforms F sig ∧ Overlooked F sig) ∧
      (checkSignature F sig = .ok () ∧ F.has .strictEncoding = true ∧ sig ≠ [] ∧
          (HashType.ofSignature sig).isDefined = false ↔
        Overlooked F sig) ∧
      ∀ G : Flags, (∀ f, F.has f = true → G.has f = true) → checkSignature G sig = .ok () →
        checkSignature F sig = .ok () ∨
          Overlooked G sig ∧ F.has .strictEncoding = true ∧ F.has .lowS = false := by
  refine ⟨checkSignature_ok_iff, fun h => h.2.not_conforms h.1, ⟨?_, ?_⟩, ?_⟩
  · rintro ⟨hok, hs, hne, hu⟩
    rcases checkSignature_ok_iff.mp hok with (he | hc | ⟨-, hd⟩) | ho
    · exact absurd he hne
    · cases hu.symm.trans (hc.hashType hs)
    · cases hu.symm.trans (hd hs)
    · exact ho
  · intro ho
    exact ⟨checkSignature_ok_iff.mpr (.inr ho), ho.strictEncoding, ho.body.nonempty, ho.hashType⟩
  · intro G hF hok
    rcases checkSignature_ok_iff.mp hok with hc | ho
    · exact .inl (checkSignature_ok_iff.mpr (.inl (hc.fewer hF)))
    · exact (ho.fewer hF).imp_right fun h => ⟨ho, h⟩

/-- The hash type 5 is refused under strict encoding, but admitted if `s` has to be low, too. -/
theorem undefined_hash_type_overlooked :
    let sig : Bytes := [0x30, 0x06, 0x02, 0x01, 0x01, 0x02, 0x01, 0x01, 0x05]
    checkSignature (.ofList [.strictEncoding]) sig = .error .undefinedHashType ∧
      checkSignature (.ofList [.strictEncoding, .lowS]) sig = .ok () ∧
      ¬ Conforms (.ofList [.strictEncoding, .lowS]) sig := by
  intro sig
  refine ⟨by with_unfolding_all rfl, by with_unfolding_all rfl, ?_⟩
  rintro (he | hs | ⟨-, hd⟩)
  · exact absurd he (by decide)
  · exact absurd hs.length (by decide)
  · exact absurd (hd (by decide)) (by decide)

end CoinScript.Encoding
