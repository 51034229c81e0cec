import CoinScript.Proofs.Easing

namespace CoinScript

/-- Both branches may be eased where the condition is the same. -/
theorem ite_eases {α : Type} {c : Prop} [Decidable c] {x x' y y' : Except Fault α} {a : α}
    (hx : x = .ok a → x' = .ok a) (hy : y = .ok a → y' = .ok a)
    (h : (if c then x else y) = .ok a) : (if c then x' else y') = .ok a := by
  split
  · next hc =>
    rw [if_pos hc] at h
    exact hx h
  · next hc =>
    rw [if_neg hc] at h
    exact hy h

namespace Encoding

variable {F F' : Flags} {sig key body : Bytes} {u : Unit}

theorem needsDer_eases (h : F.Eases F') (hn : needsDer F' = true) : needsDer F = true := by
  simp only [needsDer, Bool.or_eq_true] at hn ⊢
  rcases hn with (hd | hl) | hs
  · exact .inl (.inl (h.fewer _ hd))
  · exact .inl (.inr (h.fewer _ hl))
  · exact .inr (h.fewer _ hs)

/-- A condition that only a flag asks for. -/
theorem demanded_eases {f : Flag} {b : Bool} (h : F.Eases F') (hb : (!F.has f || b) = true) :
    (!F'.has f || b) = true := by
  rw [Bool.or_eq_true, Bool.not_eq_true'] at hb ⊢
  rcases hb with hf | hb
  · refine .inl ?_
    rw [Bool.eq_false_iff] at hf ⊢
    exact fun hf' => hf (h.fewer f hf')
  · exact .inr hb

theorem checkSchnorr_eases {t : Option HashType} (h : F.Eases F') (hc : checkSchnorr F t = .ok u) :
    checkSchnorr F' t = .ok u := by
  cases t with
  | none => exact hc
  | some t =>
    cases hs : F'.has .strictEncoding with
    | false => simp [checkSchnorr, hs]
    | true =>
      simp only [checkSchnorr, h.fewer _ hs, if_true] at hc
      simp only [checkSchnorr, hs, h.others .forkId (by decide), if_true]
      exact hc

theorem checkDer_eases {t : Option HashType} (h : F.Eases F') (hc : checkDer F body t = .ok u) :
    checkDer F' body t = .ok u := by
  obtain ⟨_, hd, hr⟩ := except_bind_ok.mp hc
  have hd' : (!needsDer F' || Der.isStrict body) = true := by
    have hd := demand_ok.mp hd
    rw [Bool.or_eq_true, Bool.not_eq_true'] at hd ⊢
    rcases hd with hn | hb
    · refine .inl ?_
      rw [Bool.eq_false_iff] at hn ⊢
      exact fun hn' => hn (needsDer_eases h hn')
    · exact .inr hb
  refine except_bind_ok.mpr ⟨(), demand_ok.mpr hd', ?_⟩
  rw [h.others .lowS (by decide)]
  refine ite_eases id ?_ hr
  intro hr
  cases t with
  | none => exact hr
  | some t => exact demand_ok.mpr (demanded_eases h (demand_ok.mp hr))

theorem checkSignature_eases (h : F.Eases F') (hc : checkSignature F sig = .ok u) :
    checkSignature F' sig = .ok u := by
  refine ite_eases id ?_ hc
  exact ite_eases (checkSchnorr_eases h) (checkDer_eases h)

theorem checkDataSignature_eases (h : F.Eases F') (hc : checkDataSignature F sig = .ok u) :
    checkDataSignature F' sig = .ok u := by
  refine ite_eases id ?_ hc
  exact ite_eases (checkSchnorr_eases h) (checkDer_eases h)

theorem checkOrderedSignature_eases (h : F.Eases F') (hc : checkOrderedSignature F sig = .ok u) :
    checkOrderedSignature F' sig = .ok u :=
  ite_eases id (checkSignature_eases h) hc

theorem checkSelectedSignature_eases (h : F.Eases F') (hc : checkSelectedSignature F sig = .ok u) :
    checkSelectedSignature F' sig = .ok u :=
  ite_eases (checkSignature_eases h) id hc

theorem checkKey_eases (h : F.Eases F') (hc : checkKey F key = .ok u) : checkKey F' key = .ok u := by
  obtain ⟨_, hk, hc⟩ := except_bind_ok.mp hc
  have hk := demand_ok.mp hk
  rw [Bool.or_assoc] at hk
  refine except_bind_ok.mpr ⟨(), demand_ok.mpr ?_, demand_ok.mpr ?_⟩
  · rw [Bool.or_assoc]
    exact demanded_eases h hk
  · exact demanded_eases h (demand_ok.mp hc)

end Encoding

namespace Signing

open Effect Encoding

variable {ctx ctx' : Context} {code : Script} {sig key : Bytes} {success : Bool} {u : Unit}

theorem nullFail_eases {F F' : Flags} (h : F.Eases F') (hn : nullFail F success sig = .ok u) :
    nullFail F' success sig = .ok u := by
  rw [nullFail_ok] at hn ⊢
  intro hs hne
  rw [Bool.eq_false_iff]
  intro hf
  have := hn hs hne
  rw [h.fewer _ hf] at this
  cases this

theorem checkOne_eases (h : ctx.Eases ctx') (hc : checkOne ctx code sig key = .ok success) :
    checkOne ctx' code sig key = .ok success := by
  obtain ⟨_, hs, hc⟩ := except_bind_ok.mp hc
  obtain ⟨_, hk, hc⟩ := except_bind_ok.mp hc
  obtain ⟨_, hn, hc⟩ := except_bind_ok.mp hc
  refine except_bind_ok.mpr ⟨(), checkSignature_eases h.flags hs, ?_⟩
  refine except_bind_ok.mpr ⟨(), checkKey_eases h.flags hk, ?_⟩
  rw [h.checker]
  exact except_bind_ok.mpr ⟨(), nullFail_eases h.flags hn, hc⟩

theorem checkSig_eases (h : ctx.Eases ctx') (verify : Bool) :
    Allows (checkSig ctx verify) (checkSig ctx' verify) := by
  apply Allows.after
  intro _
  apply Allows.after
  intro key
  apply Allows.after
  intro sig
  apply Allows.after
  intro _
  apply Allows.after
  intro _
  apply Allows.after
  intro st
  apply Allows.bind
  · apply orFail_eases
    intro success hc
    exact checkOne_eases h hc
  · intro success
    exact .refl _

theorem checkDataSig_eases (h : ctx.Eases ctx') (verify : Bool) :
    Allows (checkDataSig ctx verify) (checkDataSig ctx' verify) := by
  apply Allows.after
  intro _
  apply Allows.after
  intro key
  apply Allows.after
  intro message
  apply Allows.after
  intro sig
  apply Allows.bind
  · apply orFail_eases
    intro _ hc
    exact checkDataSignature_eases h.flags hc
  intro _
  apply Allows.bind
  · apply orFail_eases
    intro _ hc
    exact checkKey_eases h.flags hc
  intro _
  rw [h.checker]
  apply Allows.after
  intro _
  apply Allows.bind
  · apply orFail_eases
    intro _ hn
    exact nullFail_eases h.flags hn
  · intro _
    exact .refl _

namespace Multisig

variable {m : Multisig} {keys sigs : List Bytes}

/-- By induction on the keys: each answer about a pair is the same, so the search takes the same
way. -/
theorem matchInOrder_eases {fits fits' : Bytes → Bytes → Except Fault Bool}
    (hf : ∀ sig key fit, fits sig key = .ok fit → fits' sig key = .ok fit)
    (h : matchInOrder fits sigs keys = .ok success) :
    matchInOrder fits' sigs keys = .ok success := by
  induction keys generalizing sigs with
  | nil => cases sigs <;> exact h
  | cons key keys ih =>
    cases sigs with
    | nil => exact h
    | cons sig sigs =>
      obtain ⟨fit, hfit, h⟩ := except_bind_ok.mp h
      refine except_bind_ok.mpr ⟨fit, hf sig key fit hfit, ?_⟩
      exact ite_eases id ih h

theorem fitsInOrder_eases (h : ctx.Eases ctx') (sig key : Bytes) (fit : Bool)
    (hf : fitsInOrder ctx code sig key = .ok fit) : fitsInOrder ctx' code sig key = .ok fit := by
  obtain ⟨_, hs, hf⟩ := except_bind_ok.mp hf
  obtain ⟨_, hk, hf⟩ := except_bind_ok.mp hf
  refine except_bind_ok.mpr ⟨(), checkOrderedSignature_eases h.flags hs, ?_⟩
  refine except_bind_ok.mpr ⟨(), checkKey_eases h.flags hk, ?_⟩
  rw [h.checker]
  exact hf

theorem orderedCode_eases {F F' : Flags} (h : F.Eases F') :
    m.orderedCode F' code = m.orderedCode F code := by
  have hw : withoutOrdered F' = withoutOrdered F := by
    funext code sig
    simp only [withoutOrdered, h.others .forkId (by decide)]
  simp only [orderedCode, hw]

theorem runOrdered_eases (h : ctx.Eases ctx') (hr : m.runOrdered ctx code = .ok success) :
    m.runOrdered ctx' code = .ok success := by
  obtain ⟨found, hm, hr⟩ := except_bind_ok.mp hr
  obtain ⟨_, hn, hr⟩ := except_bind_ok.mp hr
  obtain ⟨_, hd, hr⟩ := except_bind_ok.mp hr
  refine except_bind_ok.mpr ⟨found, ?_, ?_⟩
  · rw [orderedCode_eases h.flags]
    exact matchInOrder_eases (fitsInOrder_eases h) hm
  · refine except_bind_ok.mpr ⟨(), demand_ok.mpr ?_, ?_⟩
    · rw [Bool.or_comm]
      apply demanded_eases h.flags
      rw [Bool.or_comm]
      exact demand_ok.mp hn
    · exact except_bind_ok.mpr ⟨(), demand_ok.mpr (demanded_eases h.flags (demand_ok.mp hd)), hr⟩

/-- By induction on the positions that are selected. -/
theorem runPairs_eases (h : ctx.Eases ctx') {i : Nat} {positions : List Nat}
    (hr : runPairs ctx code keys i positions sigs = .ok u) :
    runPairs ctx' code keys i positions sigs = .ok u := by
  induction positions generalizing i sigs with
  | nil => exact hr
  | cons position positions ih =>
    cases sigs with
    | nil => exact hr
    | cons sig sigs =>
      obtain ⟨_, hs, hr⟩ := except_bind_ok.mp hr
      obtain ⟨_, hk, hr⟩ := except_bind_ok.mp hr
      obtain ⟨_, hc, hr⟩ := except_bind_ok.mp hr
      refine except_bind_ok.mpr ⟨(), checkSelectedSignature_eases h.flags hs, ?_⟩
      refine except_bind_ok.mpr ⟨(), checkKey_eases h.flags hk, ?_⟩
      rw [h.checker]
      exact except_bind_ok.mpr ⟨(), hc, ih hr⟩

theorem runSelected_eases (h : ctx.Eases ctx') (hr : m.runSelected ctx code = .ok success) :
    m.runSelected ctx' code = .ok success := by
  obtain ⟨bits, hb, hr⟩ := except_bind_ok.mp hr
  obtain ⟨_, hd, hr⟩ := except_bind_ok.mp hr
  obtain ⟨_, hp, hr⟩ := except_bind_ok.mp hr
  refine except_bind_ok.mpr ⟨bits, hb, except_bind_ok.mpr ⟨(), hd, ?_⟩⟩
  exact except_bind_ok.mpr ⟨(), runPairs_eases h hp, hr⟩

theorem isSelected_eases {F F' : Flags} (h : F.Eases F') : m.isSelected F' = m.isSelected F := by
  simp only [isSelected, h.others .schnorrMultisig (by decide)]

theorem run_eases (h : ctx.Eases ctx') (hr : m.run ctx code = .ok success) :
    m.run ctx' code = .ok success := by
  unfold run
  rw [isSelected_eases h.flags]
  exact ite_eases (runSelected_eases h) (runOrdered_eases h) hr

end Multisig

theorem numberAt_eases (h : ctx.Eases ctx') (i : Nat) : Allows (numberAt ctx i) (numberAt ctx' i) := by
  apply Allows.after
  intro item
  apply orFail_eases
  intro n hn
  exact Number.decode_eases h.minimal hn

theorem readMultisig_eases (h : ctx.Eases ctx') : Allows (readMultisig ctx) (readMultisig ctx') := by
  apply Allows.after
  intro _
  apply (numberAt_eases h 0).bind
  intro n
  apply Allows.after
  intro _
  apply (countOps_eases h n.toNat).bind
  intro _
  apply Allows.after
  intro _
  apply (numberAt_eases h _).bind
  intro _
  exact .refl _

theorem checkMultisig_eases (h : ctx.Eases ctx') (verify : Bool) :
    Allows (checkMultisig ctx verify) (checkMultisig ctx' verify) := by
  apply (readMultisig_eases h).bind
  intro m
  have hn : m.sigChecks ctx'.flags = m.sigChecks ctx.flags := by
    simp only [Multisig.sigChecks, Multisig.isSelected_eases h.flags]
  rw [hn]
  apply Allows.after
  intro _
  apply Allows.after
  intro st
  apply Allows.bind
  · apply orFail_eases
    intro success hr
    exact Multisig.run_eases h hr
  · intro success
    exact .refl _

end Signing

end CoinScript
