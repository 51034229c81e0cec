import CoinScript.Proofs.MultisigOperands
import Mathlib.Data.Fin.VecNotation
import Mathlib.Data.List.NodupEquivFin

namespace CoinScript.Signing

open List (SublistForall₂)

namespace Multisig

/-- Every signature has a key of its own that it is good for, later ones for later signatures. -/
def Assigns (good : (sig key : Bytes) → Bool) (m : Multisig) : Prop :=
  ∃ place : Fin m.signatures.length → Fin m.keys.length, StrictMono place ∧
    ∀ i, good (m.signatures.get i) (m.keys.get (place i)) = true

section Matching

variable {R : Bytes → Bytes → Prop} {sig key : Bytes} {sigs keys : List Bytes}

theorem length_le_of_sublistForall₂ (h : SublistForall₂ R sigs keys) :
    sigs.length ≤ keys.length := by
  induction h with
  | nil => exact Nat.zero_le _
  | cons _ _ ih => exact Nat.succ_le_succ ih
  | cons_right _ ih => exact Nat.le_succ_of_le ih

theorem sublistForall₂_of_cons (h : SublistForall₂ R (sig :: sigs) keys) :
    SublistForall₂ R sigs keys := by
  induction keys with
  | nil => cases h
  | cons key keys ih =>
    cases h with
    | cons _ h => exact .cons_right h
    | cons_right h => exact .cons_right (ih h)

/-- The first key may as well go to the first signature that it fits: an assignment that gives this
signature a later key has no use for the first one. -/
theorem sublistForall₂_cons_of_fits (hf : R sig key) :
    SublistForall₂ R (sig :: sigs) (key :: keys) ↔ SublistForall₂ R sigs keys := by
  constructor
  · intro h
    cases h with
    | cons _ h => exact h
    | cons_right h => exact sublistForall₂_of_cons h
  · intro h
    exact .cons hf h

theorem sublistForall₂_cons_of_not_fits (hf : ¬ R sig key) :
    SublistForall₂ R (sig :: sigs) (key :: keys) ↔ SublistForall₂ R (sig :: sigs) keys := by
  constructor
  · intro h
    cases h with
    | cons h _ => exact absurd h hf
    | cons_right h => exact h
  · intro h
    exact .cons_right h

end Matching

/-- By induction on the keys: whichever way the search takes at a key, it leaves a search that finds
an assignment exactly if there was one. -/
theorem matchInOrder_of_fits {fits : Bytes → Bytes → Except Fault Bool} {good : Bytes → Bytes → Bool}
    {sigs keys : List Bytes}
    (hf : ∀ sig ∈ sigs, ∀ key ∈ keys, fits sig key = .ok (good sig key)) :
    ∃ found, matchInOrder fits sigs keys = .ok found ∧
      (found = true ↔ SublistForall₂ (fun sig key => good sig key = true) sigs keys) := by
  induction keys generalizing sigs with
  | nil =>
    cases sigs with
    | nil => exact ⟨true, rfl, by simp [SublistForall₂.nil]⟩
    | cons sig sigs =>
      refine ⟨false, rfl, ?_⟩
      constructor
      · intro h
        cases h
      · intro h
        cases h
  | cons key keys ih =>
    cases sigs with
    | nil => exact ⟨true, rfl, by simp [SublistForall₂.nil]⟩
    | cons sig sigs =>
      obtain ⟨left, hl, hmem, hsame⟩ : ∃ left, left = (if good sig key then sigs else sig :: sigs) ∧
          (∀ s ∈ left, s ∈ sig :: sigs) ∧
          (SublistForall₂ (fun sig key => good sig key = true) (sig :: sigs) (key :: keys) ↔
            SublistForall₂ (fun sig key => good sig key = true) left keys) := by
        cases hg : good sig key with
        | true =>
          exact ⟨sigs, rfl, fun s => List.mem_cons_of_mem sig, sublistForall₂_cons_of_fits hg⟩
        | false =>
          refine ⟨sig :: sigs, rfl, fun s hs => hs, sublistForall₂_cons_of_not_fits ?_⟩
          rw [hg]
          exact Bool.false_ne_true
      have hstep : matchInOrder fits (sig :: sigs) (key :: keys) =
          if keys.length < left.length then .ok false else matchInOrder fits left keys := by
        rw [hl]
        simp only [matchInOrder, hf sig List.mem_cons_self key List.mem_cons_self]
        rfl
      rw [hstep, hsame]
      split
      · next hlt =>
        refine ⟨false, rfl, ?_⟩
        constructor
        · intro h
          cases h
        · intro h
          exact absurd (length_le_of_sublistForall₂ h) (Nat.not_le_of_lt hlt)
      · apply ih
        intro s hs k hk
        exact hf s (hmem s hs) k (List.mem_cons_of_mem key hk)

/-- An assignment picks keys out of the list in their order. -/
theorem assigns_iff {good : Bytes → Bytes → Bool} {m : Multisig} :
    m.Assigns good ↔
      SublistForall₂ (fun sig key => good sig key = true) m.signatures m.keys := by
  rw [List.sublistForall₂_iff]
  constructor
  · intro h
    obtain ⟨place, hp, hg⟩ := h
    have hlen : (List.ofFn fun i => m.keys.get (place i)).length = m.signatures.length :=
      List.length_ofFn
    refine ⟨List.ofFn fun i => m.keys.get (place i), ?_, ?_⟩
    · refine List.forall₂_iff_get.mpr ⟨hlen.symm, ?_⟩
      intro i hi _
      simpa using hg ⟨i, hi⟩
    · refine List.sublist_iff_exists_fin_orderEmbedding_get_eq.mpr
        ⟨(Fin.castOrderIso hlen).toOrderEmbedding.trans (OrderEmbedding.ofStrictMono place hp), ?_⟩
      intro i
      rw [List.get_ofFn]
      rfl
  · intro h
    obtain ⟨chosen, hg, hs⟩ := h
    obtain ⟨hlen, hg⟩ := List.forall₂_iff_get.mp hg
    obtain ⟨place, hp⟩ := List.sublist_iff_exists_fin_orderEmbedding_get_eq.mp hs
    refine ⟨fun i => place (Fin.cast hlen i), ?_, ?_⟩
    · intro i j hij
      exact place.strictMono hij
    · intro i
      rw [← hp]
      exact hg i i.isLt (hlen ▸ i.isLt)

variable {ctx : Context} {m : Multisig}

theorem isSelected_eq_false {flags : Flags} (h : flags.has .schnorrMultisig = false ∨ m.dummy = []) :
    m.isSelected flags = false := by
  rcases h with h | h <;> simp [isSelected, h]

theorem fitsInOrder_of_admitted (code : Script) {sig key : Bytes}
    (hs : Encoding.checkOrderedSignature ctx.flags sig = .ok ())
    (hk : Encoding.checkKey ctx.flags key = .ok ()) :
    fitsInOrder ctx code sig key = .ok (ctx.checker.signature sig key code) := by
  unfold fitsInOrder
  rw [hs, hk]
  rfl

/-- A search that found nothing is forgiven if no signature is given, or under no flag. -/
theorem runOrdered_of_admitted (code : Script)
    (hsigs : ∀ sig ∈ m.signatures, Encoding.checkOrderedSignature ctx.flags sig = .ok ())
    (hkeys : ∀ key ∈ m.keys, Encoding.checkKey ctx.flags key = .ok ())
    (hd : ctx.flags.has .nullDummy = true → m.dummy = []) :
    ∃ found,
      (found = true ↔
        m.Assigns fun sig key => ctx.checker.signature sig key (m.orderedCode ctx.flags code)) ∧
      m.runOrdered ctx code =
        if found || m.allEmpty || !ctx.flags.has .nullFail then .ok found
        else .error .multisigNotEmpty := by
  obtain ⟨found, hm, hfound⟩ := matchInOrder_of_fits
    (fun sig hsig key hkey => fitsInOrder_of_admitted (m.orderedCode ctx.flags code)
      (hsigs sig hsig) (hkeys key hkey))
  have hdummy : (!ctx.flags.has .nullDummy || m.dummy == []) = true := by
    cases hn : ctx.flags.has .nullDummy with
    | false => rfl
    | true => simp [hd hn]
  have hread : m.runOrdered ctx code = (do
      Encoding.demand (found || m.allEmpty || !ctx.flags.has .nullFail) .multisigNotEmpty
      Encoding.demand true (.dummyNotEmpty m.dummy.length)
      return found) := by
    unfold runOrdered
    rw [hm, hdummy]
    rfl
  refine ⟨found, hfound.trans assigns_iff.symm, ?_⟩
  rw [hread]
  cases found || m.allEmpty || !ctx.flags.has .nullFail <;> rfl

theorem forgiven_iff :
    (m.allEmpty || !ctx.flags.has .nullFail) = true ↔
      (ctx.flags.has .nullFail = true → ∀ sig ∈ m.signatures, sig = []) := by
  cases ctx.flags.has .nullFail <;> simp [allEmpty]

theorem unforgiven_iff :
    (m.allEmpty || !ctx.flags.has .nullFail) = false ↔
      ctx.flags.has .nullFail = true ∧ ∃ sig ∈ m.signatures, sig ≠ [] := by
  cases ctx.flags.has .nullFail <;> simp [allEmpty]

theorem answering_ne {flags : Flags} {st : State} :
    m.answering flags true st ≠ m.answering flags false st := by
  intro h
  have hmain := congrArg State.main h
  cases hmain

end Multisig

/-- A multisignature that matches in order succeeds exactly if its signatures can be assigned to
keys in their order. An answer takes the place of all operands; without an assignment the answer is
no, or there is a fault where the flag forbids signatures to fail. -/
theorem ordered_multisig_iff_assigns (ctx : Context) (st : State) (m : Multisig) (rest : Bytes)
    (hs : m.On ctx st.main) (hb : st.opCount + m.keys.length ≤ ctx.budget)
    (hmode : ctx.flags.has .schnorrMultisig = false ∨ m.dummy = [])
    (hsigs : ∀ sig ∈ m.signatures, Encoding.checkOrderedSignature ctx.flags sig = .ok ())
    (hkeys : ∀ key ∈ m.keys, Encoding.checkKey ctx.flags key = .ok ())
    (hdummy : ctx.flags.has .nullDummy = true → m.dummy = []) :
    let outcome :=
      (Instruction.ofOpcode Opcode.checkMultisig).run ctx Opcode.checkMultisig true rest st
    let assigns := m.Assigns fun sig key =>
      ctx.checker.signature sig key (m.orderedCode ctx.flags ⟨st.code⟩)
    (outcome = .ok () (m.answering ctx.flags true st) ↔ assigns) ∧
      (outcome = .ok () (m.answering ctx.flags false st) ↔
        ¬ assigns ∧ (ctx.flags.has .nullFail = true → ∀ sig ∈ m.signatures, sig = [])) ∧
      (outcome = .error .multisigNotEmpty (m.counting ctx.flags st) ↔
        ¬ assigns ∧ ctx.flags.has .nullFail = true ∧ ∃ sig ∈ m.signatures, sig ≠ []) ∧
      Fault.multisigNotEmpty.code = .sigNullFail := by
  intro outcome assigns
  obtain ⟨found, hfound, hordered⟩ :=
    Multisig.runOrdered_of_admitted ⟨st.code⟩ hsigs hkeys hdummy
  have hrun : m.run ctx ⟨st.code⟩ = m.runOrdered ctx ⟨st.code⟩ := by
    simp [Multisig.run, Multisig.isSelected_eq_false hmode]
  rw [hordered] at hrun
  cases found with
  | true =>
    have ha : assigns := hfound.mp rfl
    have ho : outcome = .ok () (m.answering ctx.flags true st) := checkMultisig_of_run_ok hs hb hrun
    simp [ho, ha, Multisig.answering_ne, Fault.code]
  | false =>
    have ha : ¬ assigns := fun h => Bool.false_ne_true (hfound.mpr h)
    cases hforgiven : m.allEmpty || !ctx.flags.has .nullFail with
    | true =>
      have ho : outcome = .ok () (m.answering ctx.flags false st) := by
        refine checkMultisig_of_run_ok hs hb ?_
        rw [hrun, Bool.false_or, hforgiven]
        rfl
      have hempty := Multisig.forgiven_iff.mp hforgiven
      refine ⟨?_, ?_, ?_, rfl⟩
      · simp [ho, ha, Multisig.answering_ne.symm]
      · simp only [ho, true_iff]
        exact ⟨ha, hempty⟩
      · simp only [ho, reduceCtorEq, false_iff]
        rintro ⟨-, hn, sig, hsig, hne⟩
        exact hne (hempty hn sig hsig)
    | false =>
      have ho : outcome = .error .multisigNotEmpty (m.counting ctx.flags st) := by
        refine checkMultisig_of_run_error hs hb ?_
        rw [hrun, Bool.false_or, hforgiven]
        rfl
      obtain ⟨hn, sig, hsig, hne⟩ := Multisig.unforgiven_iff.mp hforgiven
      refine ⟨?_, ?_, ?_, rfl⟩
      · simp [ho, ha]
      · simp only [ho, reduceCtorEq, false_iff]
        rintro ⟨-, hempty⟩
        exact hne (hempty hn sig hsig)
      · simp only [ho, true_iff]
        exact ⟨ha, hn, sig, hsig, hne⟩

/-- Two signatures for the first and the last of three keys, where a signature is good for the key
that it is equal to. -/
theorem ordered_multisig_two_of_three :
    let m : Multisig := ⟨[[3], [2], [1]], [[3], [1]], []⟩
    let ctx : Context :=
      ⟨.ofList [.nullFail, .nullDummy], { signature := fun sig key _ => sig == key }, 201⟩
    let st : State :=
      { main := [3] :: (m.keys ++ [2] :: (m.signatures ++ m.dummy :: [[7]])), opCount := 1 }
    (Instruction.ofOpcode Opcode.checkMultisig).run ctx Opcode.checkMultisig true [] st =
      .ok () { main := [[1], [7]], opCount := 4, sigChecks := 3 } := by
  intro m ctx st
  have hs : m.On ctx st.main := ⟨[3], [2], [[7]], rfl, by decide, by decide, by decide, by decide⟩
  have hsigs : ∀ sig ∈ m.signatures, Encoding.checkOrderedSignature ctx.flags sig = .ok () := by
    decide
  have hkeys : ∀ key ∈ m.keys, Encoding.checkKey ctx.flags key = .ok () := by decide
  have hassigns := (ordered_multisig_iff_assigns ctx st m [] hs (by decide) (.inr rfl) hsigs hkeys
    (fun _ => rfl)).1
  have hchecks : m.sigChecks ctx.flags = 3 := by decide
  have hanswer : m.answering ctx.flags true st =
      { main := [[1], [7]], opCount := 4, sigChecks := 3 } := by
    simp only [Multisig.answering, Multisig.counting, hchecks]
    rfl
  rw [← hanswer]
  refine hassigns.mpr ⟨![0, 2], ?_, ?_⟩
  · intro i j
    revert i j
    decide
  · decide

end CoinScript.Signing
