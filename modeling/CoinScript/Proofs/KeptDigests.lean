import CoinScript.Proofs.SigningFrame

namespace CoinScript

/-- A transaction with other unlocking scripts, one for each place. -/
def Transaction.withUnlockings (tx : Transaction) (scripts : Nat → Script) : Transaction :=
  { tx with inputs := tx.inputs.mapIdx fun place i => { i with unlocking := scripts place } }

theorem Transaction.unsigned_withUnlockings (tx : Transaction) (scripts : Nat → Script) :
    (tx.withUnlockings scripts).unsigned = tx.unsigned := by
  have hinputs : (tx.withUnlockings scripts).unsigned.inputs = tx.unsigned.inputs := by
    apply List.ext_getElem?
    intro n
    simp only [unsigned_getElem?, withUnlockings, List.getElem?_mapIdx, Option.map_map]
    rfl
  exact congrArg (fun inputs => { tx.unsigned with inputs }) hinputs

namespace Spending

variable {s : Spending} {cache : DigestCache}

/-- Only digests are kept that a new computation would give. -/
def Faithful (s : Spending) (cache : DigestCache) : Prop :=
  ∀ t code d, cache.lookup (t, code) = some d → d = s.digest t code

theorem faithful_nil (s : Spending) : s.Faithful [] := by
  intro t code d h
  cases h

theorem Faithful.cons (h : s.Faithful cache) (t : HashType) (code : Script) :
    s.Faithful (((t, code), s.digest t code) :: cache) := by
  intro t' code' d hd
  rw [List.lookup_cons] at hd
  split at hd
  · next hk =>
    obtain ⟨rfl, rfl⟩ := Prod.mk.inj (beq_iff_eq.mp hk)
    exact (Option.some.inj hd).symm
  · exact h t' code' d hd

/-- A digest is right whether it has been kept or not, and what is kept stays right. -/
theorem Faithful.cachedDigest (h : s.Faithful cache) (t : HashType) (code : Script) :
    (s.cachedDigest t code cache).1 = s.digest t code ∧
      s.Faithful (s.cachedDigest t code cache).2 := by
  unfold Spending.cachedDigest
  split
  · next d hd => exact ⟨h t code d hd, h⟩
  · exact ⟨rfl, h.cons t code⟩

/-- One question: the answer is that of a checker without digests. -/
theorem Faithful.ask (h : s.Faithful cache) (q : Question) :
    (s.ask q cache).1 = s.checker.answer q ∧ s.Faithful (s.ask q cache).2 := by
  cases q with
  | lockTime n => exact ⟨rfl, h⟩
  | sequence n => exact ⟨rfl, h⟩
  | digest sig key d => exact ⟨rfl, h⟩
  | signature sig key code =>
    have hvalid : s.checker.answer (.signature sig key code) = s.signatureValid sig key code := rfl
    rw [hvalid, Spending.ask, signatureValid]
    cases s.signed? sig key with
    | none => exact ⟨rfl, h⟩
    | some found =>
      obtain ⟨body, key, t⟩ := found
      obtain ⟨hdigest, hkept⟩ := h.cachedDigest t code
      exact ⟨congrArg (signatureCovers body key) hdigest, hkept⟩

/-- Questions one after the other, by induction on them. -/
theorem Faithful.askAll (h : s.Faithful cache) (questions : List Question) :
    (questions.mapM s.ask cache).1 = questions.map s.checker.answer ∧
      s.Faithful (questions.mapM s.ask cache).2 := by
  induction questions generalizing cache with
  | nil => exact ⟨rfl, h⟩
  | cons q questions ih =>
    obtain ⟨hfirst, hkept⟩ := h.ask q
    obtain ⟨hrest, hlast⟩ := ih hkept
    rw [List.mapM_cons, List.map_cons, ← hfirst, ← hrest]
    exact ⟨rfl, hlast⟩

theorem askAll_eq (s : Spending) (questions : List Question) :
    s.askAll questions = questions.map s.checker.answer :=
  (s.faithful_nil.askAll questions).1

theorem owned_eq (s : Spending) : s.owned = s.checker := by
  have hask (q : Question) : (s.ask q []).1 = s.checker.answer q := (s.faithful_nil.ask q).1
  have hsignature : s.owned.signature = s.checker.signature := by
    funext sig key code
    exact hask (.signature sig key code)
  exact congrArg (fun signature => { s.checker with signature }) hsignature

/-- Whatever a checker has been asked before, it answers as a new one does that is asked nothing else,
and as one does that keeps no digests; the answers stay the same when the transaction gets other
unlocking scripts. A digest that has been kept is that of the hash type and code it is kept for. -/
theorem answers_committed (s : Spending) (questions : List Question) :
    s.askAll questions = questions.map (fun q => (s.ask q []).1) ∧
      s.askAll questions = questions.map s.owned.answer ∧
      (∀ scripts : Nat → Script,
        { s with tx := s.tx.withUnlockings scripts }.askAll questions = s.askAll questions) ∧
      ∀ t code, (questions.mapM s.ask []).2.lookup (t, code) = none ∨
        (questions.mapM s.ask []).2.lookup (t, code) = some (s.digest t code) := by
  refine ⟨?_, ?_, ?_, ?_⟩
  · rw [askAll_eq]
    exact List.map_congr_left fun q _ => ((s.faithful_nil.ask q).1).symm
  · rw [askAll_eq, owned_eq]
  · intro scripts
    have hchecker : { s with tx := s.tx.withUnlockings scripts }.checker = s.checker :=
      checker_congr (s.tx.unsigned_withUnlockings scripts) rfl rfl rfl
    rw [askAll_eq, askAll_eq, hchecker]
  · intro t code
    have hkept := (s.faithful_nil.askAll questions).2 t code
    cases hd : (questions.mapM s.ask []).2.lookup (t, code) with
    | none => exact .inl rfl
    | some d => exact .inr (congrArg some (hkept d hd))

end Spending

end CoinScript
