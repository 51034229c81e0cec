import CoinScript.Proofs.SpendComposition
import CoinScript.Wallet.Sign

namespace CoinScript

namespace Transaction

/-- A transaction with all its unlocking scripts taken out. -/
def unsigned (tx : Transaction) : Transaction :=
  { tx with inputs := tx.inputs.map ({ · with unlocking := .empty }) }

/-- The second transaction has this unlocking script at the place, and is like the first one
otherwise. -/
structure Unlocked (tx : Transaction) (place : Nat) (unlocking : Script) (tx' : Transaction) :
    Prop where
  version : tx'.version = tx.version
  outputs : tx'.outputs = tx.outputs
  lockTime : tx'.lockTime = tx.lockTime
  others : ∀ i, i ≠ place → tx'.inputs[i]? = tx.inputs[i]?
  here : ∃ i, tx.inputs[place]? = some i ∧ tx'.inputs[place]? = some { i with unlocking }

variable {tx tx' : Transaction} {place n : Nat} {unlocking code : Script} {t : HashType}
  {amount : Int64} {flags : Flags}

theorem unlocked_withUnlocking (h : place < tx.inputs.length) (unlocking : Script) :
    tx.Unlocked place unlocking (tx.withUnlocking place unlocking) where
  version := rfl
  outputs := rfl
  lockTime := rfl
  others i hi := by simp [withUnlocking, hi.symm]
  here := ⟨tx.inputs[place], by simp [withUnlocking, h]⟩

theorem Unlocked.unsigned_eq (h : tx.Unlocked place unlocking tx') : tx'.unsigned = tx.unsigned := by
  have hinputs : tx'.unsigned.inputs = tx.unsigned.inputs := by
    apply List.ext_getElem?
    intro i
    simp only [unsigned, List.getElem?_map]
    by_cases hi : i = place
    · obtain ⟨found, hbefore, hafter⟩ := h.here
      simp [hi, hbefore, hafter]
    · rw [h.others i hi]
  rw [unsigned, unsigned] at hinputs ⊢
  simp only at hinputs
  rw [hinputs, h.version, h.outputs, h.lockTime]

@[simp] theorem unsigned_getElem? (tx : Transaction) (n : Nat) :
    tx.unsigned.inputs[n]? = tx.inputs[n]?.map ({ · with unlocking := .empty }) := by
  simp [unsigned]

theorem preimageFields_unsigned (tx : Transaction) (n : Nat) (i : Input) :
    tx.unsigned.preimageFields n { i with unlocking := .empty } code t amount =
      tx.preimageFields n i code t amount := by
  have hsources : tx.unsigned.sourcesHash t = tx.sourcesHash t := by
    simp [sourcesHash, unsigned, List.flatMap_map]
  have hsequences : tx.unsigned.sequencesHash t = tx.sequencesHash t := by
    simp [sequencesHash, unsigned, Function.comp_def]
  rw [preimageFields, preimageFields, hsources, hsequences]
  rfl

/-- The newer digest covers the sources and sequences of inputs and none of their scripts. -/
theorem forkDigest_unsigned (tx : Transaction) (n : Nat) :
    tx.unsigned.forkDigest n code t amount = tx.forkDigest n code t amount := by
  have hpreimage : tx.unsigned.preimage n code t amount = tx.preimage n code t amount := by
    unfold preimage
    rw [unsigned_getElem?]
    cases tx.inputs[n]? with
    | none => simp [unsigned]
    | some i => exact congrArg (Except.ok ∘ Wire.Field.encodeAll) (preimageFields_unsigned tx n i)
  rw [forkDigest, forkDigest, hpreimage]

/-- The older digest puts the code in place of one script, and nothing in place of the others. -/
theorem legacyDigest_unsigned (tx : Transaction) (n : Nat) :
    tx.unsigned.legacyDigest n code t = tx.legacyDigest n code t := by
  have hall (code : Script) : tx.unsigned.inputs.mapIdx (coveredInput n code t) =
      tx.inputs.mapIdx (coveredInput n code t) := by
    apply List.ext_getElem?
    intro i
    simp only [List.getElem?_mapIdx, unsigned_getElem?, Option.map_map]
    rfl
  have hcovered (i : Input) (code : Script) :
      tx.unsigned.coveredInputs n { i with unlocking := .empty } code t =
        tx.coveredInputs n i code t := by
    rw [coveredInputs, coveredInputs, hall]
    simp [unsigned, coveredInput, count]
  unfold legacyDigest
  rw [unsigned_getElem?]
  cases tx.inputs[n]? with
  | none => rfl
  | some i =>
    simp only [Option.map_some, hcovered]
    rfl

theorem digest_unsigned (tx : Transaction) (n : Nat) :
    tx.unsigned.digest n code t amount flags = tx.digest n code t amount flags := by
  rw [digest, digest, forkDigest_unsigned, legacyDigest_unsigned]

end Transaction

namespace Spending

/-- A checker looks at no unlocking script, and of its flags only at the one that chooses the
digest. -/
theorem checker_congr {s s' : Spending} (htx : s.tx.unsigned = s'.tx.unsigned)
    (hplace : s.place = s'.place) (hamount : s.amount = s'.amount)
    (hflags : s.flags.has .forkId = s'.flags.has .forkId) : s.checker = s'.checker := by
  have hdigest (t : HashType) (code : Script) : s.digest t code = s'.digest t code := by
    rw [digest, digest, ← s.tx.digest_unsigned, ← s'.tx.digest_unsigned, htx, hplace, hamount,
      Transaction.digest, Transaction.digest, hflags]
  have hsignature : s.signatureValid = s'.signatureValid := by
    funext sig key code
    have hsigned : s.signed? sig key = s'.signed? sig key := by
      unfold signed? admits
      rw [hflags]
    simp only [signatureValid, hsigned, hdigest]
  have hinput : s.tx.inputs[s.place]?.map ({ · with unlocking := .empty }) =
      s'.tx.inputs[s'.place]?.map ({ · with unlocking := .empty }) := by
    rw [← Transaction.unsigned_getElem?, ← Transaction.unsigned_getElem?, htx, hplace]
  have hversion : s.tx.version = s'.tx.version := congrArg (·.version) htx
  have hlock : s.tx.lockTime = s'.tx.lockTime := congrArg (·.lockTime) htx
  have hlockTime : s.lockTimeReached = s'.lockTimeReached := by
    funext n
    unfold lockTimeReached
    cases hs : s.tx.inputs[s.place]? <;> cases hs' : s'.tx.inputs[s'.place]? <;>
      simp_all [Input.isFinal]
  have hsequence : s.sequenceReached = s'.sequenceReached := by
    funext n
    unfold sequenceReached
    cases hs : s.tx.inputs[s.place]? <;> cases hs' : s'.tx.inputs[s'.place]? <;> simp_all
  rw [checker, checker, hsignature, hlockTime, hsequence]

end Spending

theorem Signer.digestFlags_forkId (t : HashType) : (digestFlags t).has .forkId = t.hasForkId := by
  cases h : t.hasForkId <;> simp [digestFlags, h, Flags.has_only]

/-- A script that a signer hands over as complete has been verified, on whatever way through the
template it came about. -/
theorem Signer.accepts_of_unlock {signer : Signer} {locking unlocking : Script} {flags : Flags}
    (h : signer.unlock locking flags = .ok unlocking) :
    Accepts ⟨flags, signer.checker, Spend.maxOps⟩ unlocking locking := by
  have hverified {u : Script} (h : signer.verified locking flags u = .ok unlocking) :
      Accepts ⟨flags, signer.checker, Spend.maxOps⟩ unlocking locking := by
    unfold verified at h
    split at h
    · next cost hv =>
      cases h
      exact ⟨cost, hv⟩
    · cases h
  obtain ⟨a, -, h⟩ := except_bind_ok.mp h
  split at h
  · split at h
    · obtain ⟨u, -, h⟩ := except_bind_ok.mp h
      exact hverified h
    · exact hverified h
  · cases h

namespace SigningOrder

variable {order : SigningOrder} {source tx tx' : Transaction} {locking : Script} {amount : Int64}

/-- What signing has come to, told from the outcome and the transaction before. A finished script
spends under every checker of the new transaction that takes the digest of the hash type. -/
def Settled (order : SigningOrder) (locking : Script) (amount : Int64) (tx : Transaction) :
    EStateM.Result SigningFault Transaction Unit → Prop
  | .ok _ tx' => ∃ unlocking, tx.Unlocked order.place unlocking tx' ∧
      ∀ digestFlags : Flags, digestFlags.has .forkId = order.hashType.hasForkId →
        Accepts ⟨order.flags, (Spending.mk tx' order.place amount digestFlags).checker,
          Spend.maxOps⟩ unlocking locking
  | .error (.incomplete unlocking _) tx' => tx.Unlocked order.place unlocking tx'
  | .error _ tx' => tx' = tx

/-- An input takes its coins from this output of a transaction. -/
def Spends (order : SigningOrder) (source tx : Transaction) (o : Output) : Prop :=
  ∃ i, tx.inputs[order.place]? = some i ∧ i.source.txid = source.id ∧
    source.outputs[i.source.index.toNat]? = some o

theorem sign_settled (order : SigningOrder) (locking : Script) (amount : Int64) (tx : Transaction) :
    order.Settled locking amount tx (order.sign locking amount tx) := by
  unfold sign
  split
  · next hplace =>
    split
    · next unlocking hu =>
      have hwritten := Transaction.unlocked_withUnlocking hplace unlocking
      refine ⟨unlocking, hwritten, fun digestFlags hflags => ?_⟩
      have hchecker : (Spending.mk (tx.withUnlocking order.place unlocking) order.place amount
          digestFlags).checker = (order.signer tx amount).checker :=
        Spending.checker_congr hwritten.unsigned_eq rfl rfl
          (hflags.trans (Signer.digestFlags_forkId _).symm)
      rw [hchecker]
      exact Signer.accepts_of_unlock hu
    · next unlocking why hu => exact Transaction.unlocked_withUnlocking hplace unlocking
    · next fault hne hu =>
      cases fault with
      | incomplete unlocking why => exact absurd rfl (hne unlocking why)
      | _ => rfl
  · rfl

theorem spentOutput_ok {o : Output} : order.spentOutput source tx = .ok o ↔ order.Spends source tx o := by
  unfold spentOutput Spends
  cases hi : tx.inputs[order.place]? with
  | none => simp
  | some i =>
    by_cases hid : i.source.txid = source.id
    · cases ho : source.outputs[i.source.index.toNat]? <;> simp [hid, ho]
    · simp [hid]

theorem spentOutput_error {fault : SigningFault} (h : order.spentOutput source tx = .error fault) :
    ∀ unlocking why, fault ≠ .incomplete unlocking why := by
  unfold spentOutput at h
  intro unlocking why hf
  subst hf
  repeat' split at h
  all_goals cases h

/-- Signing an input changes at most the unlocking script of that input. If it succeeds, that script
spends the output under the flags of the order, as seen from the transaction that is left; if the
script is incomplete, it is the one that the fault carries; any other fault leaves the transaction
alone. The same goes for signing with the transaction that is spent, and where the input does not
spend an output of that transaction nothing changes. -/
theorem signing_settles (order : SigningOrder) (tx : Transaction) :
    (∀ locking amount, order.Settled locking amount tx (order.sign locking amount tx)) ∧
      (∀ source o, order.Spends source tx o →
        order.Settled o.locking o.amount tx (order.signFrom source tx)) ∧
      (∀ source, (∀ o, ¬ order.Spends source tx o) →
        ∃ fault, order.signFrom source tx = .error fault tx ∧
          ∀ unlocking why, fault ≠ .incomplete unlocking why) := by
  refine ⟨fun locking amount => order.sign_settled locking amount tx, ?_, ?_⟩
  · intro source o hs
    rw [signFrom, spentOutput_ok.mpr hs]
    exact order.sign_settled o.locking o.amount tx
  · intro source hs
    cases ho : order.spentOutput source tx with
    | ok o => exact absurd (spentOutput_ok.mp ho) (hs o)
    | error fault => exact ⟨fault, by rw [signFrom, ho], spentOutput_error ho⟩

end SigningOrder

end CoinScript
