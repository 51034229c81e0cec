import CoinScript.Proofs.MultisigRuns
import CoinScript.Proofs.SigningFrame

namespace CoinScript

theorem PublicKey.length_bytes {C : Curve} (key : PublicKey C) :
    key.bytes.length = 33 ∨ key.bytes.length = 65 := by
  unfold bytes
  split <;> simp

namespace KeyStore

variable {store : KeyStore}

/-- The stores that come about by adding keys and scripts. -/
inductive Built : KeyStore → Prop
  | empty : Built {}
  | addKey {store : KeyStore} (key : PrivateKey secp256k1) (h : Built store) :
    Built (store.addKey key)
  | addScript {store : KeyStore} (s : Script) (h : Built store) : Built (store.addScript s)

/-- Whatever is found has the name under which it is looked up. -/
structure Named (store : KeyStore) : Prop where
  keys : ∀ id key, store.key? id = some key → key.publicKey.id = id
  scripts : ∀ id s, store.script? id = some s → id = .shortOf s ∨ id = .longOf s

theorem Named.addKey (h : Named store) (key : PrivateKey secp256k1) : Named (store.addKey key) where
  keys id found hfound := by
    rw [key?, KeyStore.addKey, lookup_put] at hfound
    split at hfound
    · next hid =>
      cases hfound
      exact hid.symm
    · exact h.keys id found hfound
  scripts := h.scripts

theorem Named.addScript (h : Named store) (s : Script) : Named (store.addScript s) where
  keys := h.keys
  scripts id found hfound := by
    rw [script?, KeyStore.addScript, lookup_put, lookup_put] at hfound
    split at hfound
    · next hid =>
      cases hfound
      exact .inl hid
    · split at hfound
      · next hid =>
        cases hfound
        exact .inr hid
      · exact h.scripts id found hfound

theorem Built.named (h : Built store) : Named store := by
  induction h with
  | empty => exact ⟨fun _ _ h => (nomatch h), fun _ _ h => (nomatch h)⟩
  | addKey key _ ih => exact ih.addKey key
  | addScript s _ ih => exact ih.addScript s

theorem script?_addScript (store : KeyStore) (s : Script) :
    (store.addScript s).script? (.shortOf s) = some s := by
  rw [script?, addScript, lookup_put, if_pos rfl]

/-- The store has keys for as many signatures as a template asks for. -/
def holds (store : KeyStore) (t : Template) : Bool :=
  t.required ≤ t.signers.countP fun id => (store.key? id).isSome

/-- A template that asks for one key has it. -/
theorem isSome_of_holds {t : Template} {id : FixedBytes 20} (h : store.holds t = true)
    (hr : t.required = 1) (hs : t.signers = [id]) : (store.key? id).isSome = true := by
  rw [holds, decide_eq_true_eq, hr, hs, List.one_le_countP_iff] at h
  obtain ⟨id', hmem, hsome⟩ := h
  rwa [List.mem_singleton.mp hmem] at hsome

/-- The keys that the signatures for a template are checked with. -/
def checkedKeys (store : KeyStore) : Template → List Bytes
  | .publicKey key => [key]
  | .frozen _ key => [key]
  | .publicKeyHash id => (store.publicKey? id).toList.map PublicKey.bytes
  | .multisig _ keys => keys
  | _ => []

end KeyStore

/-- What a signature has to look like for a template. -/
def Template.checkSignature (flags : Flags) (sig : Bytes) : Template → Except Fault Unit
  | .multisig _ _ => Encoding.checkOrderedSignature flags sig
  | _ => Encoding.checkSignature flags sig

namespace Signer

open Template

variable {signer : Signer} {flags : Flags} {code locking : Script} {t : Template} {s : Script}
  {id : FixedBytes 20} {sig : Bytes}

/-- The signer signs a script for the keys in its store and for no others, and its own checker takes
the signatures for good. -/
structure Sound (signer : Signer) (code : Script) : Prop where
  signs : ∀ id, (signer.sign id code).isSome = (signer.store.key? id).isSome
  sized : ∀ id sig, signer.sign id code = some sig → 9 ≤ sig.length ∧ sig.length ≤ 73
  good : ∀ id sig key, signer.sign id code = some sig → Hash.hash160 key = id →
    signer.checker.signature sig key code = true

/-- Signs everything with one placeholder, which is good for the keys in the store. -/
def placeholding (store : KeyStore) : Signer where
  store := store
  checker := { signature := fun sig key _ =>
    sig == placeholder && (store.key? (Hash.hash160 key)).isSome }
  sign id _ := if (store.key? id).isSome then some placeholder else none

theorem placeholding_sign {store : KeyStore} (h : (placeholding store).sign id code = some sig) :
    (store.key? id).isSome = true ∧ sig = placeholder := by
  obtain ⟨hk, hs⟩ := Option.ite_none_right_eq_some.mp h
  cases hs
  exact ⟨hk, rfl⟩

theorem sound_placeholding (store : KeyStore) (code : Script) : (placeholding store).Sound code where
  signs id := by
    change (if (store.key? id).isSome then some placeholder else none).isSome = (store.key? id).isSome
    cases (store.key? id).isSome <;> rfl
  sized id sig h := by
    rw [(placeholding_sign h).2]
    decide
  good id sig key h hid := by
    obtain ⟨hk, rfl⟩ := placeholding_sign h
    change (placeholder == placeholder && (store.key? (Hash.hash160 key)).isSome) = true
    rw [hid, hk, beq_self_eq_true, Bool.and_true]

/-- Signatures and keys have spellings that the flags allow, and the script pushes no signature. -/
structure Admitted (signer : Signer) (flags : Flags) (code : Script) (t : Template) : Prop where
  signatures : ∀ id ∈ t.signers, ∀ sig, signer.sign id code = some sig →
    t.checkSignature flags sig = .ok ()
  keys : ∀ key ∈ signer.store.checkedKeys t, Encoding.checkKey flags key = .ok ()
  apart : ∀ id ∈ t.signers, ∀ sig, signer.sign id code = some sig →
    ∀ op ∈ code.operations, op.data ≠ sig

/-- The signatures that are made for a template. -/
def signatures (signer : Signer) (code : Script) (t : Template) : List Bytes :=
  (t.signers.filterMap (signer.sign · code)).take t.required

/-- What is pushed for a template. -/
def items (signer : Signer) (code : Script) (t : Template) : List Bytes :=
  match t with
  | .multisig _ _ => [] :: signer.signatures code t
  | .publicKeyHash id =>
    match signer.sign id code with
    | some sig => [sig, ((signer.store.publicKey? id).map PublicKey.bytes).getD []]
    | none => []
  | _ => signer.signatures code t

theorem addSignature_eq (h : signer.Sound code) :
    signer.addSignature code id s =
      .ok ⟨s.append (Script.ofPushes (signer.sign id code).toList).bytes,
        (signer.sign id code).isSome⟩ := by
  unfold addSignature
  cases hs : signer.sign id code with
  | none => simp
  | some sig =>
    dsimp only
    rw [Script.push_eq (Nat.le_trans (h.sized id sig hs).2 (by decide))]
    rfl

/-- Keys are tried in turn, and those that cannot sign are passed over. -/
theorem addSignatures_eq (h : signer.Sound code) (needed : Nat) (keys : List Bytes) (s : Script) :
    signer.addSignatures code needed keys s =
      .ok ⟨s.append (Script.ofPushes (signer.signatures code (.multisig needed keys))).bytes,
        needed ≤ (keys.map Hash.hash160).countP fun id => (signer.sign id code).isSome⟩ := by
  induction keys generalizing needed s with
  | nil => cases needed <;> simp [addSignatures, signatures, signers]
  | cons key keys ih =>
    cases needed with
    | zero => simp [addSignatures, signatures, required]
    | succ needed =>
      rw [addSignatures, addSignature_eq h]
      change signer.addSignatures code (if _ then needed else needed + 1) keys _ = _
      rw [ih]
      -- A key that signs leaves one signature fewer to find; another one changes nothing.
      cases hs : signer.sign (Hash.hash160 key) code with
      | none => simp [signatures, signers, required, hs]
      | some sig => simp [signatures, signers, required, hs]

theorem Sound.exists_signature (h : signer.Sound code) (hk : (signer.store.key? id).isSome = true) :
    ∃ sig, signer.sign id code = some sig :=
  Option.isSome_iff_exists.mp ((h.signs id).trans hk)

theorem Sound.exists_key (h : signer.Sound code) (hs : signer.sign id code = some sig) :
    ∃ key, signer.store.key? id = some key := by
  rw [← Option.isSome_iff_exists, ← h.signs, hs]
  rfl

theorem Sound.holds_eq (h : signer.Sound code) (t : Template) :
    signer.store.holds t =
      decide (t.required ≤ t.signers.countP fun id => (signer.sign id code).isSome) := by
  simp only [KeyStore.holds, h.signs]

/-- What is pushed is written down whether or not it is enough. -/
theorem attempt_eq (h : signer.Sound code) (ht : AsksKeys code t) :
    signer.attempt code t =
      .ok ⟨Script.ofPushes (signer.items code t), signer.store.holds t⟩ := by
  rw [h.holds_eq]
  cases ht with
  | @publicKey key hp =>
    rw [attempt, addSignature_eq h]
    cases hs : signer.sign (Hash.hash160 key) code <;>
      simp [items, signatures, signers, required, hs, Script.append, Script.empty]
  | @publicKeyHash hash hp =>
    rw [attempt, addSignature_eq h]
    cases hs : signer.sign hash code with
    | none => simp [items, signers, required, hs, Script.append, Script.empty, bind, Except.bind, pure,
        Except.pure]
    | some sig =>
      obtain ⟨key, hkey⟩ := h.exists_key hs
      have hl := key.publicKey.length_bytes
      simp only [KeyStore.publicKey?, hkey, Option.map_some, Option.getD_some]
      change (Script.push _ _ >>= _) = _
      rw [Script.push_eq (by omega), Script.append_ofPushes]
      simp [items, signers, required, hs, hkey, KeyStore.publicKey?, Script.append, Script.empty, bind,
        Except.bind, pure, Except.pure]
  | @multisig required keys hm =>
    rw [attempt, addSignatures_eq h]
    rfl

theorem mem_signatures (h : sig ∈ signer.signatures code t) :
    ∃ id ∈ t.signers, signer.sign id code = some sig :=
  List.mem_filterMap.mp (List.mem_of_mem_take h)

theorem length_signatures (h : signer.Sound code) (hk : signer.store.holds t = true) :
    (signer.signatures code t).length = t.required := by
  rw [h.holds_eq, decide_eq_true_eq] at hk
  rw [signatures, List.length_take, List.length_filterMap_eq_countP]
  exact Nat.min_eq_left hk

/-- With enough keys, what is pushed for a template solves the script. -/
theorem solves_items (h : signer.Sound code) (ht : AsksKeys code t) (hn : signer.store.Named)
    (ha : signer.Admitted flags code t) (hk : signer.store.holds t = true) :
    Solves ⟨flags, signer.checker, Spend.maxOps⟩ code (signer.items code t) := by
  have hl {id : FixedBytes 20} {sig : Bytes} (hs : signer.sign id code = some sig) :
      2 ≤ sig.length ∧ sig.length ≤ Fault.maxItem :=
    ⟨Nat.le_trans (by decide) (h.sized id sig hs).1, Nat.le_trans (h.sized id sig hs).2 (by decide)⟩
  have habsent {id : FixedBytes 20} {sig : Bytes} (hid : id ∈ t.signers)
      (hs : signer.sign id code = some sig) : Operation.pushing sig ∉ code.operations :=
    fun hmem => ha.apart id hid sig hs _ hmem rfl
  cases ht with
  | @publicKey key hp =>
    have hid : Hash.hash160 key ∈ signers (.publicKey key) := List.mem_singleton_self _
    obtain ⟨sig, hs⟩ := h.exists_signature (KeyStore.isSome_of_holds hk rfl rfl)
    have hitems : signer.items code (.publicKey key) = [sig] := by
      simp [items, signatures, signers, required, hs]
    rw [hitems]
    exact hp.solves (hl hs) (ha.signatures _ hid sig hs) (ha.keys key (List.mem_singleton_self _))
      (habsent hid hs) (h.good _ sig key hs rfl) (by decide : 1 ≤ Spend.maxOps)
  | @publicKeyHash hash hp =>
    have hid : hash ∈ signers (.publicKeyHash hash) := List.mem_singleton_self _
    obtain ⟨sig, hs⟩ := h.exists_signature (KeyStore.isSome_of_holds hk rfl rfl)
    obtain ⟨key, hkey⟩ := h.exists_key hs
    have hitems : signer.items code (.publicKeyHash hash) = [sig, key.publicKey.bytes] := by
      simp [items, hs, KeyStore.publicKey?, hkey]
    have hchecked : key.publicKey.bytes ∈ signer.store.checkedKeys (.publicKeyHash hash) := by
      simp [KeyStore.checkedKeys, KeyStore.publicKey?, hkey]
    have hhash : Hash.hash160 key.publicKey.bytes = hash := hn.keys hash key hkey
    have hlength : 2 ≤ key.publicKey.bytes.length ∧ key.publicKey.bytes.length ≤ 520 := by
      have hlength := key.publicKey.length_bytes
      omega
    rw [hitems]
    exact Script.solves_payTo_key (hl hs) (ha.signatures _ hid sig hs) (ha.keys _ hchecked)
      (habsent hid hs) (h.good _ sig _ hs hhash) hp (by decide : 4 ≤ Spend.maxOps) hlength
      hhash
  | @multisig required keys hm =>
    have hmade {sig : Bytes} (hsig : sig ∈ signer.signatures code (.multisig required keys)) :=
      mem_signatures hsig
    refine hm.solves_of_assigns (length_signatures h hk) hm.affordable ?_ ?_ ?_ ha.keys ?_
    · intro sig hsig
      obtain ⟨id, -, hs⟩ := hmade hsig
      exact (hl hs).2
    · intro _ sig hsig
      obtain ⟨id, -, hs⟩ := hmade hsig
      exact Operation.isCoded_of_length (hl hs).1
    · intro sig hsig
      obtain ⟨id, hid, hs⟩ := hmade hsig
      exact ⟨fun hkey => habsent hid hs (hm.pushing_mem_iff.mpr hkey), ha.signatures id hid sig hs⟩
    · rw [signatures, signers, List.filterMap_map]
      exact Signing.Multisig.sublistForall₂_take
        (Signing.Multisig.sublistForall₂_filterMap fun key sig hs => h.good _ sig key hs rfl) _

/-- An unlocking script that spends is handed over. -/
theorem verified_of_accepts {unlocking : Script}
    (h : Accepts ⟨flags, signer.checker, Spend.maxOps⟩ unlocking locking) :
    signer.verified locking flags unlocking = .ok unlocking := by
  obtain ⟨cost, hv⟩ := h
  rw [verified, hv]

/-- For a script that reveals no other one, the attempt is the unlocking script. -/
theorem unlock_plain (h : signer.Sound code) (ht : AsksKeys code t) :
    signer.unlock code flags =
      if signer.store.holds t then signer.verified code flags (Script.ofPushes (signer.items code t))
      else .error (.incomplete (Script.ofPushes (signer.items code t)) (.output t)) := by
  simp only [unlock, ht.recognized, attempt_eq h ht, ht.isScriptHash_eq, liftScript, Except.mapError,
    bind, Except.bind, pure, Except.pure]
  rfl

/-- A revealed script comes on top of the attempt for it. -/
theorem unlockRevealed_eq (h : signer.Sound code) (ht : AsksKeys code t)
    (hl : code.length ≤ Fault.maxItem) :
    signer.unlockRevealed code flags =
      if signer.store.holds t then .ok (Script.ofPushes (signer.items code t ++ [code.bytes]))
      else .error (.incomplete (Script.ofPushes (signer.items code t ++ [code.bytes]))
        (.revealed t)) := by
  have hpush : (Script.ofPushes (signer.items code t)).push code.bytes =
      .ok (Script.ofPushes (signer.items code t ++ [code.bytes])) := by
    rw [Script.push_eq (Nat.le_trans hl (by decide)), Script.ofPushes_append]
  simp only [unlockRevealed, ht.recognized, attempt_eq h ht, ht.isScriptHash_eq, liftScript,
    Except.mapError, bind, Except.bind, pure, Except.pure, hpush, Bool.not_false, Bool.and_true]
  rfl

theorem unlock_scriptHash {hash : FixedBytes 20}
    (hs : signer.store.script? (.short hash) = some code) :
    signer.unlock (Script.payTo (.script (.short hash))) flags =
      (signer.unlockRevealed code flags).bind
        (signer.verified (Script.payTo (.script (.short hash))) flags) := by
  have hattempt : signer.attempt (Script.payTo (.script (.short hash)))
      (.scriptHash (.short hash)) = .ok ⟨code, true⟩ := by
    rw [attempt, hs]
  simp only [unlock, recognized_payTo_script, hattempt]
  rfl

/-- A script locks an output itself, or through its hash where the store knows the script and it is
short enough to be pushed. -/
inductive Locks (store : KeyStore) (code : Script) : Script → Prop
  | plain : Locks store code code
  | revealed {hash : FixedBytes 20} (hs : store.script? (.short hash) = some code)
    (hl : code.length ≤ Fault.maxItem) : Locks store code (Script.payTo (.script (.short hash)))

/-- A signer that signs with the keys in its store finishes the unlocking script exactly if there are
keys in it for as many signatures as are asked for, whether the output has the script that asks or
only its hash. Otherwise it hands back what it could do. -/
theorem unlock_iff_holds {signer : Signer} {flags : Flags} {code locking : Script} {t : Template}
    (hstore : signer.store.Built) (ht : AsksKeys code t) (hl : Locks signer.store code locking)
    (hsound : signer.Sound code) (hadmitted : signer.Admitted flags code t)
    (hclean : flags.has .cleanStack = true → flags.has .p2sh = true) :
    ((∃ unlocking, signer.unlock locking flags = .ok unlocking) ↔ signer.store.holds t = true) ∧
      (signer.store.holds t = false → ∃ unlocking why,
        signer.unlock locking flags = .error (.incomplete unlocking why)) := by
  have hsolves (hk : signer.store.holds t = true) :=
    solves_items hsound ht hstore.named hadmitted hk
  cases hk : signer.store.holds t with
  | true =>
    refine ⟨iff_of_true ?_ rfl, fun h => Bool.noConfusion h⟩
    cases hl with
    | plain =>
      have hplain : (flags.has .p2sh && code.isP2sh flags) = false := by
        rw [isP2sh_eq_false ht.recognized ht.isScriptHash_eq, Bool.and_false]
      rw [unlock_plain hsound ht, hk, if_pos rfl]
      exact ⟨_, verified_of_accepts ((hsolves hk).accepts hplain hclean)⟩
    | @revealed hash hs hl =>
      -- Under a short name there is only a script with that short hash.
      have hname : ScriptId.short hash = .shortOf code :=
        (hstore.named.scripts _ _ hs).resolve_right (fun h => nomatch h)
      rw [unlock_scriptHash hs, unlockRevealed_eq hsound ht hl, hk, if_pos rfl, hname]
      exact ⟨_, verified_of_accepts ((hsolves hk).accepts_revealed (by decide : 2 ≤ Spend.maxOps) hl
        (Operation.isCoded_of_length ht.two_le_length) hclean)⟩
  | false =>
    have hincomplete : ∃ unlocking why,
        signer.unlock locking flags = .error (.incomplete unlocking why) := by
      cases hl with
      | plain =>
        rw [unlock_plain hsound ht, hk, if_neg Bool.false_ne_true]
        exact ⟨_, _, rfl⟩
      | @revealed hash hs hl =>
        rw [unlock_scriptHash hs, unlockRevealed_eq hsound ht hl, hk, if_neg Bool.false_ne_true]
        exact ⟨_, _, rfl⟩
    refine ⟨iff_of_false (fun h => ?_) Bool.false_ne_true, fun _ => hincomplete⟩
    obtain ⟨unlocking, hu⟩ := h
    obtain ⟨unlocking', why, hi⟩ := hincomplete
    rw [hu] at hi
    cases hi

/-- One of two keys is enough for the hash of a script that asks for one signature, and is not enough
where it asks for two. -/
theorem unlock_iff_holds_one_of_two :
    let one : PrivateKey secp256k1 := ⟨1, by decide, by decide, true⟩
    let keys : List Bytes := [2 :: List.replicate 32 7, one.publicKey.bytes]
    let code (required : Nat) : Script :=
      .ofOperations (multisigPushes required keys ++ [⟨Opcode.checkMultisig, []⟩])
    let signer (required : Nat) : Signer :=
      placeholding ((({} : KeyStore).addKey one).addScript (code required))
    let locking (required : Nat) : Script := .payTo (.script (.shortOf (code required)))
    let flags : Flags := .ofList [.p2sh, .cleanStack, .strictEncoding, .minimalData, .nullFail]
    (∃ unlocking, (signer 1).unlock (locking 1) flags = .ok unlocking) ∧
      ∃ unlocking why, (signer 2).unlock (locking 2) flags = .error (.incomplete unlocking why) := by
  intro one keys code signer locking flags
  have hkeys : ∀ key ∈ keys, PublicKey.hasAnnouncedLength key = true ∧
      Encoding.checkKey flags key = .ok () := by decide +kernel
  have hplaceholder : Encoding.checkOrderedSignature flags placeholder = .ok () := by decide +kernel
  have hmultisig (required : Nat) (h : 0 < required ∧ required ≤ 2) :
      IsMultisig (code required) required keys :=
    ⟨fun key hkey => (hkeys key hkey).1, h.1, h.2, by decide, rfl⟩
  have hadmitted (required : Nat) (h : 0 < required ∧ required ≤ 2) :
      (signer required).Admitted flags (code required) (.multisig required keys) := by
    refine ⟨fun id _ sig hs => (placeholding_sign hs).2 ▸ hplaceholder,
      fun key hkey => (hkeys key hkey).2, fun id _ sig hs op hop he => ?_⟩
    -- The script pushes keys only, and they are shorter than the placeholder.
    have hlong : op.data.length = 72 := by
      rw [he, (placeholding_sign hs).2]
      rfl
    rw [(hmultisig required h).operations_eq] at hop
    rcases List.mem_append.mp hop with hop | hop
    · have hshort := ((hmultisig required h).pushes true op hop).2.2
      omega
    · rw [List.mem_singleton.mp hop] at hlong
      cases hlong
  have hunlock (required : Nat) (h : 0 < required ∧ required ≤ 2)
      (hsize : (code required).length ≤ Fault.maxItem) :=
    unlock_iff_holds (.addScript _ (.addKey one .empty)) (.multisig (hmultisig required h))
      (.revealed (KeyStore.script?_addScript _ _) hsize) (sound_placeholding _ _)
      (hadmitted required h) (fun _ => by decide)
  obtain ⟨hone, -⟩ := hunlock 1 (by decide) (by decide +kernel)
  obtain ⟨-, htwo⟩ := hunlock 2 (by decide) (by decide +kernel)
  exact ⟨hone.mpr (by decide +kernel), htwo (by decide +kernel)⟩

end Signer

end CoinScript
