import CoinScript.Policy
import CoinScript.Proofs.MultisigRuns
import CoinScript.Proofs.SignatureEncoding
import CoinScript.Transaction.Spending
import CoinScript.Wallet.Combine

namespace CoinScript

namespace Encoding

variable {flags : Flags} {sig key : Bytes}

/-- A signature of another length than the Schnorr one is the code of a sequence and what is in it. -/
theorem sequence_of_admitted (hf : flags.has .strictEncoding = true)
    (h : checkSignature flags sig = .ok ()) (hne : sig ≠ []) (hl : sig.length ≠ 65) :
    ∃ size tag rest, sig = 0x30 :: size :: tag :: rest := by
  rcases checkSignature_ok.mp h with he | hs | hb
  · exact absurd he hne
  · exact absurd hs.length hl
  · have hstrict := hb.1.strict (.inr (.inr hf))
    match sig with
    | [] => exact absurd rfl hne
    | [_] => cases hstrict
    | head :: size :: rest =>
      rw [Der.isStrict, Option.isSome_iff_exists] at hstrict
      obtain ⟨found, hstrict⟩ := hstrict
      unfold Der.strict? at hstrict
      split at hstrict
      · next hd =>
        rw [List.dropLast_cons_of_ne_nil (List.cons_ne_nil _ _)] at hd
        obtain ⟨rfl, hmore⟩ := List.cons.inj hd
        cases rest with
        | nil => cases hmore
        | cons tag rest => exact ⟨size, tag, rest, rfl⟩
      · cases hstrict

/-- No number with a code of its own is a signature. -/
theorem isCoded_of_admitted (hf : flags.has .strictEncoding = true)
    (h : checkSignature flags sig = .ok ()) (hne : sig ≠ []) : Operation.isCoded sig = false := by
  by_cases hl : sig.length = 65
  · exact Operation.isCoded_of_length (by omega)
  · obtain ⟨size, tag, rest, rfl⟩ := sequence_of_admitted hf h hne hl
    rfl

theorem checkOrderedSignature_ok :
    checkOrderedSignature flags sig = .ok () ↔ sig.length ≠ 65 ∧ checkSignature flags sig = .ok () := by
  unfold checkOrderedSignature
  split
  · next hl =>
    have hl : sig.length = 65 := hl
    simp [hl]
  · next hl =>
    have hl : sig.length ≠ 65 := hl
    simp [hl]

/-- No key is a signature that is matched in order. -/
theorem announced_of_ordered (hf : flags.has .strictEncoding = true)
    (h : checkOrderedSignature flags sig = .ok ()) (hne : sig ≠ []) :
    PublicKey.hasAnnouncedLength sig = false := by
  obtain ⟨hl, h⟩ := checkOrderedSignature_ok.mp h
  obtain ⟨size, tag, rest, rfl⟩ := sequence_of_admitted hf h hne hl
  rfl

theorem checkKey_announced (hf : flags.has .strictEncoding = true)
    (h : checkKey flags key = .ok ()) : PublicKey.hasAnnouncedLength key = true := by
  obtain ⟨_, hk, -⟩ := except_bind_ok.mp h
  rw [demand_ok, hf, Bool.not_true, Bool.false_or, Bool.or_eq_true] at hk
  cases key with
  | nil => simp [isCompressed, isUncompressed] at hk
  | cons tag rest =>
    rw [PublicKey.hasAnnouncedLength, Bool.or_eq_true]
    refine hk.imp id fun h => ?_
    rw [isUncompressed, Bool.and_eq_true] at h
    rw [h.1, h.2]
    rfl

end Encoding

/-- Nothing is signed by an empty signature. -/
theorem Spending.signature_nonempty {s : Spending} {sig key : Bytes} {code : Script}
    (h : s.checker.signature sig key code = true) : sig ≠ [] := by
  rintro rfl
  have hnone : s.signed? [] key = none := by
    unfold signed?
    split <;> simp
  change s.signatureValid [] key code = true at h
  rw [signatureValid, hnone] at h
  cases h

namespace Signing.Multisig

open List (SublistForall₂)

variable {ctx : Context} {m : Multisig} {code : Script} {sigs keys : List Bytes}

theorem exists_key_of_mem {R : Bytes → Bytes → Prop} {sig : Bytes} (h : SublistForall₂ R sigs keys)
    (hs : sig ∈ sigs) : ∃ key ∈ keys, R sig key := by
  induction h with
  | nil => cases hs
  | @cons sig' key sigs keys hr _ ih =>
    rcases List.mem_cons.mp hs with rfl | hs
    · exact ⟨key, List.mem_cons_self, hr⟩
    · obtain ⟨key', hk, hr'⟩ := ih hs
      exact ⟨key', List.mem_cons_of_mem key hk, hr'⟩
  | cons_right _ ih =>
    obtain ⟨key, hk, hr⟩ := ih hs
    exact ⟨key, List.mem_cons_of_mem _ hk, hr⟩

/-- A search that finds something has tried every signature on a key that it fits. -/
theorem matchInOrder_true {fits : Bytes → Bytes → Except Fault Bool}
    (h : matchInOrder fits sigs keys = .ok true) :
    SublistForall₂ (fun sig key => fits sig key = .ok true) sigs keys := by
  induction keys generalizing sigs with
  | nil =>
    cases sigs with
    | nil => exact .nil
    | cons => cases h
  | cons key keys ih =>
    cases sigs with
    | nil => exact .nil
    | cons sig sigs =>
      obtain ⟨found, hf, h⟩ := except_bind_ok.mp h
      have hmore {n : Nat} {next : Except Fault Bool}
          (h : (if keys.length < n then .ok false else next) = .ok true) : next = .ok true := by
        split at h
        · cases h
        · exact h
      cases found with
      | true => exact .cons hf (ih (hmore h))
      | false => exact .cons_right (ih (hmore h))

theorem fitsInOrder_true {sig key : Bytes} (h : fitsInOrder ctx code sig key = .ok true) :
    Encoding.checkOrderedSignature ctx.flags sig = .ok () ∧ ctx.checker.signature sig key code = true := by
  obtain ⟨_, hs, h⟩ := except_bind_ok.mp h
  obtain ⟨_, -, h⟩ := except_bind_ok.mp h
  exact ⟨hs, except_pure_ok.mp h⟩

/-- Without a dummy that says otherwise, signatures are matched in order. -/
theorem run_true (h : m.run ctx code = .ok true) (hd : m.dummy = []) :
    SublistForall₂ (fun sig key => fitsInOrder ctx (m.orderedCode ctx.flags code) sig key = .ok true)
      m.signatures m.keys := by
  rw [run, isSelected_eq_false (.inr hd), if_neg Bool.false_ne_true] at h
  obtain ⟨success, hm, h⟩ := except_bind_ok.mp h
  obtain ⟨_, -, h⟩ := except_bind_ok.mp h
  obtain ⟨_, -, h⟩ := except_bind_ok.mp h
  obtain rfl := except_pure_ok.mp h
  exact matchInOrder_true hm

end Signing.Multisig

/-- What a spend is verified with to be passed on. -/
abbrev Policy.context (checker : Checker) : Context := ⟨standard, checker, Spend.maxOps⟩

/-- The rules that a spend need not satisfy to be passed on. -/
theorem Policy.has_standard (f : Flag) : standard.has f = true ↔
    f ∉ [.nullDummy, .minimalIf, .compressedKeys, .replayProtection, .reverseBytes, .p2sh32] := by
  cases f <;> decide

theorem Policy.minimal_context (checker : Checker) : (context checker).minimal = true :=
  (has_standard .minimalData).mpr (by decide)

/-- What is known of a spend that is passed on, apart from what a revealed script does. -/
structure Finished (checker : Checker) (unlocking locking : Script) (saved below : Stack) : Prop where
  pushOnly : unlocking.isPushOnly = true
  leaves : evalScript (Policy.context checker) unlocking [] = .ok () saved
  succeeds : ∃ top, Number.isTrue top = true ∧
    evalScript (Policy.context checker) locking saved = .ok () (top :: below)
  clean : locking.isP2sh Policy.standard = false → below = []

namespace Finished

open Signing Template

variable {checker : Checker} {unlocking locking : Script} {saved below : Stack}

theorem of_accepts (h : Accepts (Policy.context checker) unlocking locking) :
    ∃ saved below, Finished checker unlocking locking saved below := by
  obtain ⟨hp, saved, top, below, hu, hl, ht, hs⟩ := Spend.accepts_iff.mp h
  have hpush : Policy.standard.has .sigPushOnly = true := by decide
  have hclean : Policy.standard.has .cleanStack = true := by decide
  refine ⟨saved, below, hp hpush, hu, ⟨top, ht, hl⟩, fun hplain => ?_⟩
  rw [Spend.Settles, hplain, Bool.and_false, if_neg Bool.false_ne_true] at hs
  exact (hs hclean).2

/-- Where no script is revealed, nothing is left below the answer. -/
theorem clean_of_ofScript {t : Template} (h : Finished checker unlocking locking saved below)
    (ht : ofScript Policy.standard locking = t) (hp : t.isScriptHash = false) : below = [] :=
  h.clean (isP2sh_eq_false ht hp)

/-- What the one check of a spend tells about signature and key. -/
theorem checked_of_true {code : Script} {sig key top : Bytes} {success : Bool} {rest : Stack}
    (hc : checkOne (Policy.context checker) code sig key = .ok success)
    (ht : Number.isTrue top = true) (hleft : Number.ofBool success :: rest = top :: below)
    (hclean : below = []) :
    rest = [] ∧ sig ≠ [] ∧ Operation.isCoded sig = false ∧ Operation.isCoded key = false := by
  have hf : Policy.standard.has .strictEncoding = true := by decide
  obtain ⟨rfl, rfl⟩ := List.cons.inj hleft
  rw [Number.isTrue_ofBool] at ht
  obtain ⟨hsig, hkey, hgood, -⟩ := checkOne_ok.mp hc
  rw [ht, Bool.and_eq_true, bne_iff_ne] at hgood
  exact ⟨hclean, hgood.1, Encoding.isCoded_of_admitted hf hsig hgood.1,
    Operation.isCoded_of_announced (Encoding.checkKey_announced hf hkey)⟩

theorem publicKeyHash {hash : FixedBytes 20} (h : Finished checker unlocking locking saved below)
    (ht : ofScript Policy.standard locking = .publicKeyHash hash) :
    ∃ key sig, saved = [key, sig] ∧ sig ≠ [] ∧ Operation.isCoded sig = false ∧
      Operation.isCoded key = false := by
  have hclean := h.clean_of_ofScript ht rfl
  obtain ⟨top, htop, hl⟩ := h.succeeds
  rw [publicKeyHash_shape ht] at hl
  obtain ⟨-, key, sig, rest, success, rfl, -, -, hc, hleft⟩ := evalScript_keyHash_ok.mp hl
  obtain ⟨rfl, hgood⟩ := checked_of_true hc htop hleft hclean
  exact ⟨key, sig, rfl, hgood⟩

theorem publicKey {key : Bytes} (h : Finished checker unlocking locking saved below)
    (ht : ofScript Policy.standard locking = .publicKey key) :
    ∃ sig, saved = [sig] ∧ sig ≠ [] ∧ Operation.isCoded sig = false := by
  have hclean := h.clean_of_ofScript ht rfl
  obtain ⟨top, htop, hl⟩ := h.succeeds
  obtain ⟨-, -, sig, rest, success, rfl, hc, hleft⟩ := (publicKey_shape ht).evalScript_ok.mp hl
  obtain ⟨rfl, hne, hsig, -⟩ := checked_of_true hc htop hleft hclean
  exact ⟨sig, rfl, hne, hsig⟩

/-- A signature that is found good where signatures are matched in order. -/
structure Signs (sig : Bytes) (keys : List Bytes) : Prop where
  nonempty : sig ≠ []
  admitted : Encoding.checkOrderedSignature Policy.standard sig = .ok ()
  not_key : sig ∉ keys
  uncoded : Operation.isCoded sig = false

/-- Nothing but signatures and a dummy is left for a multisignature. -/
theorem multisig_run {required : Nat} {keys : List Bytes}
    (h : Finished checker unlocking locking saved below)
    (ht : ofScript Policy.standard locking = .multisig required keys) :
    ∃ sigs dummy, sigs.length = required ∧ saved = sigs ++ [dummy] ∧
      Multisig.run (Policy.context checker) locking ⟨keys.reverse, sigs, dummy⟩ = .ok true := by
  have hclean := h.clean_of_ofScript ht rfl
  obtain ⟨top, htop, hl⟩ := h.succeeds
  obtain ⟨-, -, sigs, dummy, rest, success, hlength, rfl, hrun, hleft⟩ := (multisig_shape ht).evalScript_ok.mp hl
  obtain ⟨rfl, rfl⟩ := List.cons.inj hleft
  rw [Number.isTrue_ofBool] at htop
  subst htop hclean
  exact ⟨sigs, dummy, hlength, rfl, hrun⟩

theorem multisig {required : Nat} {keys : List Bytes}
    (h : Finished checker unlocking locking saved below)
    (ht : ofScript Policy.standard locking = .multisig required keys)
    (hd : saved.getLast? = some [])
    (hc : ∀ sig key code, checker.signature sig key code = true → sig ≠ []) :
    ∃ sigs, saved = sigs.reverse ++ [[]] ∧ sigs.length = required ∧ (∀ sig ∈ sigs, Signs sig keys) ∧
      List.SublistForall₂ (fun sig key => checker.signature sig key locking = true) sigs keys := by
  have hm := multisig_shape ht
  obtain ⟨sigs, dummy, hlength, rfl, hrun⟩ := h.multisig_run ht
  obtain rfl : dummy = [] := by simpa using hd
  have hf : Policy.standard.has .strictEncoding = true := by decide
  have hmatch := Multisig.run_true hrun rfl
  have hsigns : ∀ sig ∈ sigs, Signs sig keys := by
    intro sig hsig
    obtain ⟨key, -, hfits⟩ := Multisig.exists_key_of_mem hmatch hsig
    obtain ⟨hs, hgood⟩ := Multisig.fitsInOrder_true hfits
    have hne := hc sig key _ hgood
    refine ⟨hne, hs, fun hkey => ?_, Encoding.isCoded_of_admitted hf
      (Encoding.checkOrderedSignature_ok.mp hs).2 hne⟩
    have hannounced := Encoding.announced_of_ordered hf hs hne
    rw [hm.keys_announced sig hkey] at hannounced
    cases hannounced
  have hcode : Multisig.orderedCode Policy.standard locking ⟨keys.reverse, sigs, []⟩ = locking :=
    hm.orderedCode_eq fun sig hsig => (hsigns sig hsig).not_key
  rw [hcode] at hmatch
  obtain ⟨chosen, hfits, hsub⟩ := List.sublistForall₂_iff.mp hmatch
  have hgood := List.sublistForall₂_iff.mpr
    ⟨chosen, hfits.imp fun _ _ h => (Multisig.fitsInOrder_true h).2, hsub⟩
  refine ⟨sigs.reverse, ?_, ?_, ?_, ?_⟩
  · rw [List.reverse_reverse]
  · rw [List.length_reverse, hlength]
  · simpa using hsigns
  · simpa using Multisig.sublistForall₂_reverse hgood

theorem not_label {length text : Bytes} (h : Finished checker unlocking locking saved below) :
    ofScript Policy.standard locking ≠ .label length text := by
  intro ht
  obtain ⟨rest, hbytes⟩ := label_shape ht
  obtain ⟨top, -, hl⟩ := h.succeeds
  obtain ⟨-, m, hr, -⟩ := evalScript_ok.mp hl
  rw [hbytes] at hr
  obtain ⟨-, st, hi, -⟩ := (Machine.run_instruction_ok (by decide) rfl rfl).mp hr
  cases hi

end Finished

end CoinScript
