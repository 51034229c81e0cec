import CoinScript.Proofs.MultisigRuns
import CoinScript.Proofs.ResourceBounds
import CoinScript.Wallet.Combine

namespace CoinScript

namespace Combine

open List (SublistForall₂)

variable {fits : Bytes → Bytes → Bool} {keys sigs : List Bytes} {given : List (Bytes × Bytes)}
  {sig key : Bytes} {a b : Stack} {required : Nat}

/-- No item is a signature for two of the keys. -/
def Unshared (fits : (sig key : Bytes) → Bool) (keys : List Bytes) (found : Stack) : Prop :=
  ∀ item ∈ found, item ≠ [] → ∀ key ∈ keys, ∀ key' ∈ keys, fits item key = true →
    fits item key' = true → key = key'

instance (fits : (sig key : Bytes) → Bool) (keys : List Bytes) (found : Stack) :
    Decidable (Unshared fits keys found) :=
  inferInstanceAs (Decidable (∀ item ∈ found, item ≠ [] → ∀ key ∈ keys, ∀ key' ∈ keys,
    fits item key = true → fits item key' = true → key = key'))

theorem mem_candidates : sig ∈ candidates a b ↔ sig ≠ [] ∧ sig ∈ a ++ b := by
  simp only [candidates, List.mem_eraseDups, List.mem_mergeSort, List.mem_filter, decide_eq_true_eq]
  exact and_comm

/-- The key that takes a signature. -/
theorem taker_spec
    (h : keys.find? (fun key => (given.lookup key).isNone && fits sig key) = some key) :
    key ∈ keys ∧ given.lookup key = none ∧ fits sig key = true := by
  have hp := List.find?_some h
  rw [Bool.and_eq_true, Option.isNone_iff_eq_none] at hp
  exact ⟨List.mem_of_find?_eq_some h, hp⟩

/-- Whoever has a signature keeps it. -/
theorem lookup_assign (h : given.lookup key = some sig) :
    (assign fits keys given sigs).lookup key = some sig := by
  fun_induction assign fits keys given sigs with
  | case1 => exact h
  | case2 given sig' sigs key' hfound ih =>
    apply ih
    have hfree := (taker_spec hfound).2.1
    have hne : key ≠ key' := by
      rintro rfl
      rw [h] at hfree
      cases hfree
    rw [List.lookup_cons, beq_false_of_ne hne]
    exact h
  | case3 given sig' sigs hnone ih => exact ih h

/-- Every signature that is given fits its key and comes from those that are to be given. -/
theorem fits_of_assign {P : Bytes → Bytes → Prop}
    (hg : ∀ key sig, given.lookup key = some sig → P sig key)
    (hs : ∀ sig ∈ sigs, ∀ key ∈ keys, fits sig key = true → P sig key) :
    ∀ key sig, (assign fits keys given sigs).lookup key = some sig → P sig key := by
  fun_induction assign fits keys given sigs with
  | case1 => exact hg
  | case2 given sig' sigs key' hfound ih =>
    obtain ⟨hsig, hsigs⟩ := List.forall_mem_cons.mp hs
    refine ih (fun key sig h => ?_) hsigs
    rw [List.lookup_cons] at h
    split at h
    · next hk =>
      cases h
      obtain rfl := beq_iff_eq.mp hk
      obtain ⟨hmem, -, hfits⟩ := taker_spec hfound
      exact hsig key hmem hfits
    · exact hg key sig h
  | case3 given sig' sigs hnone ih => exact ih hg (List.forall_mem_cons.mp hs).2

/-- Where no signature fits two keys, a key that a signature fits ends up with one. A signature is
passed over only where all keys that it fits have one already. -/
theorem assign_complete
    (hu : ∀ sig ∈ sigs, ∀ key ∈ keys, ∀ key' ∈ keys, fits sig key = true → fits sig key' = true →
      key = key') (hsig : sig ∈ sigs) (hkey : key ∈ keys) (hf : fits sig key = true) :
    ∃ sig', (assign fits keys given sigs).lookup key = some sig' := by
  induction sigs generalizing given with
  | nil => cases hsig
  | cons first sigs ih =>
    obtain ⟨hfirst, hu⟩ := List.forall_mem_cons.mp hu
    rw [assign]
    rcases List.mem_cons.mp hsig with rfl | hsig
    · split
      · next key' hfound =>
        obtain ⟨hmem, -, hfits⟩ := taker_spec hfound
        obtain rfl := hfirst key hkey key' hmem hf hfits
        exact ⟨sig, lookup_assign (by simp)⟩
      · next hnone =>
        cases hg : given.lookup key with
        | none =>
          have hfree := List.find?_eq_none.mp hnone key hkey
          simp [hg, hf] at hfree
        | some sig' => exact ⟨sig', lookup_assign hg⟩
    · split
      · exact ih hu hsig
      · exact ih hu hsig

/-- The signatures that are found, in the order of their keys. -/
def chosen (fits : (sig key : Bytes) → Bool) (required : Nat) (keys : List Bytes) (a b : Stack) :
    List Bytes :=
  (keys.filterMap fun key => (assign fits keys [] (candidates a b)).lookup key).take required

theorem length_chosen_le : (chosen fits required keys a b).length ≤ required :=
  List.length_take_le _ _

theorem found_spec (h : (assign fits keys [] (candidates a b)).lookup key = some sig) :
    fits sig key = true ∧ sig ≠ [] ∧ sig ∈ a ++ b :=
  fits_of_assign (P := fun sig key => fits sig key = true ∧ sig ≠ [] ∧ sig ∈ a ++ b)
    (fun _ _ h => by cases h) (fun _ hs _ _ hf => ⟨hf, mem_candidates.mp hs⟩) key sig h

theorem mem_chosen (h : sig ∈ chosen fits required keys a b) : sig ≠ [] ∧ sig ∈ a ++ b := by
  obtain ⟨key, -, hfound⟩ := List.mem_filterMap.mp (List.mem_of_mem_take h)
  exact (found_spec hfound).2

theorem chosen_fits (required : Nat) (keys : List Bytes) (a b : Stack) :
    SublistForall₂ (fun sig key => fits sig key = true) (chosen fits required keys a b) keys :=
  Signing.Multisig.sublistForall₂_take
    (Signing.Multisig.sublistForall₂_filterMap fun _ _ h => (found_spec h).1) required

/-- Where no item is good for two keys, no key goes without a signature that could have one. -/
theorem length_chosen (hu : Unshared fits keys (a ++ b)) :
    (chosen fits required keys a b).length =
      min required (keys.countP fun key => (a ++ b).any fun item => item != [] && fits item key) := by
  rw [chosen, List.length_take, List.length_filterMap_eq_countP]
  congr 1
  apply List.countP_congr
  intro key hkey
  rw [Option.isSome_iff_exists]
  simp only [List.any_eq_true, Bool.and_eq_true, bne_iff_ne]
  constructor
  · intro h
    obtain ⟨sig, hfound⟩ := h
    obtain ⟨hf, hne, hmem⟩ := found_spec hfound
    exact ⟨sig, hmem, hne, hf⟩
  · intro h
    obtain ⟨sig, hmem, hne, hf⟩ := h
    refine assign_complete (fun sig hs => ?_) (mem_candidates.mpr ⟨hne, hmem⟩) hkey hf
    obtain ⟨hne, hmem⟩ := mem_candidates.mp hs
    exact hu sig hmem hne

/-- The script that comes of it pushes a dummy, the signatures and a zero for each one missing. -/
theorem multisig_eq (h : Stack.Fits (a ++ b)) :
    multisig required keys fits a b = .ok (Script.ofPushes ([] :: (chosen fits required keys a b ++
      List.replicate (required - (chosen fits required keys a b).length) []))) := by
  have hpush : Script.pushAll ⟨[Opcode.zero]⟩ (chosen fits required keys a b) =
      .ok (Script.append ⟨[Opcode.zero]⟩ (Script.ofPushes (chosen fits required keys a b)).bytes) :=
    Script.pushAll_eq fun sig hsig => h.pushable (mem_chosen hsig).2
  have hzero : (Operation.pushing []).bytes = [Opcode.zero] := rfl
  change (Script.pushAll ⟨[Opcode.zero]⟩ (chosen fits required keys a b) >>= fun s =>
    pure (s.append (List.replicate (required - (chosen fits required keys a b).length)
      Opcode.zero))) = _
  rw [hpush]
  refine congrArg Except.ok (Script.eq_iff_bytes.mpr ?_)
  simp [Script.append, Script.ofPushes, Script.ofOperations, hzero, List.flatMap_replicate]

/-- What a script leaves are items that a stack may hold, also where the script fails. -/
theorem items_fit (s : Script) : Stack.Fits (items s) := by
  let ctx : Context := ⟨.only .strictEncoding, .none, Spend.maxOps⟩
  have hitems : items s = (finalState (Machine.eval ctx s (.ofStack []))).state.main := by
    unfold items evalScript
    cases Machine.eval ctx s (.ofStack []) <;> rfl
  have hstart : Machine.Bounded ctx ((Machine.ofStack []).started s) :=
    .started ⟨Nat.zero_le _, List.forall_mem_nil _, List.forall_mem_nil _⟩
  rw [hitems]
  by_cases hl : s.length ≤ Script.maxLength
  · rw [Machine.eval_final hl]
    rcases Machine.exists_steps ctx ((Machine.ofStack []).started s) with
      ⟨trail, t, hs, -, hr⟩ | ⟨trail, t, fault, t', hs, he, hr⟩
    · rw [finalState_of_ok hr]
      exact (hs.invariant (fun _ _ _ _ hn hp hb => hb.step hn hp) hstart).within.main
    · rw [finalState_of_error hr]
      exact ((hs.invariant (fun _ _ _ _ hn hp hb => hb.step hn hp) hstart).step_error he).1.main
  · rw [Machine.eval_of_too_long hl]
    exact List.forall_mem_nil _

/-- Without rules on spellings, every signature is admitted that has not the Schnorr length. -/
theorem admitted_none (h : sig.length ≠ 65) : Encoding.checkOrderedSignature .none sig = .ok () := by
  have hder : Encoding.checkDer .none sig.dropLast (some (.ofSignature sig)) = .ok () := rfl
  unfold Encoding.checkOrderedSignature Encoding.checkSignature
  have hlength : sig.length ≠ Schnorr.signatureLength + 1 := h
  rw [if_neg hlength, if_neg hlength, hder, ite_self]

/-- Merging for a multisignature gives a zero, signatures, and a zero for each one missing. The
signatures are items of the two scripts, they are not empty, and in their order they are good for
keys in the order of these. Where no item is good for two keys, as many keys have signed as can have,
up to those that are required. If none is missing, the script spends the output under no rules, as
long as no signature has the Schnorr length or is one of the keys. -/
theorem merged_multisig (flags : Flags) (checker : Checker) (locking a b : Script) (required : Nat)
    (keys : List Bytes) (h : Template.ofScript flags locking = .multisig required keys) :
    let fits := fun sig key => checker.signature sig key locking
    let found := items a ++ items b
    ∃ sigs merged, unlocking flags checker locking a b = .ok merged ∧
      merged = Script.ofPushes ([] :: (sigs ++ List.replicate (required - sigs.length) [])) ∧
      sigs.length ≤ required ∧ (∀ sig ∈ sigs, sig ≠ [] ∧ sig ∈ found) ∧
      Signing.Multisig.Assigns fits ⟨keys, sigs, []⟩ ∧
      (Unshared fits keys found →
        sigs.length =
          min required (keys.countP fun key => found.any fun item => item != [] && fits item key)) ∧
      (sigs.length = required → (∀ sig ∈ sigs, sig.length ≠ 65 ∧ sig ∉ keys) →
        Accepts ⟨.none, checker, Spend.maxOps⟩ merged locking) := by
  intro fits found
  have hm := Template.multisig_shape h
  have hfit : Stack.Fits found := by
    intro item hitem
    rcases List.mem_append.mp hitem with hi | hi
    · exact items_fit a item hi
    · exact items_fit b item hi
  have hmerge : unlocking flags checker locking a b =
      multisig required keys fits (items a) (items b) := by
    rw [unlocking, merge.eq_def, h]
  refine ⟨chosen fits required keys (items a) (items b), _, ?_, rfl, length_chosen_le,
    fun sig => mem_chosen, Signing.Multisig.assigns_iff.mpr (chosen_fits required keys _ _),
    length_chosen, ?_⟩
  · rw [hmerge, multisig_eq hfit]
  · generalize hsigs : chosen fits required keys (items a) (items b) = sigs
    intro hlength hadmitted
    rw [hlength, Nat.sub_self, List.replicate_zero, List.append_nil]
    refine hm.accepts_of_assigns hlength ?_ ?_ ?_ ?_ ?_ ?_ ?_ ?_
    · exact Nat.le_trans (Nat.succ_le_succ hm.keys_le) (by decide : 17 ≤ Spend.maxOps)
    · simp
    · simp
    · intro sig hsig
      rw [← hsigs] at hsig
      exact hfit sig (mem_chosen hsig).2
    · intro hminimal
      simp [Context.minimal] at hminimal
    · intro sig hsig
      exact ⟨(hadmitted sig hsig).2, admitted_none (hadmitted sig hsig).1⟩
    · intro key hkey
      simp [Encoding.checkKey, Encoding.demand, bind, Except.bind]
    · rw [← hsigs]
      exact chosen_fits required keys _ _

/-- Two scripts with one signature each, for the third and for the first of three keys, where a
signature is good for the keys that end with it. -/
theorem merged_multisig_two_of_three :
    let key (n : UInt8) : Bytes := 2 :: List.replicate 32 n
    let locking : Script := ⟨[0x52, 33] ++ key 1 ++ [33] ++ key 2 ++ [33] ++ key 3 ++ [0x53, 0xae]⟩
    let checker : Checker := { signature := fun sig key _ => sig.isSuffixOf key }
    Template.ofScript .none locking = .multisig 2 [key 1, key 2, key 3] ∧
      ∃ merged, unlocking .none checker locking ⟨[0x00, 2, 3, 3]⟩ ⟨[0x00, 3, 1, 1, 1]⟩ = .ok merged ∧
        Accepts ⟨.none, checker, Spend.maxOps⟩ merged locking := by
  intro key locking checker
  have ht : Template.ofScript .none locking = .multisig 2 [key 1, key 2, key 3] := by decide +kernel
  have ha : items ⟨[0x00, 2, 3, 3]⟩ = [[3, 3], []] := by decide +kernel
  have hb : items ⟨[0x00, 3, 1, 1, 1]⟩ = [[1, 1, 1], []] := by decide +kernel
  obtain ⟨sigs, merged, hmerge, -, -, hmem, -, hcount, haccepts⟩ :=
    merged_multisig .none checker locking ⟨[0x00, 2, 3, 3]⟩ ⟨[0x00, 3, 1, 1, 1]⟩ 2 _ ht
  rw [ha, hb] at hmem hcount
  have hlength : sigs.length = 2 := (hcount (by decide)).trans (by decide)
  have hadmitted : ∀ sig ∈ [[3, 3], []] ++ [[1, 1, 1], []],
      sig.length ≠ 65 ∧ sig ∉ [key 1, key 2, key 3] := by decide
  exact ⟨ht, merged, hmerge, haccepts hlength fun sig hsig => hadmitted sig (hmem sig hsig).2⟩

end Combine

end CoinScript
