import CoinScript.Proofs.CombinedMultisig
import CoinScript.Proofs.FinishedSpend

namespace CoinScript.Combine

open List (SublistForall₂)

variable {flags : Flags} {checker : Checker} {locking a : Script} {saved below : Stack}
  {required : Nat} {keys sigs : List Bytes}

/-- Whether a first script counts as empty because one of its items is: the revealed script, or the
lowest item where there is one signature. -/
def passedOver : Template → Stack → Bool
  | .scriptHash _, saved => saved.head? == some []
  | .publicKey _, saved => saved.getLast? == some []
  | .publicKeyHash _, saved => saved.getLast? == some []
  | .frozen _ _, saved => saved.getLast? == some []
  | _, _ => false

/-- What merging makes of the items of one script. -/
def alone (flags : Flags) (checker : Checker) (locking : Script) (saved : Stack) :
    Except ScriptFault Script :=
  match Template.ofScript flags locking with
  | .multisig required keys =>
    multisig required keys (fun sig key => checker.signature sig key locking) saved []
  | .label _ _ => .ok .empty
  | _ => pushItems saved

theorem candidates_nothing (saved : Stack) : candidates [] saved = candidates saved [] := by
  simp [candidates]

theorem topEmpty_reverse (h : saved ≠ []) :
    topEmpty saved.reverse = (saved.getLast? == some []) := by
  rw [List.getLast?_eq_head?_reverse]
  cases hs : saved.reverse with
  | nil => exact absurd (List.reverse_eq_nil_iff.mp hs) h
  | cons => rfl

/-- Whichever of the two is missing, the other is taken, but for a lowest item that is empty. -/
theorem lowest_nothing (saved : Stack) :
    (if topEmpty saved.reverse then [] else saved) =
      if saved.getLast? == some [] then [] else saved := by
  by_cases h : saved = []
  · subst h
    rfl
  · rw [topEmpty_reverse h]

theorem merge_nothing_first :
    merge flags checker locking [] saved = alone flags checker locking saved := by
  rw [merge.eq_def, alone]
  cases Template.ofScript flags locking with
  | nonStandard | data => cases saved <;> rfl
  | publicKey | publicKeyHash | frozen | label | scriptHash => rfl
  | multisig required keys => simp only [multisig, candidates_nothing]

theorem merge_nothing_second :
    merge flags checker locking saved [] =
      if passedOver (Template.ofScript flags locking) saved then .ok .empty
      else alone flags checker locking saved := by
  have hlowest : pushItems (if topEmpty saved.reverse then [] else saved) =
      if saved.getLast? == some [] then .ok .empty else pushItems saved := by
    rw [lowest_nothing]
    split <;> rfl
  rw [merge.eq_def, alone]
  cases Template.ofScript flags locking with
  | nonStandard | data | label | multisig => rfl
  | publicKey | publicKeyHash | frozen => exact hlowest
  | scriptHash =>
    cases saved with
    | nil => rfl
    | cons redeem below =>
      by_cases h : redeem = []
      · simp [passedOver, h]
        rfl
      · simp [passedOver, topEmpty, h]

theorem pushItems_of_fit (h : Stack.Fits saved) :
    pushItems saved = .ok (Script.ofPushes saved.reverse) :=
  Script.pushAll_eq fun _ hitem => h.pushable (List.mem_reverse.mp hitem)

theorem exists_alone (flags : Flags) (checker : Checker) (locking : Script) (h : Stack.Fits saved) :
    ∃ kept, alone flags checker locking saved = .ok kept := by
  rw [alone]
  cases Template.ofScript flags locking with
  | multisig required keys => exact ⟨_, multisig_eq (by simpa using h)⟩
  | label => exact ⟨_, rfl⟩
  | _ => exact ⟨_, pushItems_of_fit h⟩

theorem alone_multisig (ht : Template.ofScript flags locking = .multisig required keys)
    (h : Stack.Fits saved) :
    let given := chosen (fun sig key => checker.signature sig key locking) required keys saved []
    alone flags checker locking saved =
      .ok (Script.ofPushes ([] :: (given ++ List.replicate (required - given.length) []))) := by
  rw [alone, ht]
  exact multisig_eq (by simpa using h)

theorem items_empty : items .empty = [] := by
  decide +kernel

section Assigning

variable {R : Bytes → Bytes → Prop} {f : Bytes → Option Bytes} {sig key : Bytes}

/-- A signature with a key among the later ones has no use for another. -/
theorem not_fits_other (h : SublistForall₂ R sigs keys) (hk : key ∉ keys)
    (hu : ∀ sig ∈ sigs, ∀ k ∈ key :: keys, ∀ k' ∈ key :: keys, R sig k → R sig k' → k = k')
    (hs : sig ∈ sigs) : ¬ R sig key := by
  intro hr
  obtain ⟨key', hmem, hr'⟩ := Signing.Multisig.exists_key_of_mem h hs
  obtain rfl := hu sig hs key List.mem_cons_self key' (List.mem_cons_of_mem _ hmem) hr hr'
  exact hk hmem

/-- Where no key occurs twice and no signature fits two keys, there is one way of assigning all
signatures. By induction on an assignment: the key at its head is the only one for the signature
there, and a key that is skipped goes without. -/
theorem filterMap_eq_of_unique (h : SublistForall₂ R sigs keys) (hn : keys.Nodup)
    (hu : ∀ sig ∈ sigs, ∀ key ∈ keys, ∀ key' ∈ keys, R sig key → R sig key' → key = key')
    (hf : ∀ key ∈ keys, ∀ sig, f key = some sig → sig ∈ sigs ∧ R sig key)
    (hc : ∀ sig ∈ sigs, ∀ key ∈ keys, R sig key → ∃ sig', f key = some sig') :
    keys.filterMap f = sigs := by
  induction h with
  | nil =>
    refine List.filterMap_eq_nil_iff.mpr fun key hkey => ?_
    cases hs : f key with
    | none => rfl
    | some sig => exact absurd (hf key hkey sig hs).1 List.not_mem_nil
  | @cons sig key sigs keys hr hs ih =>
    obtain ⟨hk, hn⟩ := List.nodup_cons.mp hn
    obtain ⟨hfirst, hothers⟩ := List.forall_mem_cons.mp hu
    obtain ⟨found, hfound⟩ := hc sig List.mem_cons_self key List.mem_cons_self hr
    have heq : found = sig := by
      obtain ⟨hmem, hr'⟩ := hf key List.mem_cons_self found hfound
      refine (List.mem_cons.mp hmem).resolve_right fun hmem => ?_
      exact not_fits_other hs hk hothers hmem hr'
    rw [List.filterMap_cons_some (heq ▸ hfound)]
    refine congrArg _ (ih hn ?_ ?_ ?_)
    · intro sig hsig k hmem k' hmem'
      exact hothers sig hsig k (List.mem_cons_of_mem _ hmem) k' (List.mem_cons_of_mem _ hmem')
    · intro k hmem sig' hsig'
      obtain ⟨hs', hr'⟩ := hf k (List.mem_cons_of_mem _ hmem) sig' hsig'
      refine ⟨(List.mem_cons.mp hs').resolve_left ?_, hr'⟩
      rintro rfl
      obtain rfl := hfirst key List.mem_cons_self k (List.mem_cons_of_mem _ hmem) hr hr'
      exact hk hmem
    · intro sig hsig k hmem
      exact hc sig (List.mem_cons_of_mem _ hsig) k (List.mem_cons_of_mem _ hmem)
  | @cons_right key sigs keys hs ih =>
    obtain ⟨hk, hn⟩ := List.nodup_cons.mp hn
    have hnone : f key = none := by
      cases hsig : f key with
      | none => rfl
      | some sig =>
        obtain ⟨hmem, hr⟩ := hf key List.mem_cons_self sig hsig
        exact absurd hr (not_fits_other hs hk hu hmem)
    rw [List.filterMap_cons_none hnone]
    refine ih hn ?_ ?_ ?_
    · intro sig hsig k hmem k' hmem'
      exact hu sig hsig k (List.mem_cons_of_mem _ hmem) k' (List.mem_cons_of_mem _ hmem')
    · intro k hmem
      exact hf k (List.mem_cons_of_mem _ hmem)
    · intro sig hsig k hmem
      exact hc sig hsig k (List.mem_cons_of_mem _ hmem)

theorem length_le_countP {p : Bytes → Bool} (h : SublistForall₂ R sigs keys)
    (hp : ∀ sig ∈ sigs, ∀ key, R sig key → p key = true) : sigs.length ≤ keys.countP p := by
  induction h with
  | nil => exact Nat.zero_le _
  | cons hr _ ih =>
    obtain ⟨hfirst, hp⟩ := List.forall_mem_cons.mp hp
    rw [List.countP_cons_of_pos (hfirst _ hr)]
    exact Nat.succ_le_succ (ih hp)
  | cons_right _ ih => exact Nat.le_trans (ih hp) ((List.sublist_cons_self _ _).countP_le)

end Assigning

section Finished

variable {fits : Bytes → Bytes → Bool}

variable (hs : saved = sigs.reverse ++ [[]]) (hl : sigs.length = required)
  (hne : ∀ sig ∈ sigs, sig ≠ []) (hm : SublistForall₂ (fun sig key => fits sig key = true) sigs keys)
  (hu : Unshared fits keys saved)
include hs hl hne hm hu

theorem chosen_eq (hn : keys.Nodup) : chosen fits required keys saved [] = sigs := by
  have hmem {sig : Bytes} : sig ∈ saved ↔ sig ∈ sigs ∨ sig = [] := by simp [hs]
  have hkeys : (keys.filterMap fun key => (assign fits keys [] (candidates saved [])).lookup key) =
      sigs := by
    refine filterMap_eq_of_unique hm hn ?_ ?_ ?_
    · intro sig hsig
      exact hu sig (hmem.mpr (.inl hsig)) (hne sig hsig)
    · intro key hkey sig hfound
      obtain ⟨hf, hnonempty, hsig⟩ := found_spec hfound
      rw [List.append_nil] at hsig
      exact ⟨(hmem.mp hsig).resolve_right hnonempty, hf⟩
    · intro sig hsig key hkey hf
      refine assign_complete (fun item hitem => ?_) (mem_candidates.mpr ⟨hne sig hsig, ?_⟩) hkey hf
      · obtain ⟨hnonempty, hitem⟩ := mem_candidates.mp hitem
        rw [List.append_nil] at hitem
        exact hu item hitem hnonempty
      · rw [List.append_nil]
        exact hmem.mpr (.inl hsig)
  rw [chosen, hkeys, List.take_of_length_le (Nat.le_of_eq hl)]

theorem length_chosen_eq : (chosen fits required keys saved []).length = required := by
  let signed : Bytes → Bool := fun key => (saved ++ []).any fun item => item != [] && fits item key
  have hcount : required ≤ keys.countP signed := by
    rw [← hl]
    refine length_le_countP hm fun sig hsig key hf => ?_
    simp only [signed, List.append_nil, List.any_eq_true, Bool.and_eq_true, bne_iff_ne]
    exact ⟨sig, by simp [hs, hsig], hne sig hsig, hf⟩
  rw [length_chosen (by simpa using hu), Nat.min_eq_left hcount]

end Finished

end CoinScript.Combine

namespace CoinScript

open Combine

open List (SublistForall₂)

namespace Finished

variable {checker : Checker} {unlocking locking : Script} {saved below : Stack} {sigs keys : List Bytes}
  {required : Nat}

/-- The items are the same under the rules by which they are looked at. -/
theorem items_eq (h : Finished checker unlocking locking saved below) : items unlocking = saved := by
  rw [items, evalScript_of_pushOnly h.pushOnly (fun _ => Policy.minimal_context checker) h.leaves]

theorem fit (h : Finished checker unlocking locking saved below) : Stack.Fits saved :=
  h.items_eq ▸ items_fit unlocking

/-- Pushed again, items that are not numbers give the script that they were pushed by. -/
theorem eq_ofPushes (h : Finished checker unlocking locking saved below)
    (hc : ∀ item ∈ saved, Operation.isCoded item = false) :
    unlocking = Script.ofPushes saved.reverse := by
  have hops : saved.reverse.map Operation.pushing = saved.reverse.map Operation.ofItem := by
    refine List.map_congr_left fun item hitem => ?_
    have hitem := List.mem_reverse.mp hitem
    exact Operation.pushing_eq_ofItem (hc item hitem) (Nat.le_trans (h.fit item hitem) (by decide))
  rw [Script.ofPushes, hops, ← Script.eq_ofItems (Policy.minimal_context checker) h.pushOnly h.leaves]

/-- Where one signature is asked for, it is the lowest item, and nothing that is left is a number. -/
theorem one_signature (h : Finished checker unlocking locking saved below)
    (ht : (∃ key, Template.ofScript Policy.standard locking = .publicKey key) ∨
      ∃ hash, Template.ofScript Policy.standard locking = .publicKeyHash hash) :
    passedOver (Template.ofScript Policy.standard locking) saved = false ∧
      ∀ item ∈ saved, Operation.isCoded item = false := by
  rcases ht with ⟨key, ht⟩ | ⟨hash, ht⟩
  · obtain ⟨sig, rfl, hne, hsig⟩ := h.publicKey ht
    simp [ht, passedOver, hne, hsig]
  · obtain ⟨key, sig, rfl, hne, hsig, hkey⟩ := h.publicKeyHash ht
    simp [ht, passedOver, hne, hsig, hkey]

/-- The items are pushed again, unless they are signatures to be matched. -/
theorem alone_pushed (h : Finished checker unlocking locking saved below)
    (ht : ∀ required keys, Template.ofScript Policy.standard locking ≠ .multisig required keys) :
    alone Policy.standard checker locking saved = .ok (Script.ofPushes saved.reverse) := by
  rw [alone]
  cases hl : Template.ofScript Policy.standard locking with
  | multisig required keys => exact absurd hl (ht required keys)
  | label => exact absurd hl h.not_label
  | _ => exact pushItems_of_fit h.fit

/-- Signatures that are assigned anew spend the output as those before did, and where no key occurs
twice they are the same. -/
theorem multisig_kept (h : Finished checker unlocking locking saved below)
    (ha : Accepts (Policy.context checker) unlocking locking)
    (ht : Template.ofScript Policy.standard locking = .multisig required keys)
    (hd : saved.getLast? = some [])
    (hc : ∀ sig key code, checker.signature sig key code = true → sig ≠ [])
    (hu : Unshared (fun sig key => checker.signature sig key locking) keys saved)
    (hk : keys.Nodup ∨ ∀ key ∈ keys, Encoding.checkKey Policy.standard key = .ok ()) :
    ∃ kept, alone Policy.standard checker locking saved = .ok kept ∧
      Accepts (Policy.context checker) kept locking ∧ (keys.Nodup → kept = unlocking) := by
  obtain ⟨sigs, hs, hl, hsigns, hmatch⟩ := h.multisig ht hd hc
  have hm := Template.multisig_shape ht
  have hne : ∀ sig ∈ sigs, sig ≠ [] := fun sig hsig => (hsigns sig hsig).nonempty
  let given := chosen (fun sig key => checker.signature sig key locking) required keys saved []
  have hgiven : ∀ sig ∈ given, sig ∈ sigs ∧ sig ∈ saved := by
    intro sig hsig
    obtain ⟨hnonempty, hmem⟩ := mem_chosen hsig
    rw [List.append_nil] at hmem
    exact ⟨by simpa [hs, hnonempty] using hmem, hmem⟩
  have hlength : given.length = required := length_chosen_eq hs hl hne hmatch hu
  have halone : alone Policy.standard checker locking saved = .ok (Script.ofPushes ([] :: given)) := by
    have hpushed : alone Policy.standard checker locking saved =
        .ok (Script.ofPushes ([] :: (given ++ List.replicate (required - given.length) []))) :=
      alone_multisig ht h.fit
    rwa [hlength, Nat.sub_self, List.replicate_zero, List.append_nil] at hpushed
  have hsame (hn : keys.Nodup) : Script.ofPushes ([] :: given) = unlocking := by
    have hreverse : saved.reverse = [] :: sigs := by simp [hs]
    have hsigs : given = sigs := chosen_eq hs hl hne hmatch hu hn
    rw [hsigs, ← hreverse]
    refine (h.eq_ofPushes fun item hitem => ?_).symm
    have hitem : item ∈ sigs ∨ item = [] := by simpa [hs] using hitem
    rcases hitem with hsig | rfl
    · exact (hsigns item hsig).uncoded
    · rfl
  refine ⟨_, halone, ?_, hsame⟩
  rcases hk with hn | hk
  · rw [hsame hn]
    exact ha
  · have hp2sh : Policy.standard.has .p2sh = true := by decide
    refine hm.accepts_of_assigns hlength hm.affordable ?_ ?_ ?_ ?_ ?_ hk
      (chosen_fits required keys saved [])
    · rw [Template.isP2sh_eq_false ht rfl, Bool.and_false]
    · exact fun _ => hp2sh
    · exact fun sig hsig => h.fit sig (hgiven sig hsig).2
    · exact fun _ sig hsig => (hsigns sig (hgiven sig hsig).1).uncoded
    · intro sig hsig
      have hsign := hsigns sig (hgiven sig hsig).1
      exact ⟨hsign.not_key, hsign.admitted⟩

end Finished

namespace Combine

/-- A finished unlocking script that is merged with nothing gives a script, whichever of the two
comes first, except that a first script that is passed over leaves nothing. For a key or the hash of
a key this is the script itself, and for other templates, too, as long as no item is a number with a
code of its own. A multisignature that is matched in order stays finished where no item is good for
two keys, and no key occurs twice or all of them are spelled as they have to be. -/
theorem finished_spend_kept (s : Spending) (locking a : Script)
    (h : Accepts (Policy.context s.checker) a locking) :
    let merged := unlocking Policy.standard s.checker locking
    let t := Template.ofScript Policy.standard locking
    let fits := fun sig key => s.checker.signature sig key locking
    ∃ kept, merged .empty a = .ok kept ∧
      merged a .empty = .ok (if passedOver t (items a) then .empty else kept) ∧
      ((∃ key, t = .publicKey key) ∨ (∃ hash, t = .publicKeyHash hash) →
        passedOver t (items a) = false ∧ kept = a) ∧
      ((∀ required keys, t ≠ .multisig required keys) →
        (∀ item ∈ items a, Operation.isCoded item = false) → kept = a) ∧
      ∀ required keys, t = .multisig required keys → (items a).getLast? = some [] →
        Unshared fits keys (items a) →
        (keys.Nodup ∨ ∀ key ∈ keys, Encoding.checkKey Policy.standard key = .ok ()) →
        Accepts (Policy.context s.checker) kept locking ∧ (keys.Nodup → kept = a) := by
  intro merged t fits
  obtain ⟨saved, below, hfinished⟩ := Finished.of_accepts h
  obtain ⟨kept, halone⟩ := exists_alone Policy.standard s.checker locking hfinished.fit
  have hitems := hfinished.items_eq
  subst hitems
  have heq {other : Script} (ho : alone Policy.standard s.checker locking (items a) = .ok other) :
      kept = other := by
    rw [halone] at ho
    exact Except.ok.inj ho
  have heq_pushed (ht : ∀ required keys, t ≠ .multisig required keys)
      (hcoded : ∀ item ∈ items a, Operation.isCoded item = false) : kept = a := by
    rw [heq (hfinished.alone_pushed ht), ← hfinished.eq_ofPushes hcoded]
  refine ⟨kept, ?_, ?_, ?_, ?_, ?_⟩
  · change merge _ _ _ (items .empty) (items a) = _
    rw [items_empty, merge_nothing_first, halone]
  · change merge _ _ _ (items a) (items .empty) = _
    rw [items_empty, merge_nothing_second, halone]
    exact (apply_ite Except.ok _ _ _).symm
  · intro ht
    obtain ⟨hpassed, hcoded⟩ := hfinished.one_signature ht
    refine ⟨hpassed, heq_pushed (fun required keys hl => ?_) hcoded⟩
    rcases ht with ⟨_, ht⟩ | ⟨_, ht⟩ <;> exact absurd (ht.symm.trans hl) (by simp)
  · exact heq_pushed
  · intro required keys ht hd hu hk
    obtain ⟨other, ho, hspends⟩ := hfinished.multisig_kept h ht hd
      (fun _ _ _ => Spending.signature_nonempty) hu hk
    exact heq ho ▸ hspends

/-- A multisignature of one out of two keys, signed by the second. -/
theorem finished_spend_kept_one_of_two :
    let s : Spending := ⟨{ inputs := [{}], outputs := [{}] }, 0, 100000, .none⟩
    let first : Bytes :=
      2 :: Bytes.ofNatBE 32 0x79be667ef9dcbbac55a06295ce870b07029bfcdb2dce28d959f2815b16f81798
    let second : Bytes :=
      2 :: Bytes.ofNatBE 32 0xc6047f9441ed7d6d3045406e95c07cd85c778e4b8cef3ca7abac09b95c709ee5
    let locking : Script := ⟨[0x51, 33] ++ first ++ [33] ++ second ++ [0x52, 0xae]⟩
    let sig : Bytes := [0x30, 68, 2, 32] ++
      Bytes.ofNatBE 32 0x2f17bdc0f11116a024c7cdff24883380015693cdf286bd57ffaf1ca8e7272e0d ++ [2, 32] ++
      Bytes.ofNatBE 32 0x1df93640925a8d60d8235a7dc89c559ead1ce0730317f46328ee6dfbcb7a1131 ++ [0x41]
    let a := Script.ofPushes [[], sig]
    Accepts (Policy.context s.checker) a locking ∧
      unlocking Policy.standard s.checker locking .empty a = .ok a ∧
      unlocking Policy.standard s.checker locking a .empty = .ok a := by
  intro s first second locking sig a
  have h : Accepts (Policy.context s.checker) a locking := by decide +kernel
  have ht : Template.ofScript Policy.standard locking = .multisig 1 [first, second] := by
    decide +kernel
  have ha : items a = [sig, []] := by decide +kernel
  have hunshared : Unshared (fun sig key => s.checker.signature sig key locking) [first, second]
      [sig, []] := by decide +kernel
  obtain ⟨kept, hfirst, hsecond, -, -, hsame⟩ := finished_spend_kept s locking a h
  rw [ht, ha] at hsecond hsame
  have hnodup : [first, second].Nodup := by decide
  obtain rfl := (hsame 1 _ rfl rfl hunshared (.inl hnodup)).2 hnodup
  exact ⟨h, hfirst, hsecond⟩

/-- An output that pays to the empty script is spent by pushing this script above a true item. If
that comes first, merging takes the script for missing, and nothing is left. -/
theorem finished_spend_lost :
    let s : Spending := ⟨{ inputs := [{}], outputs := [{}] }, 0, 100000, .none⟩
    let locking := Script.payTo (.script (.short (Hash.hash160 [])))
    let a : Script := ⟨[0x51, 0x00]⟩
    Accepts (Policy.context s.checker) a locking ∧
      ∃ kept, unlocking Policy.standard s.checker locking a .empty = .ok kept ∧
        ¬ Accepts (Policy.context s.checker) kept locking := by
  intro s locking a
  have hlocking : locking.scriptHash20? = some (Hash.hash160 []) := Script.scriptHash20?_eq_some.mpr rfl
  have ht : Template.ofScript Policy.standard locking = .scriptHash (.short (Hash.hash160 [])) := by
    rw [Template.ofScript, Template.scriptHash?, hlocking]
    rfl
  have hp2sh : locking.isP2sh Policy.standard = true := by
    simp [Script.isP2sh, Script.isP2sh20, hlocking]
  have hpushOnly : a.isPushOnly = true := by decide +kernel
  have hpush : evalScript (Policy.context s.checker) a [] = .ok () [[], [1]] := by decide +kernel
  have hitems : items a = [[], [1]] := by decide +kernel
  have hempty : evalScript (Policy.context s.checker) .empty [] = .ok () [] := by decide +kernel
  have hredeem : evalScript (Policy.context s.checker) ⟨[]⟩ [[1]] = .ok () [[1]] := by decide +kernel
  have hlock : evalScript (Policy.context s.checker) locking [[], [1]] =
      .ok () [Number.ofBool true, [1]] := by
    refine evalScript_scriptHash_ok.mpr ⟨by decide, [], [[1]], rfl, by decide, ?_⟩
    have hdigest : (HashKind.hash160.digest [] == (Hash.hash160 []).bytes) = true := beq_self_eq_true _
    exact congrArg (Number.ofBool · :: [[1]]) hdigest
  refine ⟨?_, .empty, ?_, ?_⟩
  · refine Spend.accepts_iff.mpr ⟨fun _ => hpushOnly, _, _, [[1]], hpush, hlock, rfl, ?_⟩
    rw [Spend.Settles, hp2sh, if_pos (by decide)]
    exact ⟨hpushOnly, .inr ⟨[1], [], hredeem, rfl, fun _ => ⟨by decide, rfl⟩⟩⟩
  · change merge _ _ _ (items a) (items .empty) = _
    rw [items_empty, merge_nothing_second, ht, hitems]
    rfl
  · intro h
    obtain ⟨-, saved, top, below, hsaved, hl, -⟩ := Spend.accepts_iff.mp h
    rw [hempty] at hsaved
    cases hsaved
    obtain ⟨-, item, rest, hnil, -⟩ := evalScript_scriptHash_ok.mp hl
    cases hnil

end Combine

end CoinScript
