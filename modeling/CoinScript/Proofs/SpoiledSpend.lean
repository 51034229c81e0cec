import CoinScript.Proofs.MergedSpend
import CoinScript.Proofs.SelectedMultisig

namespace CoinScript

namespace Finished

open Combine Signing

variable {checker : Checker} {unlocking locking : Script} {saved below : Stack} {items keys : List Bytes}
  {required : Nat}

/-- The builder has pushed the items that lie on the stack, and none of them is a number with a code of its own,
since pushes have to be the shortest. -/
theorem of_ofPushes (hl : ∀ item ∈ items, item.length ≤ 0xffffffff)
    (h : Finished checker (Script.ofPushes items) locking saved below) :
    saved = items.reverse ∧ ∀ item ∈ items, Operation.isCoded item = false := by
  have hsized : ∀ op ∈ items.map Operation.pushing, op.Sized := by
    intro op hop
    obtain ⟨item, hitem, rfl⟩ := List.mem_map.mp hop
    exact Operation.sized_pushing (hl item hitem)
  obtain ⟨hruns, hleft⟩ := runs_of_evalScript h.pushOnly h.leaves
  rw [Script.ofPushes, Script.operations_ofOperations hsized] at hruns hleft
  refine ⟨?_, fun item hitem => ?_⟩
  · rw [← hleft, List.map_map]
    simp [Function.comp_def]
  · have hshortest := (hruns _ (List.mem_map_of_mem hitem)).shortest (Policy.minimal_context checker)
      (Operation.isPush_pushing item)
    rw [← Bool.not_eq_true]
    intro hcoded
    rw [Operation.not_isMinimalPush_pushing hcoded] at hshortest
    cases hshortest

/-- A number that had a code of its own is pushed behind its length, which is refused. -/
theorem coded_refused (h : Finished checker unlocking locking saved below)
    (ht : ∀ required keys, Template.ofScript Policy.standard locking ≠ .multisig required keys)
    {item : Bytes} (hitem : item ∈ saved) (hcoded : Operation.isCoded item = true) :
    ∃ kept, alone Policy.standard checker locking saved = .ok kept ∧
      ¬ Accepts (Policy.context checker) kept locking := by
  refine ⟨_, h.alone_pushed ht, fun ha => ?_⟩
  obtain ⟨saved', below', hkept⟩ := Finished.of_accepts ha
  have hshort : ∀ item ∈ saved.reverse, item.length ≤ 0xffffffff :=
    fun item hitem => h.fit.pushable (List.mem_reverse.mp hitem)
  have huncoded := (hkept.of_ofPushes hshort).2 item (List.mem_reverse.mpr hitem)
  cases hcoded.symm.trans huncoded

/-- Checkbits are few, and the signatures with them have the Schnorr length. -/
theorem multisig_selected (h : Finished checker unlocking locking saved below)
    (ht : Template.ofScript Policy.standard locking = .multisig required keys)
    (hd : saved.getLast? ≠ some []) :
    ∃ sigs dummy, saved = sigs ++ [dummy] ∧ (∀ sig ∈ sigs, sig.length = 65) ∧ dummy.length ≤ 2 := by
  obtain ⟨sigs, dummy, -, rfl, hrun⟩ := h.multisig_run ht
  have hkeys := (Template.multisig_shape ht).keys_le
  have hmode : Policy.standard.has .schnorrMultisig = true := by decide
  have hdummy : dummy ≠ [] := by simpa using hd
  have hlength : keys.reverse.length ≤ 16 := by rwa [List.length_reverse]
  have hfew : keys.reverse.length ≤ 32 := Nat.le_trans hlength (by decide)
  have hselects : Multisig.Selects (Policy.context checker) locking ⟨keys.reverse, sigs, dummy⟩ :=
    Multisig.selects_of_run hfew hmode hdummy hrun
  have hsize : dummy.length = (keys.reverse.length + 7) / 8 := hselects.size
  exact ⟨sigs, dummy, rfl, fun sig hsig => hselects.length_of_mem hsig, by omega⟩

/-- Signatures that were given with checkbits are matched in order, where none of their length is admitted; nor are
the checkbits themselves a signature. -/
theorem checkbits_refused (h : Finished checker unlocking locking saved below)
    (ht : Template.ofScript Policy.standard locking = .multisig required keys)
    (hd : saved.getLast? ≠ some [])
    (hc : ∀ sig key code, checker.signature sig key code = true → sig ≠ []) :
    ∃ kept, alone Policy.standard checker locking saved = .ok kept ∧
      ¬ Accepts (Policy.context checker) kept locking := by
  let given := chosen (fun sig key => checker.signature sig key locking) required keys saved []
  let pushed := given ++ List.replicate (required - given.length) []
  have hgiven : ∀ sig ∈ given, sig ∈ saved := by
    intro sig hsig
    simpa using (mem_chosen hsig).2
  refine ⟨_, alone_multisig ht h.fit, fun ha => ?_⟩
  obtain ⟨saved', below', hkept⟩ := Finished.of_accepts ha
  have hshort : ∀ item ∈ [] :: pushed, item.length ≤ 0xffffffff := by
    refine List.forall_mem_cons.mpr ⟨Nat.zero_le _, List.forall_mem_append.mpr ⟨fun sig hsig => ?_, ?_⟩⟩
    · exact h.fit.pushable (hgiven sig hsig)
    · intro item hitem
      rw [List.eq_of_mem_replicate hitem]
      exact Nat.zero_le _
  obtain ⟨rfl, -⟩ := hkept.of_ofPushes hshort
  obtain ⟨sigs, hsigs, hlength, hsigns, -⟩ := hkept.multisig ht (by simp) hc
  have hpushed : pushed = sigs := by simpa using hsigs
  -- some signature is required, and it has to come from the items that were there
  have hpos : 0 < sigs.length := hlength ▸ (Template.multisig_shape ht).required_pos
  obtain ⟨sig, hsig⟩ := List.exists_mem_of_length_pos hpos
  obtain ⟨hne, hadmitted, -, -⟩ := hsigns sig hsig
  rw [← hpushed] at hsig
  have hmem : sig ∈ saved := by
    rcases List.mem_append.mp hsig with hsig | hzero
    · exact hgiven sig hsig
    · exact absurd (List.eq_of_mem_replicate hzero) hne
  obtain ⟨hlength, hadmitted⟩ := Encoding.checkOrderedSignature_ok.mp hadmitted
  obtain ⟨schnorrs, dummy, rfl, hschnorrs, hdummy⟩ := h.multisig_selected ht hd
  rcases List.mem_append.mp hmem with hsig | hsig
  · exact hlength (hschnorrs sig hsig)
  · obtain rfl := List.mem_singleton.mp hsig
    obtain ⟨size, tag, rest, rfl⟩ := Encoding.sequence_of_admitted (by decide) hadmitted hne hlength
    simp at hdummy

end Finished

namespace Combine

/-- What comes of a finished spend that is merged with nothing. Items that are pushed again spend the output exactly
if none of them is a number with a code of its own; and no multisignature with checkbits does. -/
theorem finished_spend_rewritten (s : Spending) (locking a : Script)
    (h : Accepts (Policy.context s.checker) a locking) :
    let t := Template.ofScript Policy.standard locking
    ∃ kept, unlocking Policy.standard s.checker locking .empty a = .ok kept ∧
      ((∀ required keys, t ≠ .multisig required keys) →
        (Accepts (Policy.context s.checker) kept locking ↔ ∀ item ∈ items a, Operation.isCoded item = false)) ∧
      ∀ required keys, t = .multisig required keys → (items a).getLast? ≠ some [] →
        ¬ Accepts (Policy.context s.checker) kept locking := by
  intro t
  obtain ⟨saved, below, hfinished⟩ := Finished.of_accepts h
  obtain ⟨kept, halone⟩ := exists_alone Policy.standard s.checker locking hfinished.fit
  have hitems := hfinished.items_eq
  subst hitems
  have heq {other : Script} (ho : alone Policy.standard s.checker locking (items a) = .ok other) :
      other = kept := by
    rw [halone] at ho
    exact (Except.ok.inj ho).symm
  refine ⟨kept, ?_, fun ht => ⟨fun ha => ?_, fun hcoded => ?_⟩, fun required keys ht hd => ?_⟩
  · change merge _ _ _ (items .empty) (items a) = _
    rw [items_empty, merge_nothing_first, halone]
  · intro item hitem
    rw [← Bool.not_eq_true]
    intro hcoded
    obtain ⟨other, ho, hrefused⟩ := hfinished.coded_refused ht hitem hcoded
    exact hrefused (heq ho ▸ ha)
  · have hpushed := hfinished.alone_pushed ht
    rw [← hfinished.eq_ofPushes hcoded] at hpushed
    rwa [← heq hpushed]
  · obtain ⟨other, ho, hrefused⟩ := hfinished.checkbits_refused ht hd fun _ _ _ => Spending.signature_nonempty
    exact heq ho ▸ hrefused

/-- An output that asks for the number one is no longer spent. -/
theorem finished_spend_rewritten_number :
    let s : Spending := ⟨{ inputs := [{}], outputs := [{}] }, 0, 100000, .none⟩
    let locking : Script := ⟨[0x51, 0x87]⟩
    let a : Script := ⟨[0x51]⟩
    Accepts (Policy.context s.checker) a locking ∧
      unlocking Policy.standard s.checker locking .empty a = .ok ⟨[0x01, 0x01]⟩ ∧
      ¬ Accepts (Policy.context s.checker) ⟨[0x01, 0x01]⟩ locking := by
  intro s locking a
  have h : Accepts (Policy.context s.checker) a locking := by decide +kernel
  have ht : Template.ofScript Policy.standard locking = .nonStandard := by decide +kernel
  have ha : items a = [[1]] := by decide +kernel
  have hmerged : unlocking Policy.standard s.checker locking .empty a = .ok ⟨[0x01, 0x01]⟩ := by
    change merge _ _ _ (items .empty) (items a) = _
    rw [items_empty, merge_nothing_first, alone, ht, ha]
    rfl
  obtain ⟨kept, hkept, hiff, -⟩ := finished_spend_rewritten s locking a h
  obtain rfl := Except.ok.inj (hmerged.symm.trans hkept)
  rw [ht, ha] at hiff
  refine ⟨h, hmerged, fun hspent => ?_⟩
  exact absurd ((hiff (by simp)).mp hspent [1] List.mem_cons_self) (by decide)

/-- Nor is a multisignature of one key that was signed with checkbits. -/
theorem finished_spend_rewritten_checkbits :
    let s : Spending := ⟨{ inputs := [{}], outputs := [{}] }, 0, 100000, .none⟩
    let key : Bytes :=
      2 :: Bytes.ofNatBE 32 0x79be667ef9dcbbac55a06295ce870b07029bfcdb2dce28d959f2815b16f81798
    let locking : Script := ⟨[0x51, 33] ++ key ++ [0x51, 0xae]⟩
    let sig : Bytes :=
      Bytes.ofNatBE 32 0xf84c4906733787a6a053d0e12e389aa25b6d46ffb4710789192f955c1a233145 ++
      Bytes.ofNatBE 32 0xa4f5e6aa8ee8b26e59d99f4577b9e5c6bf1f54e8d1593cbb558deb181b513f73 ++ [0x41]
    let a : Script := ⟨[0x51, 65] ++ sig⟩
    Accepts (Policy.context s.checker) a locking ∧
      ∃ kept, unlocking Policy.standard s.checker locking .empty a = .ok kept ∧
        ¬ Accepts (Policy.context s.checker) kept locking := by
  intro s key locking sig a
  have h : Accepts (Policy.context s.checker) a locking := by decide +kernel
  have ht : Template.ofScript Policy.standard locking = .multisig 1 [key] := by decide +kernel
  have ha : (items a).getLast? = some [1] := by decide +kernel
  obtain ⟨kept, hkept, -, hrefused⟩ := finished_spend_rewritten s locking a h
  exact ⟨h, kept, hkept, hrefused 1 [key] ht (by simp [ha])⟩

end Combine

end CoinScript
