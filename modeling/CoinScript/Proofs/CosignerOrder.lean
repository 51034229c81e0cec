import CoinScript.Proofs.TemplateShapes
import CoinScript.Wallet.Combine

namespace CoinScript

/-- Dictionary order is the order of lists. -/
theorem Bytes.precedes_iff {as bs : Bytes} : precedes as bs = true ↔ as ≤ bs := by
  induction as generalizing bs with
  | nil => simp [precedes]
  | cons a as ih =>
    cases bs with
    | nil => simp [precedes]
    | cons b bs => simp [precedes, ih, List.cons_le_cons_iff]

/-- Byte strings have one arrangement in dictionary order. -/
theorem Bytes.mergeSort_perm_eq {items items' : List Bytes} (h : items.Perm items') :
    items.mergeSort precedes = items'.mergeSort precedes := by
  have hsorted (l : List Bytes) : (l.mergeSort precedes).Pairwise (precedes · · = true) := by
    refine List.pairwise_mergeSort (fun as bs cs hab hbc => ?_) (fun as bs => ?_) l
    · exact precedes_iff.mpr (List.le_trans (precedes_iff.mp hab) (precedes_iff.mp hbc))
    · rw [Bool.or_eq_true, precedes_iff, precedes_iff]
      exact List.le_total as bs
  have hperm : (items.mergeSort precedes).Perm (items'.mergeSort precedes) :=
    ((List.mergeSort_perm items _).trans h).trans (List.mergeSort_perm items' _).symm
  refine List.Perm.eq_of_pairwise (fun as bs _ _ hab hba => ?_) (hsorted items) (hsorted items') hperm
  exact List.le_antisymm (precedes_iff.mp hab) (precedes_iff.mp hba)

namespace Combine

variable {flags : Flags} {checker : Checker} {locking : Script}
  {required : Nat} {keys : List Bytes}

theorem candidates_comm (a b : Stack) : candidates a b = candidates b a := by
  have hperm : ((a ++ b).filter (· ≠ [])).Perm ((b ++ a).filter (· ≠ [])) :=
    List.perm_append_comm.filter _
  rw [candidates, candidates, Bytes.mergeSort_perm_eq hperm]

theorem merge_multisig_comm (h : Template.ofScript flags locking = .multisig required keys)
    (a b : Stack) : merge flags checker locking a b = merge flags checker locking b a := by
  rw [merge.eq_def, merge.eq_def, h]
  simp only [multisig, candidates_comm a b]

/-- A script that is recognized as a multisignature has a byte. -/
theorem ne_nil_of_multisig {redeem : Bytes}
    (h : Template.ofScript flags ⟨redeem⟩ = .multisig required keys) : redeem ≠ [] := by
  rintro rfl
  have hbytes := congrArg Script.bytes (Template.multisig_shape h).eq
  simp [Script.ofOperations, Template.multisigPushes, Operation.bytes] at hbytes

/-- Where both sides reveal the same script, what is below it is merged for that script. -/
theorem merge_revealed {redeem : Bytes} (hl : locking.isP2sh flags = true) (hne : redeem ≠ [])
    (below below' : Stack) :
    merge flags checker locking (redeem :: below) (redeem :: below') =
      (merge flags checker ⟨redeem⟩ below below' >>= fun s => s.push redeem) := by
  obtain ⟨id, ht⟩ := Template.ofScript_of_isP2sh hl
  rw [merge.eq_def, ht]
  simp [hne, topEmpty]

/-- Two cosigners can be merged in either order: for an output that asks for several signatures, and
for one that commits to a script which asks for them, if both reveal that script. -/
theorem cosigners_commute (flags : Flags) (checker : Checker) (locking a b : Script)
    (h : (∃ required keys, Template.ofScript flags locking = .multisig required keys) ∨
      (locking.isP2sh flags = true ∧ ∃ redeem below below' required keys,
        items a = redeem :: below ∧ items b = redeem :: below' ∧
          Template.ofScript flags ⟨redeem⟩ = .multisig required keys)) :
    unlocking flags checker locking a b = unlocking flags checker locking b a := by
  rw [unlocking, unlocking]
  rcases h with ⟨required, keys, ht⟩ | ⟨hl, redeem, below, below', required, keys, ha, hb, ht⟩
  · exact merge_multisig_comm ht _ _
  · have hne := ne_nil_of_multisig ht
    rw [ha, hb, merge_revealed hl hne, merge_revealed hl hne, merge_multisig_comm ht]

/-- The signatures for the third and for the first of three keys, under the script itself and under
its hash. -/
theorem cosigners_commute_two_of_three :
    let key (n : UInt8) : Bytes := 2 :: List.replicate 32 n
    let redeem : Script := ⟨[0x52, 33] ++ key 1 ++ [33] ++ key 2 ++ [33] ++ key 3 ++ [0x53, 0xae]⟩
    let locking := Script.payTo (.script (.shortOf redeem))
    let checker : Checker := { signature := fun sig key _ => sig.isSuffixOf key }
    let reveal : Bytes := [0x4c, 105] ++ redeem.bytes
    Template.ofScript .none redeem = .multisig 2 [key 1, key 2, key 3] ∧
      locking.isP2sh .none = true ∧
      unlocking .none checker redeem ⟨[0x00, 2, 3, 3]⟩ ⟨[0x00, 3, 1, 1, 1]⟩ =
        unlocking .none checker redeem ⟨[0x00, 3, 1, 1, 1]⟩ ⟨[0x00, 2, 3, 3]⟩ ∧
      unlocking .none checker locking ⟨[0x00, 2, 3, 3] ++ reveal⟩ ⟨[0x00, 3, 1, 1, 1] ++ reveal⟩ =
        unlocking .none checker locking ⟨[0x00, 3, 1, 1, 1] ++ reveal⟩
          ⟨[0x00, 2, 3, 3] ++ reveal⟩ := by
  intro key redeem locking checker reveal
  have ht : Template.ofScript .none redeem = .multisig 2 [key 1, key 2, key 3] := by decide +kernel
  have hl : locking.isP2sh .none = true := by
    have hhash : locking.scriptHash20? = some (Hash.hash160 redeem.bytes) :=
      Script.scriptHash20?_eq_some.mpr rfl
    simp [Script.isP2sh, Script.isP2sh20, hhash]
  have ha : items ⟨[0x00, 2, 3, 3] ++ reveal⟩ = redeem.bytes :: [[3, 3], []] := by decide +kernel
  have hb : items ⟨[0x00, 3, 1, 1, 1] ++ reveal⟩ = redeem.bytes :: [[1, 1, 1], []] := by decide +kernel
  exact ⟨ht, hl, cosigners_commute .none checker redeem _ _ (.inl ⟨2, _, ht⟩),
    cosigners_commute .none checker locking _ _ (.inr ⟨hl, _, _, _, 2, _, ha, hb, ht⟩)⟩

end Combine

end CoinScript
