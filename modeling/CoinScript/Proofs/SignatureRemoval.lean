import CoinScript.Engine.Signing
import CoinScript.Proofs.Pushes
import CoinScript.Proofs.Removal
import CoinScript.Proofs.Steps
import Mathlib.Data.List.Perm.Basic

namespace CoinScript

namespace Script

variable {s p q : Script} {op : Operation}

/-- A script that is one operation from its first byte to its last. -/
def IsOperation (p : Script) : Prop := ∃ op, Operation.read? p.bytes = some (op, [])

theorem isOperation_of_push {item : Bytes} (h : ofPush item = .ok p) : p.IsOperation := by
  obtain ⟨hl, rfl⟩ := ofPush_ok.mp h
  exact ⟨_, (Operation.sized_pushing hl).read?_own⟩

theorem isOperation_separator : IsOperation ⟨[Opcode.codeSeparator]⟩ :=
  ⟨⟨Opcode.codeSeparator, []⟩, rfl⟩

/-- The operations of a script that are not this one. -/
def others (s p : Script) : List Operation := s.operations.filter (·.bytes ≠ p.bytes)

theorem sized_others : ∀ op ∈ s.others p, op.Sized := by
  intro op hop
  exact sized_parse s.bytes op (List.mem_of_mem_filter hop)

theorem remove_eq_others (hp : p.IsOperation) :
    s.remove p = (s.operations.countP (·.bytes = p.bytes),
      ⟨(s.others p).flatMap Operation.bytes ++ s.tail⟩) := by
  obtain ⟨found, hp⟩ := hp
  exact remove_eq_filter hp

/-- What is left reads as the operations that are left. -/
theorem parse_remove (hp : p.IsOperation) : parse (s.remove p).2.bytes = (s.others p, s.tail) := by
  rw [remove_eq_others hp]
  exact parse_of_sized sized_others (read?_parse_tail s.bytes)

theorem operations_remove (hp : p.IsOperation) : (s.remove p).2.operations = s.others p := by
  rw [operations, parse_remove hp]

theorem tail_remove (hp : p.IsOperation) : (s.remove p).2.tail = s.tail := by
  rw [tail, parse_remove hp]

/-- Where an operation does not occur, there is nothing to take out. -/
theorem remove_of_absent (hp : p.IsOperation) (h : ∀ op ∈ s.operations, op.bytes ≠ p.bytes) :
    s.remove p = (0, s) := by
  have hcount : s.operations.countP (·.bytes = p.bytes) = 0 :=
    List.countP_eq_zero.mpr fun op hop => by simpa using h op hop
  have hall : s.others p = s.operations :=
    List.filter_eq_self.mpr fun op hop => decide_eq_true (h op hop)
  rw [remove_eq_others hp, hcount, hall]
  exact congrArg (0, Script.mk ·) (bytes_parse s.bytes)

theorem ne_of_mem_others (h : op ∈ s.others p) : op.bytes ≠ p.bytes :=
  of_decide_eq_true (List.mem_filter.mp h).2

theorem remove_remove (hp : p.IsOperation) : (s.remove p).2.remove p = (0, (s.remove p).2) := by
  refine remove_of_absent hp fun op hop => ?_
  rw [operations_remove hp] at hop
  exact ne_of_mem_others hop

theorem remove_comm (hp : p.IsOperation) (hq : q.IsOperation) :
    ((s.remove p).2.remove q).2 = ((s.remove q).2.remove p).2 := by
  have hothers : (s.remove p).2.others q = (s.remove q).2.others p := by
    rw [others, others, operations_remove hp, operations_remove hq, others, others, List.filter_filter,
      List.filter_filter]
    exact List.filter_congr fun op _ => Bool.and_comm _ _
  rw [remove_eq_others (s := (s.remove p).2) hq, remove_eq_others (s := (s.remove q).2) hp, hothers,
    tail_remove hp, tail_remove hq]

/-- An operation that does not occur does not stand at a boundary either: at one that another operation
follows only this could be read, and at the tail nothing can be. -/
theorem not_prefix_of_absent (hp : p.IsOperation) (h : ∀ op ∈ s.operations, op.bytes ≠ p.bytes)
    {n : Nat} (hn : s.IsBoundary n) : ¬ p.bytes <+: s.bytes.drop n := by
  obtain ⟨found, hp⟩ := hp
  obtain ⟨before, after, hops, rfl⟩ := hn
  have hbytes : s.bytes = before.flatMap Operation.bytes ++
      (after.flatMap Operation.bytes ++ s.tail) := by
    rw [← List.append_assoc, ← List.flatMap_append, ← hops]
    exact (bytes_parse s.bytes).symm
  rw [hbytes, List.drop_left]
  cases after with
  | nil =>
    rintro ⟨more, hmore⟩
    have hread := Operation.read?_append more hp
    rw [hmore] at hread
    exact absurd hread (by simp [tail, read?_parse_tail])
  | cons op after =>
    intro hprefix
    have hmem : op ∈ s.operations := by
      rw [hops]
      simp
    have hread := (sized_parse s.bytes op hmem).read?_bytes (after.flatMap Operation.bytes ++ s.tail)
    rw [List.flatMap_cons, List.append_assoc] at hprefix
    exact h op hmem (bytes_eq_of_front hp hread hprefix)

end Script

namespace Signing

variable {flags : Flags} {code : Script} {sig sig' : Bytes}

/-- Taking out a push that does not occur leaves the script alone. -/
theorem withoutSignature_of_absent (h : Operation.pushing sig ∉ code.operations) :
    withoutSignature code sig = code := by
  unfold withoutSignature
  split
  · next pattern hpush =>
    have hp := Script.isOperation_of_push hpush
    obtain ⟨hl, rfl⟩ := Script.ofPush_ok.mp hpush
    rw [Script.remove_of_absent hp]
    intro op hop he
    obtain rfl := (Script.sized_parse code.bytes op hop).eq_of_bytes (Operation.sized_pushing hl) he
    exact h hop
  · rfl

theorem withoutSignature_comm :
    withoutSignature (withoutSignature code sig) sig' =
      withoutSignature (withoutSignature code sig') sig := by
  unfold withoutSignature
  cases hp : Script.ofPush sig with
  | error => rfl
  | ok p =>
    cases hq : Script.ofPush sig' with
    | error => rfl
    | ok q => exact Script.remove_comm (Script.isOperation_of_push hp) (Script.isOperation_of_push hq)

theorem Multisig.withoutOrdered_comm :
    withoutOrdered flags (withoutOrdered flags code sig) sig' =
      withoutOrdered flags (withoutOrdered flags code sig') sig := by
  unfold withoutOrdered
  split
  · rfl
  · split
    · rfl
    · exact withoutSignature_comm

/-- The script that signatures cover does not depend on their order. -/
theorem Multisig.orderedCode_perm {m m' : Multisig} (h : m.signatures.Perm m'.signatures) :
    m.orderedCode flags code = m'.orderedCode flags code :=
  haveI : RightCommutative (withoutOrdered flags) := ⟨fun _ _ _ => withoutOrdered_comm⟩
  h.foldl_eq code

end Signing

open Signing in
/-- Removing one operation from a script, be it the push of a signature or a separator, leaves the
operations with other bytes in their order, and the tail. It counts what it takes out. Done again it
finds nothing, since the operation stands at no boundary of what is left; and two operations are
removed in either order, so that the script which signatures cover does not depend on theirs. -/
theorem removal_filters (s p : Script) (hp : p.IsOperation) :
    let kept := (s.remove p).2
    kept.operations = s.operations.filter (·.bytes ≠ p.bytes) ∧ kept.tail = s.tail ∧
      kept.bytes = (s.operations.filter (·.bytes ≠ p.bytes)).flatMap Operation.bytes ++ s.tail ∧
      (s.remove p).1 = s.operations.countP (·.bytes = p.bytes) ∧
      kept.remove p = (0, kept) ∧
      (∀ n, kept.IsBoundary n → ¬ p.bytes <+: kept.bytes.drop n) ∧
      (∀ q : Script, q.IsOperation → (kept.remove q).2 = ((s.remove q).2.remove p).2) ∧
      (∀ sig push, Script.ofPush sig = .ok push → push.IsOperation) ∧
      Script.IsOperation ⟨[Opcode.codeSeparator]⟩ ∧
      ∀ (flags : Flags) (m m' : Multisig), m.signatures.Perm m'.signatures →
        m.orderedCode flags s = m'.orderedCode flags s := by
  intro kept
  have hfilter := Script.remove_eq_others (s := s) hp
  refine ⟨Script.operations_remove hp, Script.tail_remove hp, ?_, ?_, Script.remove_remove hp, ?_, ?_, ?_,
    Script.isOperation_separator, ?_⟩
  · exact congrArg (·.2.bytes) hfilter
  · exact congrArg Prod.fst hfilter
  · intro n hn
    refine Script.not_prefix_of_absent hp (fun op hop => ?_) hn
    rw [Script.operations_remove hp] at hop
    exact Script.ne_of_mem_others hop
  · intro q hq
    exact Script.remove_comm hp hq
  · intro sig push hpush
    exact Script.isOperation_of_push hpush
  · intro flags m m' hperm
    exact Multisig.orderedCode_perm hperm

open Signing in
/-- Two pushes of a signature go, also where the bytes of such a push stand in a tail. -/
theorem removal_filters_truncated :
    let s : Script := ⟨[0xac, 2, 7, 7, 0xab, 2, 7, 7, 5, 2, 7, 7]⟩
    let p : Script := ⟨[2, 7, 7]⟩
    let separator : Script := ⟨[Opcode.codeSeparator]⟩
    let m (sigs : List Bytes) : Multisig := ⟨[], sigs, []⟩
    Script.ofPush [7, 7] = .ok p ∧ p.IsOperation ∧ separator.IsOperation ∧
      s.remove p = (2, ⟨[0xac, 0xab, 5, 2, 7, 7]⟩) ∧
      (s.remove p).2.remove p = (0, (s.remove p).2) ∧
      (s.remove p).2.IsBoundary 2 ∧ ¬ [2, 7, 7] <+: (s.remove p).2.bytes.drop 2 ∧
      ((s.remove p).2.remove separator).2 = ((s.remove separator).2.remove p).2 ∧
      (m [[7, 7], []]).orderedCode .none s = (m [[], [7, 7]]).orderedCode .none s := by
  intro s p separator m
  have hpush : Script.ofPush [7, 7] = .ok p := rfl
  have hremove : s.remove p = (2, ⟨[0xac, 0xab, 5, 2, 7, 7]⟩) := by decide +kernel
  have hoperations : (s.remove p).2.operations = [⟨0xac, []⟩, ⟨0xab, []⟩] := by decide +kernel
  have hboundary : (s.remove p).2.IsBoundary 2 := ⟨_, [], by simpa using hoperations, rfl⟩
  obtain ⟨-, -, -, -, hagain, hplaces, hcomm, hpushes, hseparator, hperm⟩ :=
    removal_filters s p (Script.isOperation_of_push hpush)
  exact ⟨hpush, hpushes [7, 7] p hpush, hseparator, hremove, hagain, hboundary, hplaces 2 hboundary,
    hcomm separator hseparator, hperm .none (m [[7, 7], []]) (m [[], [7, 7]]) (.swap _ _ _)⟩

end CoinScript
