import CoinScript.Proofs.Charges
import CoinScript.Proofs.Steps
import Mathlib.Algebra.Ring.Nat

namespace CoinScript

namespace Control

variable {ctx : Context} {on executing : Bool} {st st' : State} {u : Unit}

theorem branch_ok (h : branch ctx on executing st = .ok u st') :
    ∃ main b, st' = { st with main, branches := b :: st.branches } := by
  unfold branch at h
  split at h
  · split at h
    · cases h
    · next top s hm =>
      split at h
      · cases h
      · cases h
        exact ⟨s, _, rfl⟩
  · cases h
    exact ⟨st.main, false, rfl⟩

theorem otherwise_ok (h : otherwise st = .ok u st') :
    ∃ b bs, st.branches = b :: bs ∧ st' = { st with branches := (!b) :: bs } := by
  unfold otherwise at h
  split at h
  · cases h
  · next b bs hb =>
    cases h
    exact ⟨b, bs, hb, rfl⟩

theorem endBranch_ok (h : endBranch st = .ok u st') :
    ∃ b bs, st.branches = b :: bs ∧ st' = { st with branches := bs } := by
  unfold endBranch at h
  split at h
  · cases h
  · next b bs hb =>
    cases h
    exact ⟨b, bs, hb, rfl⟩

end Control

/-- The keys that a stage of a run counts against the budget: those of a multisignature, if it is in
a branch that is taken. -/
def Stage.keys (ctx : Context) (s : Stage) : Nat :=
  if s.state.isExecuting &&
      (s.op.code == Opcode.checkMultisig || s.op.code == Opcode.checkMultisigVerify) then
    Signing.keyCount ctx s.state.main
  else 0

namespace Stage

variable {ctx : Context} {st : State} {op : Operation}

theorem keys_eq_zero (h : st.isExecuting = true → ∀ verify, op.code ≠ Opcode.checkingMultisig verify) :
    keys ctx ⟨st, op⟩ = 0 := by
  unfold keys
  rw [if_neg]
  intro hk
  simp only [Bool.and_eq_true, Bool.or_eq_true, beq_iff_eq] at hk
  obtain ⟨hx, hc | hc⟩ := hk
  · exact h hx false hc
  · exact h hx true hc

theorem keys_of_checkMultisig {verify : Bool} (hx : st.isExecuting = true)
    (hc : op.code = Opcode.checkingMultisig verify) :
    keys ctx ⟨st, op⟩ = Signing.keyCount ctx st.main := by
  unfold keys
  rw [if_pos]
  dsimp only
  rw [hx, hc]
  cases verify <;> rfl

end Stage

namespace Effect

variable {ctx : Context} {op : Operation} {rest : Bytes} {st st' : State} {u : Unit}

theorem ok_of_framed {e : Effect Unit} (he : ∀ f, Framing f → Commutes f e) (h : e st = .ok u st') :
    ∃ main alt, st' = { st with main, alt } := by
  have hk := Commutes.record_kept he st
  rw [finalState_of_ok h] at hk
  exact ⟨st'.main, st'.alt, hk⟩

/-- The number of open conditionals goes the way that the codes alone tell. -/
theorem act_nest {executing : Bool} (h : act ctx op rest executing st = .ok u st') :
    Operation.nest st.branches.length op = some st'.branches.length := by
  have ha : Action ctx op rest executing (act ctx op rest executing) := act_action
  have hkept (hp : op.code.isConditional = true → op.code.isVersionBranch = true)
      (hb : st'.branches = st.branches) :
      Operation.nest st.branches.length op = some st'.branches.length := by
    rw [hb, Operation.nest_of_plain hp]
  generalize act ctx op rest executing = e at h ha
  cases ha with
  | onStacks framed plain =>
    obtain ⟨main, alt, rfl⟩ := ok_of_framed framed h
    exact hkept plain rfl
  | opening on hc =>
    obtain ⟨main, b, rfl⟩ := Control.branch_ok h
    exact Operation.nest_opening hc
  | turning hc =>
    obtain ⟨b, bs, hb, rfl⟩ := Control.otherwise_ok h
    rw [hb]
    exact Operation.nest_otherwise hc
  | closing hc =>
    obtain ⟨b, bs, hb, rfl⟩ := Control.endBranch_ok h
    rw [hb]
    exact Operation.nest_branchEnd hc
  | separating hx hc =>
    cases h
    exact hkept (by rw [hc]; decide) rfl
  | checkSig hx verify hc =>
    obtain ⟨main, alt, hashTypes, n, -, hf⟩ := Signing.checkSig_final ctx verify st
    obtain rfl := (finalState_of_ok h).symm.trans hf
    exact hkept (by rw [hc]; cases verify <;> decide) rfl
  | checkMultisig hx verify hc =>
    exact hkept (by rw [hc]; cases verify <;> decide) (Signing.checkMultisig_opCount h).2.2
  | checkDataSig hx verify hc =>
    obtain ⟨main, alt, n, -, hf⟩ := Signing.checkDataSig_final ctx verify st
    obtain rfl := (finalState_of_ok h).symm.trans hf
    exact hkept (by rw [hc]; cases verify <;> decide) rfl

/-- The operation count grows by the keys of a multisignature, and within the budget. -/
theorem act_opCount (h : act ctx op rest st.isExecuting st = .ok u st') :
    st'.opCount = st.opCount + Stage.keys ctx ⟨st, op⟩ ∧
      (st.opCount ≤ ctx.budget → st'.opCount ≤ ctx.budget) := by
  by_cases hm : st.isExecuting = true ∧ ∃ verify, op.code = Opcode.checkingMultisig verify
  · obtain ⟨hx, verify, hc⟩ := hm
    rw [hx, act_checkMultisig hc] at h
    obtain ⟨hcount, hb, -⟩ := Signing.checkMultisig_opCount h
    rw [Stage.keys_of_checkMultisig hx hc]
    exact ⟨hcount, fun _ => hb⟩
  · have hzero : Stage.keys ctx ⟨st, op⟩ = 0 :=
      Stage.keys_eq_zero fun hx verify hc => hm ⟨hx, verify, hc⟩
    obtain ⟨k, n, hcharge, hcount, -⟩ := act_final ctx op rest st.isExecuting st
    have hk : k = 0 := by
      cases hcharge with
      | none | checkSig | checkDataSig => rfl
      | checkMultisig hx verify hc => exact absurd ⟨hx, verify, hc⟩ hm
    rw [finalState_of_ok h, hk] at hcount
    rw [hzero, hcount]
    exact ⟨rfl, id⟩

/-- What an operation that succeeds has done to the open conditionals and to the count. -/
theorem perform_counts (hp : perform ctx op rest st = .ok u st') :
    Operation.nest st.branches.length op = some st'.branches.length ∧
      st'.opCount = st.opCount + (if op.code.isCounted then 1 else 0) + Stage.keys ctx ⟨st, op⟩ ∧
      (st.opCount ≤ ctx.budget → st'.opCount ≤ ctx.budget) := by
  obtain ⟨hbudget, -, hact, -⟩ := perform_ok.mp hp
  have hnest := act_nest hact
  rw [State.counting_branches] at hnest
  have hact' : act ctx op rest (st.counting op.code).isExecuting (st.counting op.code) =
      .ok () st' := by
    rw [State.counting_isExecuting]
    exact hact
  have hkeys : Stage.keys ctx ⟨st.counting op.code, op⟩ = Stage.keys ctx ⟨st, op⟩ := by
    simp only [Stage.keys, State.counting_isExecuting, State.counting_main]
  obtain ⟨hcount, hle⟩ := act_opCount hact'
  rw [State.counting_opCount, hkeys] at hcount
  refine ⟨hnest, hcount, fun hb => hle ?_⟩
  rw [State.counting_opCount]
  split
  · next hc => exact hbudget hc
  · exact hb

/-- A conditional on a version fails wherever it stands. -/
theorem not_isVersionBranch_of_act {executing : Bool} (h : act ctx op rest executing st = .ok u st') :
    op.code.isVersionBranch = false := by
  rw [Bool.eq_false_iff]
  intro hv
  rw [Opcode.isVersionBranch, Bool.or_eq_true, beq_iff_eq, beq_iff_eq] at hv
  have hp : op.isPush = false := by
    rcases hv with hv | hv <;> rw [Operation.isPush, hv] <;> rfl
  have hc : op.code.isConditional = true := by
    rcases hv with hv | hv <;> rw [hv] <;> rfl
  have hi : Instruction.ofOpcode op.code = .invalid := by
    rcases hv with hv | hv <;> rw [hv] <;> rfl
  unfold act at h
  rw [hp, hc, hi, Bool.and_false, if_neg Bool.false_ne_true, Bool.or_true, if_pos rfl] at h
  cases h

end Effect

/-- What an operation is like that has been read and performed without a fault. -/
structure Operation.Passes (op : Operation) : Prop where
  short : op.data.length ≤ Fault.maxItem
  enabled : op.code.isDisabled = false
  known : op.code ≠ Opcode.versionIf ∧ op.code ≠ Opcode.versionUnless

namespace Machine

variable {ctx : Context} {m m' : Machine} {op : Operation} {rest : Bytes} {st : State}
  {trail : List Stage} {script : Script}

/-- One step of a run: the operation passes, and both counts go on. -/
theorem step_vouches (hn : m.next = .ok (op, rest))
    (hp : Effect.perform ctx op rest m.state = .ok () st) :
    op.Passes ∧ Operation.nest m.state.branches.length op = some st.branches.length ∧
      st.opCount = m.state.opCount + (if op.code.isCounted then 1 else 0) +
        Stage.keys ctx ⟨m.state, op⟩ ∧
      (m.state.opCount ≤ ctx.budget → st.opCount ≤ ctx.budget) := by
  obtain ⟨-, henabled, hact, -⟩ := Effect.perform_ok.mp hp
  have hversion := Effect.not_isVersionBranch_of_act hact
  rw [Opcode.isVersionBranch, Bool.or_eq_false_iff, beq_eq_false_iff_ne, beq_eq_false_iff_ne] at hversion
  exact ⟨⟨(read_of_next hn).2, henabled, hversion⟩, Effect.perform_counts hp⟩

/-- By induction on the steps. -/
theorem Steps.vouches (h : Steps ctx m trail m') :
    (∀ op ∈ trail.map Stage.op, op.Passes) ∧
      Operation.nesting m.state.branches.length (trail.map Stage.op) =
        some m'.state.branches.length ∧
      m'.state.opCount = m.state.opCount + Operation.counted (trail.map Stage.op) +
        (trail.map (Stage.keys ctx)).sum ∧
      (m.state.opCount ≤ ctx.budget → m'.state.opCount ≤ ctx.budget) := by
  induction h with
  | done m => exact ⟨fun op hop => absurd hop List.not_mem_nil, rfl, rfl, id⟩
  | next hn hs _ ih =>
    obtain ⟨op, rest, hn', hp, -⟩ := step_ok.mp hs
    rw [hn] at hn'
    cases hn'
    obtain ⟨hpass, hnest, hcount, hle⟩ := step_vouches hn hp
    obtain ⟨hpasses, hnesting, hcounts, hles⟩ := ih
    refine ⟨?_, ?_, ?_, fun hb => hles (hle hb)⟩
    · rw [List.map_cons]
      exact List.forall_mem_cons.mpr ⟨hpass, hpasses⟩
    · rw [List.map_cons, Operation.nesting_cons, hnest, Option.bind_some, hnesting]
    · rw [hcounts, hcount, List.map_cons, List.map_cons, List.sum_cons, Operation.counted_cons]
      dsimp only
      omega

/-- An evaluation that succeeds vouches for the whole script, whichever branches were taken: it is
not too long, reads as operations to its end, none of which is too long a push, disabled or a
conditional on a version, and its conditionals are balanced. The operation count is that of the
codes in the script and of the keys of the multisignatures that ran. At every point of the run as
many branches are open as conditionals have been opened and not closed. -/
theorem success_vouches_for_script (ctx : Context) (script : Script) (m m' : Machine)
    (h : eval ctx script m = .ok () m') :
    script.length ≤ Script.maxLength ∧ script.isWellFormed = true ∧
      (∀ op ∈ script.operations, op.Passes) ∧ Operation.Balanced script.operations ∧
      (∃ trail, Steps ctx (m.started script) trail m' ∧ trail.map Stage.op = script.operations ∧
        m'.state.opCount = Operation.counted script.operations + (trail.map (Stage.keys ctx)).sum ∧
        m'.state.opCount ≤ ctx.budget) ∧
      ∀ trail t, Steps ctx (m.started script) trail t →
        t.state.branches.length + Operation.closed (trail.map Stage.op) =
          Operation.opened (trail.map Stage.op) := by
  obtain ⟨hlength, hrun, hbranches⟩ := eval_ok.mp h
  obtain ⟨trail, hsteps, hdone⟩ := steps_of_run_ok hrun
  -- the steps have read all there is, so their operations are those of the script
  have hparse : Script.parse script.bytes = (trail.map Stage.op, []) := by
    have hnil : Script.parse [] = ([], []) := Script.parse_of_none rfl
    have hp := hsteps.reads.parse_eq
    rw [hdone, hnil, List.append_nil] at hp
    exact hp
  have hops : script.operations = trail.map Stage.op := congrArg Prod.fst hparse
  have hwhole : script.isWellFormed = true := by
    rw [Script.isWellFormed, Script.tail, hparse]
    rfl
  obtain ⟨hpasses, hnesting, hcount, hle⟩ := hsteps.vouches
  rw [hbranches] at hnesting
  refine ⟨hlength, hwhole, ?_, ?_, ⟨trail, hsteps, hops.symm, ?_, hle (Nat.zero_le _)⟩, ?_⟩
  · rw [hops]
    exact hpasses
  · rw [hops]
    exact Operation.balanced_iff.mpr hnesting
  · rw [hops, hcount]
    exact congrArg (· + _) (Nat.zero_add _)
  · intro trail t hsteps
    have hcounts := Operation.nesting_counts hsteps.vouches.2.1
    change _ = _ + 0 at hcounts
    omega

/-- Two keys are counted for the multisignature that runs, and none for the one that is skipped. -/
theorem success_vouches_for_skipped_multisig :
    let script : Script :=
      ⟨[0x00, 0x00, 0x01, 0x02, 0x01, 0x03, 0x52, 0x51, 0x63, 0xae, 0x67, 0xae, 0x68]⟩
    let ctx : Context := ⟨.ofList [], .none, 7⟩
    let m' : Machine :=
      { state := { main := [[1]], alt := [[7]], code := script.bytes, opCount := 7 }, script }
    eval ctx script { state := { alt := [[7]], branches := [false] } } = .ok () m' ∧
      Operation.Balanced script.operations ∧
      ∃ trail, Steps ctx (started script { state := { alt := [[7]], branches := [false] } }) trail m' ∧
        (trail.map (Stage.keys ctx)).sum = 2 := by
  intro script ctx m'
  have heval : eval ctx script { state := { alt := [[7]], branches := [false] } } = .ok () m' := by
    decide +kernel
  have hcounted : Operation.counted script.operations = 5 := by decide +kernel
  obtain ⟨-, -, -, hbalanced, ⟨trail, hsteps, -, hcount, -⟩, -⟩ :=
    success_vouches_for_script ctx script _ m' heval
  rw [hcounted] at hcount
  exact ⟨heval, hbalanced, trail, hsteps, Nat.add_left_cancel hcount.symm⟩

end Machine

end CoinScript
