import CoinScript.Engine.Perform
import CoinScript.Proofs.Outcome

namespace CoinScript

/-- The state in which an operation acts: it has been counted if its code is. -/
def State.counting (st : State) (op : Opcode) : State :=
  if op.isCounted then { st with opCount := st.opCount + 1 } else st

namespace State

variable {st : State} {op : Opcode}

theorem counting_eq (st : State) (op : Opcode) :
    st.counting op = { st with opCount := st.opCount + if op.isCounted then 1 else 0 } := by
  unfold counting
  split <;> rfl

@[simp] theorem counting_main : (st.counting op).main = st.main := by rw [counting_eq]

@[simp] theorem counting_branches : (st.counting op).branches = st.branches := by rw [counting_eq]

@[simp] theorem counting_code : (st.counting op).code = st.code := by rw [counting_eq]

@[simp] theorem counting_sigChecks : (st.counting op).sigChecks = st.sigChecks := by rw [counting_eq]

@[simp] theorem counting_opCount :
    (st.counting op).opCount = st.opCount + if op.isCounted then 1 else 0 := by rw [counting_eq]

@[simp] theorem counting_isExecuting : (st.counting op).isExecuting = st.isExecuting := by
  rw [counting_eq, isExecuting, isExecuting]

end State

namespace Opcode

variable {op : Opcode}

theorem uncounted_of_le (h : op ≤ sixteen) : op.isCounted = false := by
  simpa [isCounted] using h

theorem enabled_of_le (h : op ≤ sixteen) : op.isDisabled = false := by
  rw [Bool.eq_false_iff]
  intro hd
  simp only [isDisabled, List.contains_eq_mem, List.mem_cons, List.not_mem_nil, or_false,
    decide_eq_true_eq] at hd
  rcases hd with rfl | rfl | rfl | rfl | rfl | rfl <;> exact absurd h (by decide)

/-- What a code does that runs, `rest` being what follows it. -/
def run (ctx : Context) (rest : Bytes) (op : Opcode) : Effect Unit :=
  (Instruction.ofOpcode op).run ctx op true rest

end Opcode

namespace Effect

variable {ctx : Context} {op : Operation} {rest : Bytes} {st st' : State} {u : Unit}

theorem pushData_ok :
    pushData ctx op st = .ok u st' ↔
      (ctx.minimal = true → op.isMinimalPush = true) ∧ { st with main := op.data :: st.main } = st' := by
  simp only [pushData, bind_ok, demand_ok, onMain_ok, Stack.push_ok]
  constructor
  · intro h
    obtain ⟨_, _, ⟨hm, rfl⟩, _, rfl, rfl⟩ := h
    refine ⟨fun h => ?_, rfl⟩
    simpa [h] using hm
  · intro h
    obtain ⟨hm, rfl⟩ := h
    refine ⟨(), st, ⟨?_, rfl⟩, _, rfl, rfl⟩
    cases h : ctx.minimal with
    | false => rfl
    | true => simpa using hm h

theorem checkDepth_ok : checkDepth st = .ok u st' ↔ st.depth ≤ Fault.maxDepth ∧ st = st' := by
  by_cases h : st.depth ≤ Fault.maxDepth <;> simp [checkDepth, h]

/-- The part of an operation that depends on its branch and its code. -/
def act (ctx : Context) (op : Operation) (rest : Bytes) (executing : Bool) : Effect Unit :=
  if executing && op.isPush then pushData ctx op
  else if executing || op.code.isConditional then
    (Instruction.ofOpcode op.code).run ctx op.code executing rest
  else pure ()

/-- The part of an operation that is the same in every branch. -/
def enter (ctx : Context) (op : Opcode) : Effect Unit := do
  if op.isCounted then countOps ctx 1
  demand (!op.isDisabled) (.disabledOpcode op)

theorem perform_eq :
    perform ctx op rest = (do
      let executing := (← get).isExecuting
      enter ctx op.code
      act ctx op rest executing
      checkDepth) := by
  unfold perform enter act
  congr 1
  funext st
  dsimp only
  cases op.code.isCounted <;> cases st.isExecuting && op.isPush <;>
    cases st.isExecuting || op.code.isConditional <;> simp

theorem enter_ok :
    enter ctx op.code st = .ok u st' ↔
      (op.code.isCounted = true → st.opCount + 1 ≤ ctx.budget) ∧ op.code.isDisabled = false ∧
        st.counting op.code = st' := by
  unfold enter State.counting
  split
  · next hc => simp [bind_ok, countOps_ok, demand_ok, hc, and_assoc]
  · next hc => simp [demand_ok, hc]

/-- An operation succeeds if it may run, acts, and leaves the stacks within their limit. -/
theorem perform_ok :
    perform ctx op rest st = .ok u st' ↔
      (op.code.isCounted = true → st.opCount + 1 ≤ ctx.budget) ∧ op.code.isDisabled = false ∧
        act ctx op rest st.isExecuting (st.counting op.code) = .ok () st' ∧
        st'.depth ≤ Fault.maxDepth := by
  rw [perform_eq]
  simp only [bind_ok, get_ok, enter_ok, checkDepth_ok]
  constructor
  · intro h
    obtain ⟨_, _, ⟨rfl, rfl⟩, _, _, ⟨hb, hd, rfl⟩, _, _, ha, hl, rfl⟩ := h
    exact ⟨hb, hd, ha, hl⟩
  · intro h
    obtain ⟨hb, hd, ha, hl⟩ := h
    exact ⟨st, st, ⟨rfl, rfl⟩, (), _, ⟨hb, hd, rfl⟩, (), st', ha, hl, rfl⟩

theorem perform_push_ok (hx : st.isExecuting = true) (hp : op.isPush = true) :
    perform ctx op rest st = .ok u st' ↔
      (ctx.minimal = true → op.isMinimalPush = true) ∧
        { st with main := op.data :: st.main } = st' ∧ st'.depth ≤ Fault.maxDepth := by
  have hle : op.code ≤ Opcode.pushData4 := by simpa [Operation.isPush] using hp
  have hc : op.code ≤ Opcode.sixteen := UInt8.le_trans hle (by decide)
  have hs : st.counting op.code = st := by
    simp [State.counting, Opcode.uncounted_of_le hc]
  rw [perform_ok, hs, act, hx, hp]
  simp [pushData_ok, Opcode.uncounted_of_le hc, Opcode.enabled_of_le hc, and_assoc]

theorem perform_instruction_ok (hx : st.isExecuting = true) (hp : op.isPush = false) :
    perform ctx op rest st = .ok u st' ↔
      (op.code.isCounted = true → st.opCount + 1 ≤ ctx.budget) ∧ op.code.isDisabled = false ∧
        (Instruction.ofOpcode op.code).run ctx op.code true rest (st.counting op.code) =
          .ok () st' ∧
        st'.depth ≤ Fault.maxDepth := by
  rw [perform_ok, act, hx, hp]
  simp

end Effect

end CoinScript
