import CoinScript.Engine.Machine
import CoinScript.Proofs.Performing

namespace CoinScript

deriving instance DecidableEq for State, Machine

namespace Operation

variable {code : Opcode} {data rest : Bytes}

theorem read?_code (h : Opcode.pushData4 < code) : read? (code :: rest) = some (⟨code, []⟩, rest) := by
  have h1 : ¬ code < Opcode.pushData1 :=
    UInt8.not_lt.mpr (UInt8.le_of_lt (UInt8.lt_trans (by decide) h))
  simp [read?, h1, UInt8.not_le.mpr h]

theorem read?_direct (h : code < Opcode.pushData1) (hd : data.length = code.toNat) :
    read? (code :: (data ++ rest)) = some (⟨code, data⟩, rest) := by
  simp [read?, h, ofData?, ← hd, Bytes.split?_append]

theorem isMinimalPush_direct (hd : data.length = code.toNat) (h2 : 2 ≤ data.length)
    (h75 : data.length ≤ 75) : isMinimalPush ⟨code, data⟩ = true := by
  match data with
  | [] => simp at h2
  | [_] => simp at h2
  | a :: b :: data =>
    unfold isMinimalPush
    dsimp only
    rw [if_pos h75, hd]
    exact beq_self_eq_true _

end Operation

namespace Machine

variable {ctx : Context} {m m' : Machine} {op : Operation} {data rest : Bytes} {script : Script}

theorem next_of_read (hr : Operation.read? m.unread = some (op, rest))
    (hl : op.data.length ≤ Fault.maxItem) : m.next = .ok (op, rest) := by
  simp [next, hr, hl]

theorem run_done (h : m.unread = []) : run ctx m = .ok () m := by
  rw [run]
  simp [isFinished, h]

theorem run_step_ok (hs : step ctx m = .ok () m') : run ctx m = run ctx m' := by
  have hl := step_length hs
  have hf : m.isFinished = false := by
    cases hu : m.unread with
    | nil => simp [hu] at hl
    | cons b bs => simp [isFinished, hu]
  rw [run, hf]
  split
  · contradiction
  · split
    · next h => rw [hs] at h; cases h; rfl
    · next h => rw [hs] at h; cases h

theorem run_step_error {fault : Fault} (hf : m.isFinished = false)
    (hs : step ctx m = .error fault m') : run ctx m = .error fault m' := by
  rw [run, hf]
  split
  · contradiction
  · split
    · next h => rw [hs] at h; cases h
    · next h => rw [hs] at h; cases h; rfl

theorem step_next_ok (h : m.next = .ok (op, rest)) :
    step ctx m = .ok () m' ↔
      ∃ st, Effect.perform ctx op rest m.state = .ok () st ∧ ⟨st, m.script, rest⟩ = m' := by
  unfold step
  rw [h]
  dsimp only
  cases Effect.perform ctx op rest m.state <;> simp

theorem run_ok :
    run ctx m = .ok () m' ↔
      (m.unread = [] ∧ m = m') ∨ ∃ t, step ctx m = .ok () t ∧ run ctx t = .ok () m' := by
  constructor
  · intro h
    rw [run] at h
    split at h
    · next hf =>
      cases h
      exact .inl ⟨List.isEmpty_iff.mp hf, rfl⟩
    · split at h
      · next t hs => exact .inr ⟨t, hs, h⟩
      · cases h
  · intro h
    rcases h with ⟨hu, rfl⟩ | ⟨t, hs, hr⟩
    · exact run_done hu
    · rw [run_step_ok hs]
      exact hr

theorem run_next_ok (h : m.next = .ok (op, rest)) :
    run ctx m = .ok () m' ↔ ∃ st, Effect.perform ctx op rest m.state = .ok () st ∧
      run ctx ⟨st, m.script, rest⟩ = .ok () m' := by
  rw [run_ok]
  constructor
  · intro h
    rcases h with ⟨hu, -⟩ | ⟨t, hs, hr⟩
    · have hl := next_length h
      simp [hu] at hl
    · obtain ⟨st, hp, rfl⟩ := (step_next_ok h).mp hs
      exact ⟨st, hp, hr⟩
  · intro h
    obtain ⟨st, hp, hr⟩ := h
    exact .inr ⟨_, (step_next_ok h).mpr ⟨st, hp, rfl⟩, hr⟩

theorem isFinished_of_read {st : State} {bs : Bytes} (hr : Operation.read? bs = some (op, rest)) :
    isFinished ⟨st, script, bs⟩ = false := by
  cases bs with
  | nil => cases hr
  | cons b bs => rfl

/-- An operation that is longer than an item may be is not performed. -/
theorem run_of_push_size {st : State} {bs : Bytes} (hr : Operation.read? bs = some (op, rest))
    (hl : ¬ op.data.length ≤ Fault.maxItem) :
    run ctx ⟨st, script, bs⟩ = .error (.pushSize op.data.length) ⟨st, script, bs⟩ := by
  have hn : next ⟨st, script, bs⟩ = .error (.pushSize op.data.length) := by
    simp [next, hr, hl]
  apply run_step_error (isFinished_of_read hr)
  rw [step, hn]

/-- One operation of a run: it has been read whole, is no longer than an item may be, and acts. -/
theorem run_read_ok {st : State} {bs : Bytes} (hr : Operation.read? bs = some (op, rest)) :
    run ctx ⟨st, script, bs⟩ = .ok () m' ↔
      op.data.length ≤ Fault.maxItem ∧ ∃ st', Effect.perform ctx op rest st = .ok () st' ∧
        run ctx ⟨st', script, rest⟩ = .ok () m' := by
  by_cases hl : op.data.length ≤ Fault.maxItem
  · rw [run_next_ok (next_of_read hr hl)]
    simp [hl]
  · simp [run_of_push_size hr hl, hl]

theorem run_of_perform_ok {st st' : State} {bs : Bytes} (hr : Operation.read? bs = some (op, rest))
    (hl : op.data.length ≤ Fault.maxItem) (hp : Effect.perform ctx op rest st = .ok () st') :
    run ctx ⟨st, script, bs⟩ = run ctx ⟨st', script, rest⟩ :=
  run_step_ok ((step_next_ok (next_of_read hr hl)).mpr ⟨st', hp, rfl⟩)

theorem run_of_perform_error {st st' : State} {bs : Bytes} {fault : Fault}
    (hr : Operation.read? bs = some (op, rest)) (hl : op.data.length ≤ Fault.maxItem)
    (hp : Effect.perform ctx op rest st = .error fault st') :
    run ctx ⟨st, script, bs⟩ = .error fault ⟨st', script, rest⟩ := by
  apply run_step_error (isFinished_of_read hr)
  rw [step, next_of_read hr hl]
  dsimp only
  rw [hp]

theorem run_code_ok {st : State} {code : Opcode} (h : Opcode.pushData4 < code) :
    run ctx ⟨st, script, code :: rest⟩ = .ok () m' ↔
      ∃ st', Effect.perform ctx ⟨code, []⟩ rest st = .ok () st' ∧
        run ctx ⟨st', script, rest⟩ = .ok () m' :=
  run_next_ok (next_of_read (Operation.read?_code h) (by simp))

theorem run_direct_ok {st : State} {code : Opcode} {data : Bytes} (h : code < Opcode.pushData1)
    (hd : data.length = code.toNat) :
    run ctx ⟨st, script, code :: (data ++ rest)⟩ = .ok () m' ↔
      ∃ st', Effect.perform ctx ⟨code, data⟩ rest st = .ok () st' ∧
        run ctx ⟨st', script, rest⟩ = .ok () m' := by
  refine run_next_ok (next_of_read (Operation.read?_direct h hd) ?_)
  have := UInt8.lt_iff_toNat_lt.mp h
  have hs : Opcode.pushData1.toNat ≤ Fault.maxItem := by decide
  simp only [hd]
  omega

/-- A code that is counted, in a branch that is taken: it costs one operation, and it acts. -/
theorem run_instruction_ok {st : State} {code : Opcode} (hc : Opcode.sixteen < code)
    (hd : code.isDisabled = false) (hx : st.isExecuting = true) :
    run ctx ⟨st, script, code :: rest⟩ = .ok () m' ↔
      st.opCount + 1 ≤ ctx.budget ∧ ∃ st',
        (Instruction.ofOpcode code).run ctx code true rest { st with opCount := st.opCount + 1 } =
          .ok () st' ∧
        st'.depth ≤ Fault.maxDepth ∧ run ctx ⟨st', script, rest⟩ = .ok () m' := by
  have hp : Opcode.pushData4 < code := UInt8.lt_trans (by decide) hc
  have hn : Operation.isPush ⟨code, []⟩ = false := by
    simpa [Operation.isPush] using UInt8.not_le.mpr hp
  have hi : code.isCounted = true := by simpa [Opcode.isCounted] using hc
  have hs : st.counting code = { st with opCount := st.opCount + 1 } := by
    simp [State.counting, hi]
  rw [run_code_ok hp]
  simp only [Effect.perform_instruction_ok hx hn, hs, hi, hd, forall_const, true_and]
  constructor
  · intro h
    obtain ⟨st', ⟨hb, ha, hl⟩, hr⟩ := h
    exact ⟨hb, st', ha, hl, hr⟩
  · intro h
    obtain ⟨hb, st', ha, hl, hr⟩ := h
    exact ⟨st', ⟨hb, ha, hl⟩, hr⟩

/-- A direct push of two bytes or more, which is minimal. -/
theorem run_push_ok {st : State} {code : Opcode} (hd : data.length = code.toNat)
    (h2 : 2 ≤ data.length) (h75 : data.length ≤ 75) (hx : st.isExecuting = true) :
    run ctx ⟨st, script, code :: (data ++ rest)⟩ = .ok () m' ↔
      State.depth { st with main := data :: st.main } ≤ Fault.maxDepth ∧
        run ctx ⟨{ st with main := data :: st.main }, script, rest⟩ = .ok () m' := by
  have hlt : code < Opcode.pushData1 := by
    have hv : Opcode.pushData1.toNat = 76 := rfl
    apply UInt8.lt_iff_toNat_lt.mpr
    omega
  have hp : Operation.isPush ⟨code, data⟩ = true := by
    have hle : code ≤ Opcode.pushData4 :=
      UInt8.le_of_lt (UInt8.lt_of_lt_of_le hlt (by decide))
    simpa [Operation.isPush] using hle
  rw [run_direct_ok hlt hd]
  simp only [Effect.perform_push_ok hx hp, Operation.isMinimalPush_direct hd h2 h75, implies_true,
    true_and]
  constructor
  · intro h
    obtain ⟨_, ⟨rfl, hb⟩, hr⟩ := h
    exact ⟨hb, hr⟩
  · intro h
    obtain ⟨hb, hr⟩ := h
    exact ⟨_, ⟨rfl, hb⟩, hr⟩

/-- A machine that is about to run a script. Only the stacks and the number of signature checks are
those of the machine before. -/
def started (script : Script) (m : Machine) : Machine where
  state := { m.state with branches := [], code := script.bytes, hashTypes := 0, opCount := 0 }
  script := script
  unread := script.bytes

theorem eval_of_length (h : script.length ≤ Script.maxLength) :
    eval ctx script m = (run ctx >>= fun _ => finish) (m.started script) := by
  have hs : start script m = .ok () (m.started script) := if_pos h
  change EStateM.bind (start script) _ m = _
  unfold EStateM.bind
  rw [hs]

theorem eval_of_too_long (h : ¬ script.length ≤ Script.maxLength) :
    eval ctx script m = .error (.scriptSize script.length)
      ⟨{ (m.started script).state with code := [] }, .empty, []⟩ := by
  have hs : start script m = .error (.scriptSize script.length)
      ⟨{ (m.started script).state with code := [] }, .empty, []⟩ := if_neg h
  change EStateM.bind (start script) _ m = _
  unfold EStateM.bind
  rw [hs]

theorem eval_ok :
    eval ctx script m = .ok () m' ↔
      script.length ≤ Script.maxLength ∧ run ctx (m.started script) = .ok () m' ∧
        m'.state.branches = [] := by
  have hstart (t : Machine) : start script m = .ok () t ↔
      script.length ≤ Script.maxLength ∧ m.started script = t := by
    by_cases h : script.length ≤ Script.maxLength <;> simp [start, started, h]
  have hfinish (s : Machine) : finish s = .ok () m' ↔ s.state.branches = [] ∧ s = m' := by
    by_cases h : s.state.branches = [] <;> simp [finish, h]
  constructor
  · intro h
    obtain ⟨_, t, hs, h⟩ := Effect.bind_ok.mp h
    obtain ⟨_, t', hr, hf⟩ := Effect.bind_ok.mp h
    obtain ⟨hl, rfl⟩ := (hstart t).mp hs
    obtain ⟨hb, rfl⟩ := (hfinish t').mp hf
    exact ⟨hl, hr, hb⟩
  · intro h
    obtain ⟨hl, hr, hb⟩ := h
    have hf : run ctx (m.started script) = .ok () m' ∧ finish m' = .ok () m' :=
      ⟨hr, (hfinish m').mpr ⟨hb, rfl⟩⟩
    exact Effect.bind_ok.mpr ⟨(), _, (hstart _).mpr ⟨hl, rfl⟩,
      Effect.bind_ok.mpr ⟨(), m', hf⟩⟩

end Machine

/-- One script on a stack: it is run from its first byte, and it must close its conditionals. -/
theorem evalScript_ok {ctx : Context} {script : Script} {s t : Stack} :
    evalScript ctx script s = .ok () t ↔
      script.length ≤ Script.maxLength ∧ ∃ m,
        Machine.run ctx ⟨{ main := s, code := script.bytes }, script, script.bytes⟩ = .ok () m ∧
        m.state.branches = [] ∧ m.state.main = t := by
  have h : evalScript ctx script s = .ok () t ↔
      ∃ m, Machine.eval ctx script (.ofStack s) = .ok () m ∧ m.state.main = t := by
    unfold evalScript
    cases Machine.eval ctx script (.ofStack s) <;> simp
  rw [h]
  constructor
  · intro h
    obtain ⟨m, he, hm⟩ := h
    obtain ⟨hl, hr, hb⟩ := Machine.eval_ok.mp he
    exact ⟨hl, m, hr, hb, hm⟩
  · intro h
    obtain ⟨hl, m, hr, hb, hm⟩ := h
    exact ⟨m, Machine.eval_ok.mpr ⟨hl, hr, hb⟩, hm⟩

end CoinScript
