import CoinScript.Proofs.Framing
import CoinScript.Proofs.Parsing
import CoinScript.Proofs.Running

namespace CoinScript

namespace Operation

/-- Operations read off the front of a byte string one after the other. -/
inductive Reads : Bytes → List Operation → Bytes → Prop
  | done (bs : Bytes) : Reads bs [] bs
  | next {bs mid rest : Bytes} {op : Operation} {ops : List Operation}
      (hr : read? bs = some (op, mid)) (h : Reads mid ops rest) : Reads bs (op :: ops) rest

namespace Reads

variable {bs mid rest : Bytes} {op : Operation} {ops ops' : List Operation}

theorem append (h : Reads bs ops mid) (h' : Reads mid ops' rest) : Reads bs (ops ++ ops') rest := by
  induction h with
  | done => exact h'
  | next hr _ ih => exact .next hr (ih h')

theorem snoc (h : Reads bs ops mid) (hr : read? mid = some (op, rest)) :
    Reads bs (ops ++ [op]) rest :=
  h.append (.next hr (.done rest))

theorem parse_eq (h : Reads bs ops rest) :
    Script.parse bs = (ops ++ (Script.parse rest).1, (Script.parse rest).2) := by
  induction h with
  | done => rfl
  | next hr _ ih =>
    rw [Script.parse_of_some hr, ih]
    rfl

theorem eq_append (h : Reads bs ops rest) : bs = ops.flatMap Operation.bytes ++ rest := by
  induction h with
  | done => rfl
  | next hr _ ih => rw [(eq_of_read? hr).1, ih, List.flatMap_cons, List.append_assoc]

theorem extend (more : Bytes) (h : Reads bs ops rest) : Reads (bs ++ more) ops (rest ++ more) := by
  induction h with
  | done bs => exact .done _
  | next hr _ ih => exact .next (read?_append more hr) ih

theorem length_le (h : Reads bs ops rest) : rest.length ≤ bs.length := by
  rw [h.eq_append, List.length_append]
  exact Nat.le_add_left _ _

theorem drop_eq (h : Reads bs ops rest) : bs.drop (bs.length - rest.length) = rest := by
  have hlength : bs.length - rest.length = (ops.flatMap Operation.bytes).length := by
    rw [h.eq_append, List.length_append, Nat.add_sub_cancel]
  rw [hlength, h.eq_append, List.drop_left]

end Reads

/-- A byte string is read up to its tail. -/
theorem reads_parse (bs : Bytes) : Reads bs (Script.parse bs).1 (Script.parse bs).2 := by
  cases h : read? bs with
  | none =>
    rw [Script.parse_of_none h]
    exact .done bs
  | some found =>
    obtain ⟨op, rest⟩ := found
    have hlt := read?_length h
    rw [Script.parse_of_some h]
    exact .next h (reads_parse rest)
termination_by bs.length

end Operation

/-- Places of a script, counted in bytes, at which an operation ends or the first one begins. -/
def Script.IsBoundary (s : Script) (n : Nat) : Prop :=
  ∃ before after, s.operations = before ++ after ∧ n = (before.flatMap Operation.bytes).length

theorem Script.isBoundary_of_reads {s : Script} {ops : List Operation} {rest : Bytes}
    (h : Operation.Reads s.bytes ops rest) : s.IsBoundary (s.length - rest.length) := by
  have hparse : s.operations = ops ++ (Script.parse rest).1 := congrArg Prod.fst h.parse_eq
  have hlength : s.length = (ops.flatMap Operation.bytes).length + rest.length := by
    rw [← List.length_append, ← h.eq_append]
    rfl
  exact ⟨ops, _, hparse, by omega⟩

/-- An operation of a run together with the state that it met. -/
structure Stage where
  state : State
  op : Operation

namespace Machine

variable {ctx : Context} {m t m' : Machine} {op : Operation} {rest : Bytes} {trail : List Stage}

theorem read_of_next (h : m.next = .ok (op, rest)) :
    Operation.read? m.unread = some (op, rest) ∧ op.data.length ≤ Fault.maxItem := by
  unfold next at h
  split at h
  · cases h
  · next hr =>
    split at h
    · next hl =>
      cases h
      exact ⟨hr, hl⟩
    · cases h

/-- A step reads an operation and performs it. -/
theorem step_ok :
    step ctx m = .ok () t ↔ ∃ op rest, m.next = .ok (op, rest) ∧
      Effect.perform ctx op rest m.state = .ok () t.state ∧ t = ⟨t.state, m.script, rest⟩ := by
  constructor
  · intro h
    cases hn : m.next with
    | error fault =>
      rw [step, hn] at h
      cases h
    | ok found =>
      obtain ⟨op, rest⟩ := found
      obtain ⟨st, hp, rfl⟩ := (step_next_ok hn).mp h
      exact ⟨op, rest, rfl, hp, rfl⟩
  · intro h
    obtain ⟨op, rest, hn, hp, ht⟩ := h
    exact (step_next_ok hn).mpr ⟨t.state, hp, ht.symm⟩

/-- What a step leaves that fails: either there was no operation to read, or it was performed up to
the fault. -/
theorem step_error {fault : Fault} (h : step ctx m = .error fault t) :
    t = m ∨ ∃ op rest, m.next = .ok (op, rest) ∧
      Effect.perform ctx op rest m.state = .error fault t.state := by
  unfold step at h
  split at h
  · cases h
    exact .inl rfl
  · next op rest hn =>
    split at h
    · cases h
    · next state hp =>
      cases h
      exact .inr ⟨op, rest, hn, hp⟩

/-- Steps that succeed, one after the other, from one machine to another. -/
inductive Steps (ctx : Context) : Machine → List Stage → Machine → Prop
  | done (m : Machine) : Steps ctx m [] m
  | next {m t m' : Machine} {op : Operation} {rest : Bytes} {trail : List Stage}
      (hn : m.next = .ok (op, rest)) (hs : step ctx m = .ok () t) (h : Steps ctx t trail m') :
      Steps ctx m (⟨m.state, op⟩ :: trail) m'

theorem Steps.reads (h : Steps ctx m trail m') :
    Operation.Reads m.unread (trail.map Stage.op) m'.unread := by
  induction h with
  | done => exact .done _
  | next hn hs _ ih =>
    obtain ⟨op, rest, hn', -, ht⟩ := step_ok.mp hs
    rw [hn] at hn'
    cases hn'
    rw [ht] at ih
    exact .next (read_of_next hn).1 ih

/-- What holds of a machine holds after any number of steps, if every step keeps it. -/
theorem Steps.invariant {P : Machine → Prop} (h : Steps ctx m trail m')
    (hstep : ∀ m op rest st, m.next = .ok (op, rest) →
      Effect.perform ctx op rest m.state = .ok () st → P m → P ⟨st, m.script, rest⟩)
    (hm : P m) : P m' := by
  induction h with
  | done => exact hm
  | next hn hs _ ih =>
    obtain ⟨op, rest, hn', hp, ht⟩ := step_ok.mp hs
    apply ih
    rw [ht]
    exact hstep _ _ _ _ hn' hp hm

theorem Steps.script_eq (h : Steps ctx m trail m') : m'.script = m.script :=
  h.invariant (P := fun t => t.script = m.script) (fun _ _ _ _ _ _ hm => hm) rfl

/-- Every run consists of steps that succeed, up to the end of the script or a step that fails. By
induction on the run. -/
theorem exists_steps (ctx : Context) (m : Machine) :
    (∃ trail m', Steps ctx m trail m' ∧ m'.unread = [] ∧ run ctx m = .ok () m') ∨
      ∃ trail t fault m', Steps ctx m trail t ∧ step ctx t = .error fault m' ∧
        run ctx m = .error fault m' := by
  induction m using run.induct ctx with
  | case1 m hf =>
    have hu : m.unread = [] := List.isEmpty_iff.mp hf
    exact .inl ⟨[], m, .done m, hu, run_done hu⟩
  | case2 m hf t hs ih =>
    obtain ⟨op, rest, hn, -, -⟩ := step_ok.mp hs
    rw [run_step_ok hs]
    rcases ih with ⟨trail, m', h, hu, hr⟩ | ⟨trail, t', fault, m', h, he, hr⟩
    · exact .inl ⟨_, m', .next hn hs h, hu, hr⟩
    · exact .inr ⟨_, t', fault, m', .next hn hs h, he, hr⟩
  | case3 m hf fault t hs =>
    exact .inr ⟨[], m, fault, t, .done m, hs, run_step_error (by simpa using hf) hs⟩

theorem steps_of_run_ok (h : run ctx m = .ok () m') :
    ∃ trail, Steps ctx m trail m' ∧ m'.unread = [] := by
  rcases exists_steps ctx m with ⟨trail, t, hs, hu, hr⟩ | ⟨_, _, fault, t, -, -, hr⟩
  · rw [h] at hr
    cases hr
    exact ⟨trail, hs, hu⟩
  · rw [h] at hr
    cases hr

/-- Ending a script changes nothing. -/
theorem eval_final {script : Script} (hl : script.length ≤ Script.maxLength) :
    finalState (eval ctx script m) = finalState (run ctx (m.started script)) := by
  have hfinish : Effect.Looks finish := by
    intro t
    unfold finish
    split <;> rfl
  rw [eval_of_length hl]
  refine Effect.bind_final (P := (· = _)) rfl fun _ t ht => ?_
  rw [hfinish t, finalState_of_ok ht]

end Machine

end CoinScript
