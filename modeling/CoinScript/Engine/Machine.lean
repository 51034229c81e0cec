import CoinScript.Engine.Perform

namespace CoinScript

/-- Stacks live on from script to script; everything else starts afresh with each. -/
structure Machine where
  state : State := {}
  script : Script := .empty
  /-- The end of the script that has not been read. -/
  unread : Bytes := []

abbrev MachineStep (α : Type) := EStateM Fault Machine α

namespace Machine

def ofStack (main : Stack) : Machine := { state := { main } }

/-- How many bytes of the script have been read. -/
def position (m : Machine) : Nat := m.script.length - m.unread.length

def isFinished (m : Machine) : Bool := m.unread.isEmpty

/-- The next operation and what follows it. -/
def next (m : Machine) : Except Fault (Operation × Bytes) :=
  match Operation.read? m.unread with
  | none => .error (.malformedPush m.position)
  | some (op, rest) =>
    if op.data.length ≤ Fault.maxItem then .ok (op, rest) else .error (.pushSize op.data.length)

/-- Whether the next operation would run, and the operation. -/
def peek (m : Machine) : Except Fault (Bool × Operation) :=
  m.next.map fun (op, _) => (m.state.isExecuting, op)

/-- Loads a script. One that is too long leaves the machine without a script. -/
def start (script : Script) : MachineStep Unit := fun m =>
  let state : State :=
    { m.state with branches := [], code := script.bytes, hashTypes := 0, opCount := 0 }
  if script.length ≤ Script.maxLength then .ok () ⟨state, script, script.bytes⟩
  else .error (.scriptSize script.length) ⟨{ state with code := [] }, .empty, []⟩

def step (ctx : Context) : MachineStep Unit := fun m =>
  match m.next with
  | .error fault => .error fault m
  | .ok (op, rest) =>
    match Effect.perform ctx op rest m.state with
    | .ok () state => .ok () ⟨state, m.script, rest⟩
    | .error fault state => .error fault ⟨state, m.script, rest⟩

def pop : MachineStep Bytes := fun m =>
  match Stack.pop m.state.main with
  | .ok item main => .ok item { m with state := { m.state with main } }
  | .error fault main => .error fault { m with state := { m.state with main } }

def withMain (m : Machine) (main : Stack) : Machine := { m with state := { m.state with main } }

def clearAlt (m : Machine) : Machine := { m with state := { m.state with alt := [] } }

/-- Ends a script, all of whose conditionals must be closed. -/
def finish : MachineStep Unit := fun m =>
  if m.state.branches.isEmpty then .ok () m else .error .unclosedConditional m

theorem next_length {m : Machine} {op : Operation} {rest : Bytes} (h : m.next = .ok (op, rest)) :
    rest.length < m.unread.length := by
  unfold next at h
  split at h
  · cases h
  · next hr =>
    split at h
    · cases h
      exact Operation.read?_length hr
    · cases h

theorem step_length {ctx : Context} {m m' : Machine} (h : step ctx m = .ok () m') :
    m'.unread.length < m.unread.length := by
  unfold step at h
  split at h
  · cases h
  · next hn =>
    split at h
    · cases h
      exact next_length hn
    · cases h

/-- Steps until the script has been read or a step fails. -/
def run (ctx : Context) (m : Machine) : EStateM.Result Fault Machine Unit :=
  if m.isFinished then .ok () m
  else
    match _ : step ctx m with
    | .ok () m' => run ctx m'
    | .error fault m' => .error fault m'
termination_by m.unread.length
decreasing_by exact step_length (by assumption)

/-- Steps to the end of a script: the machine before each step with what the step came to, and what
the whole came to. -/
def walk (ctx : Context) (m : Machine) :
    List (Machine × EStateM.Result Fault Machine Unit) × EStateM.Result Fault Machine Unit :=
  if m.isFinished then ([], finish m)
  else
    match _ : step ctx m with
    | .error fault m' => ([(m, .error fault m')], .error fault m')
    | .ok () m' =>
      let (stages, last) := walk ctx m'
      ((m, .ok () m') :: stages, last)
termination_by m.unread.length
decreasing_by exact step_length (by assumption)

/-- Loads a script and walks through it. -/
def trace (ctx : Context) (script : Script) (m : Machine) :
    List (Machine × EStateM.Result Fault Machine Unit) × EStateM.Result Fault Machine Unit :=
  match start script m with
  | .ok () m => walk ctx m
  | .error fault m => ([], .error fault m)

def eval (ctx : Context) (script : Script) : MachineStep Unit := do
  start script
  run ctx
  finish

end Machine

/-- Runs one script on a stack. -/
def evalScript (ctx : Context) (script : Script) (main : Stack) :
    EStateM.Result Fault Stack Unit :=
  match Machine.eval ctx script (.ofStack main) with
  | .ok () m => .ok () m.state.main
  | .error fault m => .error fault m.state.main

end CoinScript
