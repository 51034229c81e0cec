import CoinScript.Engine.Checker
import CoinScript.Engine.Operand
import CoinScript.Engine.Stack
import CoinScript.Script.Flags

namespace CoinScript

/-- What is fixed for a whole evaluation. -/
structure Context where
  flags : Flags
  checker : Checker
  /-- How many counted operations a script may have. -/
  budget : Nat

def Context.minimal (ctx : Context) : Bool := ctx.flags.has .minimalData

structure State where
  main : Stack := []
  alt : Stack := []
  /-- Whether each open conditional is in a branch that is taken, innermost first. -/
  branches : List Bool := []
  /-- What signatures commit to: the script after the last separator that ran. -/
  code : Bytes := []
  /-- All bits that occurred in hash types. -/
  hashTypes : UInt8 := 0
  opCount : Nat := 0
  sigChecks : Nat := 0

/-- A failing effect keeps the state it failed in. -/
abbrev Effect (α : Type) := EStateM Fault State α

namespace State

def isExecuting (st : State) : Bool := st.branches.all id

def depth (st : State) : Nat := st.main.length + st.alt.length

end State

namespace Effect

def onMain {α : Type} (step : StackStep α) : Effect α := fun st =>
  match step st.main with
  | .ok a main => .ok a { st with main }
  | .error fault main => .error fault { st with main }

def orFail {α : Type} (result : Except Fault α) : Effect α := fun st =>
  match result with
  | .ok a => .ok a st
  | .error fault => .error fault st

def demand (condition : Bool) (fault : Fault) : Effect Unit := fun st =>
  if condition then .ok () st else .error fault st

/-- Counts operations; the count is kept also when it exceeds the budget. -/
def countOps (ctx : Context) (n : Nat) : Effect Unit := fun st =>
  let st := { st with opCount := st.opCount + n }
  if st.opCount ≤ ctx.budget then .ok () st else .error (.opBudget ctx.budget) st

def countSigChecks (n : Nat) : Effect Unit := fun st =>
  .ok () { st with sigChecks := st.sigChecks + n }

/-- Fails unless the top item is true, and pops it. -/
def assertTop (assertion : Assertion) : Effect Unit := onMain fun
  | [] => .error (.tooFewItems 1 0) []
  | top :: s =>
    if Number.isTrue top then .ok () s else .error (.assertionFailed assertion) (top :: s)

end Effect

end CoinScript
