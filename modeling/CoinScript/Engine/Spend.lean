import CoinScript.Engine.Machine
import CoinScript.Script.Pattern

namespace CoinScript

/-- What a spend has used up: operations of the last script, signature checks of all. -/
structure SpendCost where
  opCount : Nat
  sigChecks : Nat
deriving DecidableEq

namespace Spend

/-- How many counted operations a script may have by consensus. -/
def maxOps : Nat := 201

def cost (m : Machine) : SpendCost := ⟨m.state.opCount, m.state.sigChecks⟩

/-- Runs a script and keeps the machine only if it succeeds. -/
def runScript (ctx : Context) (script : Script) (m : Machine) : Except Fault Machine :=
  match Machine.eval ctx script { m with state := { m.state with alt := [] } } with
  | .ok () m => .ok m
  | .error fault _ => .error fault

def requireTrueTop (m : Machine) : Except Fault Unit :=
  match m.state.main with
  | [] => .error .emptyStack
  | top :: _ => if Number.isTrue top then .ok () else .error .falseTop

def requirePushOnly (script : Script) : Except Fault Unit :=
  if script.isPushOnly then .ok () else .error .notPushOnly

def requireCleanStack (flags : Flags) (m : Machine) : Except Fault Unit :=
  if flags.has .cleanStack then
    if flags.has .p2sh then
      if m.state.main.length = 1 then .ok () else .error (.leftOverItems (m.state.main.length - 1))
    else .error .cleanStackWithoutP2sh
  else .ok ()

/-- A witness program revealed alone, which is let through so that coins sent to one by mistake can
be recovered. -/
def isSegwitRecovery (flags : Flags) (redeem : Script) (below : Stack) : Bool :=
  !flags.has .noSegwitRecovery && below.isEmpty && redeem.isWitnessProgram

end Spend

open Spend in
/-- Verifies a spend and reports its cost. -/
def verifySpend (ctx : Context) (unlocking locking : Script) : Except Fault SpendCost := do
  if ctx.flags.has .sigPushOnly then requirePushOnly unlocking
  let m ← runScript ctx unlocking {}
  let revealed := m.state.main
  let m ← runScript ctx locking m
  requireTrueTop m
  if ctx.flags.has .p2sh && locking.isP2sh ctx.flags then
    requirePushOnly unlocking
    match revealed with
    | [] => throw (.badIndex 0 0)
    | item :: below =>
      let redeem : Script := ⟨item⟩
      if isSegwitRecovery ctx.flags redeem below then return cost m
      let m ← runScript ctx redeem { m with state := { m.state with main := below } }
      requireTrueTop m
      requireCleanStack ctx.flags m
      return cost m
  else
    requireCleanStack ctx.flags m
    return cost m

end CoinScript
