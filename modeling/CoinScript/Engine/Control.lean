import CoinScript.Engine.State

namespace CoinScript.Control

open Effect

/-- Under the flag a condition is empty or the single byte one. -/
def isMinimalCondition (item : Bytes) : Bool := item == [] || item == [1]

/-- Opens a conditional; in a branch that is not taken it looks at no item. -/
def branch (ctx : Context) (on : Bool) (executing : Bool) : Effect Unit := fun st =>
  if executing then
    match st.main with
    | [] => .error .conditionMissing st
    | top :: s =>
      if ctx.flags.has .minimalIf && !isMinimalCondition top then
        .error (.conditionNotMinimal top) { st with main := s }
      else .ok () { st with main := s, branches := (Number.isTrue top == on) :: st.branches }
  else .ok () { st with branches := false :: st.branches }

def otherwise : Effect Unit := fun st =>
  match st.branches with
  | [] => .error (.unmatched "OP_ELSE") st
  | b :: bs => .ok () { st with branches := (!b) :: bs }

def endBranch : Effect Unit := fun st =>
  match st.branches with
  | [] => .error (.unmatched "OP_ENDIF") st
  | _ :: bs => .ok () { st with branches := bs }

def toAlt : Effect Unit := fun st =>
  match st.main with
  | [] => .error (.badIndex 0 0) st
  | top :: s => .ok () { st with main := s, alt := top :: st.alt }

def fromAlt : Effect Unit := fun st =>
  match st.alt with
  | [] => .error .altStackEmpty st
  | top :: s => .ok () { st with main := top :: st.main, alt := s }

/-- The top item as a lock time. -/
def lockTimeOperand (ctx : Context) : Effect Int := do
  onMain (Stack.require 1)
  let n ← orFail (Number.decode ctx.minimal Number.lockTimeLimit ((← get).main.headD []))
  demand (0 ≤ n) (.negativeLockTime n)
  return n

def checkLockTime (ctx : Context) : Effect Unit := do
  if ctx.flags.has .checkLockTime then
    let n ← lockTimeOperand ctx
    demand (ctx.checker.lockTime n) (.lockTimeUnsatisfied n)

/-- The bit that turns a relative lock time off. -/
def disableBit : Nat := 31

def checkSequence (ctx : Context) : Effect Unit := do
  if ctx.flags.has .checkSequence then
    let n ← lockTimeOperand ctx
    demand (n.toNat.testBit disableBit || ctx.checker.sequence n) (.sequenceUnsatisfied n)

end CoinScript.Control
