import CoinScript.Engine.Control
import CoinScript.Engine.Data
import CoinScript.Engine.Signing

namespace CoinScript

open Effect

def Instruction.run (ctx : Context) (op : Opcode) (executing : Bool) (rest : Bytes) :
    Instruction → Effect Unit
  | .number n => onMain (Stack.pushNumber n)
  | .nop => pure ()
  | .reservedNop => demand (!ctx.flags.has .discourageNops) (.reservedNop op)
  | .checkLockTime => Control.checkLockTime ctx
  | .checkSequence => Control.checkSequence ctx
  | .branch on => Control.branch ctx on executing
  | .otherwise => Control.otherwise
  | .endBranch => Control.endBranch
  | .verify => assertTop .truth
  | .abort => throw .aborted
  | .toAlt => Control.toAlt
  | .fromAlt => Control.fromAlt
  | .arrange a => onMain a.run
  | .dupIfTrue => onMain Data.dupIfTrue
  | .depth => onMain Data.depth
  | .pick => onMain (Data.pickOrRoll ctx.minimal false)
  | .roll => onMain (Data.pickOrRoll ctx.minimal true)
  | .size => onMain Data.size
  | .concatenate => onMain Data.concatenate
  | .split => onMain (Data.split ctx.minimal)
  | .reverse => onMain (Data.reverse ctx.flags)
  | .toWidth => onMain (Data.toWidth ctx.minimal)
  | .toNumber => onMain Data.toNumber
  | .bitwise b => onMain (Data.bitwise b)
  | .equal insist => do
    onMain Data.equal
    if insist then assertTop .equality
  | .unary u => onMain (Data.unary ctx.minimal u)
  | .binary b insist => do
    onMain (Data.binary ctx.minimal b)
    if insist then assertTop .numericEquality
  | .within => onMain (Data.within ctx.minimal)
  | .hash kind => onMain (Data.hash kind)
  | .codeSeparator => modify fun st => { st with code := rest }
  | .checkSig insist => Signing.checkSig ctx insist
  | .checkMultisig insist => Signing.checkMultisig ctx insist
  | .checkDataSig insist => Signing.checkDataSig ctx insist
  | .invalid => throw (.invalidOpcode op)

namespace Effect

def pushData (ctx : Context) (op : Operation) : Effect Unit := do
  demand (!ctx.minimal || op.isMinimalPush) (.pushNotMinimal op.data.length)
  onMain (Stack.push op.data)

def checkDepth : Effect Unit := fun st =>
  if st.depth ≤ Fault.maxDepth then .ok () st else .error (.stackSize st.depth) st

/-- One operation, `rest` being what follows it. Counting and the ban on disabled codes come first
and hold in every branch; after that only conditionals run in a branch that is not taken. -/
def perform (ctx : Context) (op : Operation) (rest : Bytes) : Effect Unit := do
  let executing := (← get).isExecuting
  if op.code.isCounted then countOps ctx 1
  demand (!op.code.isDisabled) (.disabledOpcode op.code)
  if executing && op.isPush then pushData ctx op
  else if executing || op.code.isConditional then
    (Instruction.ofOpcode op.code).run ctx op.code executing rest
  checkDepth

end Effect

end CoinScript
