import CoinScript.Script.Builder

namespace CoinScript

/-- Numbers and names as words, pushed data as digits. -/
def Operation.assembly (op : Operation) : String :=
  if Opcode.isSmallNumber op.code then
    if op.code = Opcode.negativeOne then "OP_1NEGATE"
    else "OP_" ++ toString (Opcode.smallNumber op.code)
  else if op.isPush then Hex.encode op.data
  else Opcode.name op.code

namespace Script

/-- Words of the operations, and a mark where the script is cut short. -/
def assembly (s : Script) : String :=
  " ".intercalate (s.operations.map Operation.assembly ++ if s.isWellFormed then [] else ["[error]"])

/-- The bytes one word stands for. Codes that need data beside them are no words of assembly. -/
def assemblyWord (word : List Char) : Except ScriptFault Bytes :=
  match (Opcode.ofName? word).filter fun op => op > Opcode.pushData4 || op == Opcode.zero with
  | some op => .ok [op]
  | none =>
    match Hex.decode (String.ofList word) with
    | .ok data => pushBytes data
    | .error _ => .error (.badToken (String.ofList word))

def assemble : List (List Char) → Except ScriptFault Bytes
  | [] => .ok []
  | word :: words => do return (← assemblyWord word) ++ (← assemble words)

def ofAssembly (text : String) : Except ScriptFault Script :=
  (assemble (Text.words text.toList)).map Script.mk

end Script

end CoinScript
