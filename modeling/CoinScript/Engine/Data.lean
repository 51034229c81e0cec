import CoinScript.Engine.Instruction
import CoinScript.Engine.Stack
import CoinScript.Engine.Operand
import CoinScript.Script.Flags

namespace CoinScript

open EStateM (Result)

def Arrangement.run : Arrangement → StackStep Unit
  | .drop n => Stack.drop n
  | .dup n => Stack.dup n
  | .copySecond n => Stack.copySecond n
  | .rotate n => Stack.rotate n
  | .swap n => Stack.swap n
  | .nip => Stack.needing 2 fun s => s.take 1 ++ s.drop 2
  | .tuck => Stack.tuck

namespace Data

def maxItem : Nat := Fault.maxItem

/-- Replaces the top item, or fails with the item gone. -/
def onTop (f : Bytes → Except Fault Bytes) : StackStep Unit
  | [] => .error (.badIndex 0 0) []
  | top :: s =>
    match f top with
    | .ok item => .ok () (item :: s)
    | .error fault => .error fault s

/-- Replaces the two top items by others, or fails with both in place. -/
def onTwo (f : (a b : Bytes) → Except Fault (List Bytes)) : StackStep Unit
  | b :: a :: s =>
    match f a b with
    | .ok items => .ok () (items ++ s)
    | .error fault => .error fault (b :: a :: s)
  | s => .error (.tooFewItems 2 s.length) s

def concatenate : StackStep Unit := onTwo fun a b =>
  let length := b.length + a.length
  if length ≤ maxItem then .ok [a ++ b] else .error (.concatenationSize length)

def split (minimal : Bool) : StackStep Unit := onTwo fun a n => do
  let position ← Number.operand minimal n
  if 0 ≤ position ∧ position.toNat ≤ a.length then
    return [a.drop position.toNat, a.take position.toNat]
  throw (.splitRange position a.length)

def reverse (flags : Flags) : StackStep Unit :=
  if flags.has .reverseBytes then onTop fun item => .ok item.reverse
  else fun s => .error .reverseDisabled s

/-- The number below the top, spelled in as many bytes as the top says. -/
def toWidth (minimal : Bool) : StackStep Unit
  | n :: x :: s =>
    match Number.operand minimal n with
    | .error fault => .error fault (n :: x :: s)
    | .ok size =>
      if 0 ≤ size ∧ size.toNat ≤ maxItem then
        let shortest := Number.minimize x
        if shortest.length ≤ size.toNat then .ok () (Number.widen size.toNat shortest :: s)
        else .error (.widthTooSmall shortest.length size.toNat) s
      else .error (.widthOutOfRange size) (n :: x :: s)
  | s => .error (.tooFewItems 2 s.length) s

/-- The shortest spelling of a number that operations can take. -/
def toNumber : StackStep Unit := onTop fun item =>
  let shortest := Number.minimize item
  if Number.isMinimalWithin Number.operandLimit shortest then .ok shortest
  else .error (.notANumber shortest)

def bitwiseByte : Bitwise → UInt8 → UInt8 → UInt8
  | .and, a, b => a &&& b
  | .or, a, b => a ||| b
  | .xor, a, b => a ^^^ b

def bitwise (op : Bitwise) : StackStep Unit := onTwo fun a b =>
  if a.length = b.length then .ok [List.zipWith (bitwiseByte op) a b] else .error .operandSizes

def equal : StackStep Unit := onTwo fun a b => .ok [Number.ofBool (a == b)]

def hash (kind : HashKind) : StackStep Unit := onTop fun item => .ok (kind.digest item)

def size : StackStep Unit
  | [] => .error (.badIndex 0 0) []
  | top :: s => .ok () (Number.encode top.length :: top :: s)

def dupIfTrue : StackStep Unit
  | [] => .error (.badIndex 0 0) []
  | top :: s => .ok () (if Number.isTrue top then top :: top :: s else top :: s)

def depth : StackStep Unit := fun s => .ok () (Number.encode s.length :: s)

/-- Pops an index and copies or moves the item it points at. -/
def pickOrRoll (minimal move : Bool) : StackStep Unit
  | n :: x :: s =>
    match Number.operand minimal n with
    | .error fault => .error fault (n :: x :: s)
    | .ok index =>
      if 0 ≤ index ∧ index.toNat < (x :: s).length then
        if move then Stack.roll index.toNat (x :: s) else Stack.pick index.toNat (x :: s)
      else .error (.badIndex index (x :: s).length) (x :: s)
  | s => .error (.tooFewItems 2 s.length) s

def unaryResult (op : Unary) (a : Int) : Except Fault Int :=
  match op with
  | .increment => Number.add a 1
  | .decrement => Number.sub a 1
  | .negate => Number.neg a
  | .abs => Number.abs a
  | .not => .ok (if a = 0 then 1 else 0)
  | .isNonzero => .ok (if a = 0 then 0 else 1)

/-- A predicate as a number. -/
def truth (p : Bool) : Except Fault Int := .ok (if p then 1 else 0)

def binaryResult (op : Binary) (a b : Int) : Except Fault Int :=
  match op with
  | .add => Number.add a b
  | .sub => Number.sub a b
  | .div => if b = 0 then .error (.divisionByZero a) else Number.div a b
  | .mod => if b = 0 then .error (.moduloByZero a) else Number.mod a b
  | .boolAnd => truth (a != 0 && b != 0)
  | .boolOr => truth (a != 0 || b != 0)
  | .equal => truth (a == b)
  | .notEqual => truth (a != b)
  | .less => truth (decide (a < b))
  | .greater => truth (decide (b < a))
  | .lessOrEqual => truth (decide (a ≤ b))
  | .greaterOrEqual => truth (decide (b ≤ a))
  | .min => .ok (min a b)
  | .max => .ok (max a b)

/-- The operand is popped before the result is known. -/
def unary (minimal : Bool) (op : Unary) : StackStep Unit
  | [] => .error (.tooFewItems 1 0) []
  | n :: s =>
    match Number.operand minimal n with
    | .error fault => .error fault (n :: s)
    | .ok a =>
      match unaryResult op a with
      | .ok r => .ok () (Number.encode r :: s)
      | .error fault => .error fault s

def binary (minimal : Bool) (op : Binary) : StackStep Unit := onTwo fun a b => do
  let x ← Number.operand minimal a
  let y ← Number.operand minimal b
  return [Number.encode (← binaryResult op x y)]

/-- Whether a number is at least the second and less than the third. -/
def within (minimal : Bool) : StackStep Unit
  | high :: low :: n :: s =>
    match (do
        let x ← Number.operand minimal n
        let lo ← Number.operand minimal low
        let hi ← Number.operand minimal high
        return Number.ofBool (lo ≤ x && x < hi) : Except Fault Bytes) with
    | .ok item => .ok () (item :: s)
    | .error fault => .error fault (high :: low :: n :: s)
  | s => .error (.tooFewItems 3 s.length) s

end Data

end CoinScript
