import CoinScript.Engine.Fault
import CoinScript.Script.Number

namespace CoinScript

abbrev Stack := List Bytes

/-- A step on a stack. -/
abbrev StackStep (α : Type) := EStateM Fault Stack α

namespace Stack

def ofBottomFirst (items : List Bytes) : Stack := items.reverse

def bottomFirst (s : Stack) : List Bytes := s.reverse

/-- Goes on with a new stack if `n` items are there. -/
def needing (n : Nat) (next : List Bytes → List Bytes) : StackStep Unit := fun s =>
  if n ≤ s.length then .ok () (next s) else .error (.tooFewItems n s.length) s

def require (n : Nat) : StackStep Unit := needing n fun s => s

def push (item : Bytes) : StackStep Unit := fun s => .ok () (item :: s)

def pushNumber (n : Int) : StackStep Unit := push (Number.encode n)

def pushBool (b : Bool) : StackStep Unit := push (Number.ofBool b)

/-- The item `i` places below the top. -/
def peek (i : Nat) : StackStep Bytes := fun s =>
  match s[i]? with
  | some item => .ok item s
  | none => .error (.badIndex i s.length) s

/-- Takes the item `i` places below the top out of the stack. -/
def takeOut (i : Nat) : StackStep Bytes := fun s =>
  match s[i]? with
  | some item => .ok item (s.eraseIdx i)
  | none => .error (.badIndex i s.length) s

def pop : StackStep Bytes := takeOut 0

/-- `… a b` becomes `… b a b`. -/
def tuck : StackStep Unit := needing 2 fun s => s.take 2 ++ s.take 1 ++ s.drop 2

def drop (n : Nat) : StackStep Unit := needing n fun s => s.drop n

/-- Repeats the top `n` items. -/
def dup (n : Nat) : StackStep Unit := needing n fun s => s.take n ++ s

/-- Of three blocks of `n` items, brings the lowest to the top. -/
def rotate (n : Nat) : StackStep Unit :=
  needing (3 * n) fun s => (s.drop (2 * n)).take n ++ s.take (2 * n) ++ s.drop (3 * n)

/-- Exchanges the two top blocks of `n` items. -/
def swap (n : Nat) : StackStep Unit :=
  needing (2 * n) fun s => (s.drop n).take n ++ s.take n ++ s.drop (2 * n)

/-- Copies the second block of `n` items to the top. -/
def copySecond (n : Nat) : StackStep Unit := needing (2 * n) fun s => (s.drop n).take n ++ s

/-- Copies one item to the top. -/
def pick (i : Nat) : StackStep Unit := fun s =>
  match s[i]? with
  | some item => .ok () (item :: s)
  | none => .error (.badIndex i s.length) s

/-- Moves one item to the top. -/
def roll (i : Nat) : StackStep Unit := fun s =>
  match s[i]? with
  | some item => .ok () (item :: s.eraseIdx i)
  | none => .error (.badIndex i s.length) s

end Stack

end CoinScript
