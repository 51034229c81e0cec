import CoinScript.Script.Operation

namespace CoinScript

/-- Any byte string is a script. It reads as operations up to the first one that is cut short; what stands there is its
tail. -/
structure Script where
  bytes : Bytes
deriving DecidableEq

namespace Script

def empty : Script := ⟨[]⟩

def length (s : Script) : Nat := s.bytes.length

/-- Scripts longer than this never run. -/
def maxLength : Nat := 10000

/-- The operations that can be read off the front, and the bytes left when none can. -/
def parse (bs : Bytes) : List Operation × Bytes :=
  match _ : Operation.read? bs with
  | none => ([], bs)
  | some (op, rest) =>
    let (ops, tail) := parse rest
    (op :: ops, tail)
termination_by bs.length
decreasing_by exact Operation.read?_length (by assumption)

def operations (s : Script) : List Operation := (parse s.bytes).1

/-- What is left after the last whole operation. -/
def tail (s : Script) : Bytes := (parse s.bytes).2

def isWellFormed (s : Script) : Bool := s.tail.isEmpty

def ofOperations (ops : List Operation) : Script := ⟨ops.flatMap Operation.bytes⟩

/-- The part of a script after its first `n` bytes. -/
def after (s : Script) (n : Nat) : Script := ⟨s.bytes.drop n⟩

/-- Codes up to `OP_16`, which count as pushing whether or not they can run. -/
def isPushOnly (s : Script) : Bool :=
  s.isWellFormed && s.operations.all fun op => op.code ≤ Opcode.sixteen

def hex (s : Script) : String := Hex.encode s.bytes

/-- Drops copies of a pattern from the front and counts them. -/
def dropCopies (pattern : Bytes) (bs : Bytes) : Nat × Bytes :=
  if _ : pattern ≠ [] ∧ pattern.isPrefixOf bs then
    let (n, rest) := dropCopies pattern (bs.drop pattern.length)
    (n + 1, rest)
  else (0, bs)
termination_by bs.length
decreasing_by
  rename_i h
  have hp : 0 < pattern.length := List.length_pos_iff.mpr h.1
  have hl := (List.isPrefixOf_iff_prefix.mp h.2).length_le
  simp only [List.length_drop]
  omega

theorem dropCopies_length (pattern bs : Bytes) :
    (dropCopies pattern bs).2.length ≤ bs.length := by
  fun_induction dropCopies pattern bs with
  | case1 bs h n rest hr ih => simp [hr] at ih ⊢; omega
  | case2 => simp

/-- Removes copies of a pattern wherever an operation begins, counting them. -/
def removeFrom (pattern : Bytes) (bs : Bytes) : Nat × Bytes :=
  let kept := dropCopies pattern bs
  match _ : Operation.read? kept.2 with
  | none => kept
  | some (op, rest) =>
    let (n, out) := removeFrom pattern rest
    (kept.1 + n, op.bytes ++ out)
termination_by bs.length
decreasing_by
  exact Nat.lt_of_lt_of_le (Operation.read?_length (by assumption)) (dropCopies_length pattern bs)

def remove (s pattern : Script) : Nat × Script :=
  let (n, out) := removeFrom pattern.bytes s.bytes
  (n, ⟨out⟩)

end Script

end CoinScript
