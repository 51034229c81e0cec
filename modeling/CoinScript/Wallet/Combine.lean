import CoinScript.Engine.Machine
import CoinScript.Engine.Spend
import CoinScript.Template.Recognize

namespace CoinScript.Combine

/-- What a script leaves on an empty stack, as far as it runs. -/
def items (s : Script) : Stack :=
  match evalScript ⟨.only .strictEncoding, .none, Spend.maxOps⟩ s [] with
  | .ok _ items => items
  | .error _ items => items

def pushItems (items : Stack) : Except ScriptFault Script :=
  Script.empty.pushAll items.bottomFirst

/-- The items that are not empty, in dictionary order and each of them once. -/
def candidates (a b : Stack) : List Bytes :=
  (((a ++ b).filter (· ≠ [])).mergeSort Bytes.precedes).eraseDups

/-- Gives each signature to the first key without one that it fits. -/
def assign (fits : (sig key : Bytes) → Bool) (keys : List Bytes) :
    (given : List (Bytes × Bytes)) → (sigs : List Bytes) → List (Bytes × Bytes)
  | given, [] => given
  | given, sig :: sigs =>
    match keys.find? fun key => (given.lookup key).isNone && fits sig key with
    | some key => assign fits keys ((key, sig) :: given) sigs
    | none => assign fits keys given sigs

/-- A zero, up to `required` signatures in the order of their keys, and zeros for those missing. -/
def multisig (required : Nat) (keys : List Bytes) (fits : (sig key : Bytes) → Bool)
    (a b : Stack) : Except ScriptFault Script := do
  let given := assign fits keys [] (candidates a b)
  let sigs := (keys.filterMap fun key => given.lookup key).take required
  let s ← Script.pushAll ⟨[Opcode.zero]⟩ sigs
  return s.append (List.replicate (required - sigs.length) Opcode.zero)

/-- Whether the top item is missing or empty. -/
def topEmpty : Stack → Bool
  | [] => true
  | top :: _ => top == []

/-- Merges what two scripts left for a locking script. Where it commits to a script by hash, both
end with that script, and the items below it are merged for it. -/
def merge (flags : Flags) (checker : Checker) (locking : Script) (a b : Stack) :
    Except ScriptFault Script :=
  match Template.ofScript flags locking with
  | .nonStandard | .data => pushItems (if b.length ≤ a.length then a else b)
  | .publicKey _ | .publicKeyHash _ | .frozen _ _ => pushItems (if topEmpty a.reverse then b else a)
  | .multisig required keys =>
    multisig required keys (fun sig key => checker.signature sig key locking) a b
  | .label _ _ => .ok .empty
  | .scriptHash _ =>
    match a with
    | [] => pushItems b
    | redeem :: below =>
      if redeem = [] then pushItems b
      else if topEmpty b then pushItems a
      else do (← merge flags checker ⟨redeem⟩ below b.tail).push redeem
termination_by a.length

/-- Merges two unlocking scripts. -/
def unlocking (flags : Flags) (checker : Checker) (locking a b : Script) :
    Except ScriptFault Script :=
  merge flags checker locking (items a) (items b)

end CoinScript.Combine
