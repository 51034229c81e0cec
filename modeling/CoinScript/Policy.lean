import CoinScript.Engine.Spend
import CoinScript.Script.SigOps
import CoinScript.Template.Recognize
import CoinScript.Transaction.Basic

namespace CoinScript

/-- Which transactions are passed on. These rules say nothing about validity; they ask for known templates, modest
sizes and outputs worth spending. -/
structure Policy where
  acceptData : Bool := true
  maxData : Nat := 223
  /-- An output below this amount is not worth spending. -/
  dust : Int := 546
  maxTransaction : Nat := 100000
  maxUnlocking : Nat := 1650
  maxRevealedSigOps : Nat := 15
  bareMultisig : Bool := true

/-- Why a transaction is not passed on. -/
inductive Refusal
  | version
  | transactionSize
  | unlockingSize
  | unlockingNotPushOnly
  | locking
  | bareMultisig
  | dust
  | manyData
  | missingInputs
  | input
  | unlocking
  | revealedSigOps (n : Nat)
deriving DecidableEq

def Refusal.message : Refusal → String
  | .version => "version"
  | .transactionSize => "tx-size"
  | .unlockingSize => "scriptsig-size"
  | .unlockingNotPushOnly => "scriptsig-not-pushonly"
  | .locking => "scriptpubkey"
  | .bareMultisig => "bare-multisig"
  | .dust => "dust"
  | .manyData => "multi-op-return"
  | .missingInputs => "missing-inputs"
  | .input => "nonstandard-input"
  | .unlocking => "bad-p2sh-scriptsig"
  | .revealedSigOps n => "bad-txns-nonstandard-inputs: " ++ toString n ++ " p2sh sigops"

namespace Policy

/-- Flags that every spend has to satisfy. -/
def mandatory : Flags :=
  .ofList [.p2sh, .strictEncoding, .forkId, .lowS, .nullFail, .minimalData, .schnorrMultisig]

/-- Flags that a spend has to satisfy to be passed on. -/
def standard : Flags :=
  mandatory.union <| .ofList
    [.strictDer, .discourageNops, .cleanStack, .checkLockTime, .checkSequence, .sigPushOnly,
     .dataSignatures, .noSegwitRecovery]

def maxBareKeys : Nat := 3

variable (p : Policy)

def acceptsData (s : Script) : Bool := p.acceptData && s.length ≤ p.maxData + 3

/-- The template of a locking script, if such outputs are passed on. -/
def template? (s : Script) : Option Template :=
  match Template.ofScript standard s with
  | .nonStandard => none
  | .multisig required keys =>
    if keys.length ≤ maxBareKeys then some (.multisig required keys) else none
  | .data => if p.acceptsData s then some .data else none
  | .label length text => if p.acceptsData s then some (.label length text) else none
  | t => some t

def isDust (o : Output) : Bool := !o.locking.isUnspendable && o.amount.toInt < p.dust

def demand (condition : Bool) (refusal : Refusal) : Except Refusal Unit :=
  if condition then .ok () else .error refusal

def checkUnlocking (s : Script) : Except Refusal Unit := do
  demand (s.length ≤ p.maxUnlocking) .unlockingSize
  demand s.isPushOnly .unlockingNotPushOnly

/-- Checks an output, and says whether it only carries data. -/
def checkOutput (o : Output) : Except Refusal Bool :=
  match p.template? o.locking with
  | none => .error .locking
  | some .data => .ok true
  | some (.label _ _) => .ok true
  | some (.multisig _ _) => do
    demand p.bareMultisig .bareMultisig
    demand (!p.isDust o) .dust
    return false
  | some _ => do
    demand (!p.isDust o) .dust
    return false

/-- Checks a transaction by itself. -/
def check (tx : Transaction) : Except Refusal Unit := do
  demand (1 ≤ tx.version && tx.version ≤ 2) .version
  demand (tx.bytes.length ≤ p.maxTransaction) .transactionSize
  tx.inputs.forM fun i => p.checkUnlocking i.unlocking
  let carries ← tx.outputs.mapM p.checkOutput
  demand (carries.count true ≤ 1) .manyData

/-- The script that an unlocking script reveals when it runs alone, without rules. -/
def revealed? (unlocking : Script) : Option Script :=
  match evalScript ⟨.none, .none, Spend.maxOps⟩ unlocking [] with
  | .ok () (top :: _) => some ⟨top⟩
  | _ => none

def checkRevealed (unlocking : Script) : Except Refusal Unit :=
  match revealed? unlocking with
  | none => .error .unlocking
  | some redeem =>
    let n := redeem.sigOps standard true
    demand (n ≤ p.maxRevealedSigOps) (.revealedSigOps n)

def checkInput (i : Input) (spent : Output) : Except Refusal Unit :=
  match Template.ofScript standard spent.locking with
  | .nonStandard => .error .input
  | .scriptHash _ => p.checkRevealed i.unlocking
  | _ => .ok ()

/-- Checks a transaction against the outputs that it spends. -/
def checkInputs (tx : Transaction) (spent : List Output) : Except Refusal Unit :=
  if tx.isCoinbase then .ok ()
  else if spent.length = tx.inputs.length then
    (tx.inputs.zip spent).forM fun (i, o) => p.checkInput i o
  else .error .missingInputs

end Policy

end CoinScript
