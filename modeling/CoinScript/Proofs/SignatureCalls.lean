import CoinScript.Proofs.SelectedMultisig
import CoinScript.Proofs.Steps

namespace CoinScript

/-- The same context with other answers about signatures. -/
def Context.withSignature (ctx : Context) (answers : (sig key : Bytes) → (code : Script) → Bool) :
    Context :=
  { ctx with checker := { ctx.checker with signature := answers } }

namespace Signing

open Effect

/-- One thing that a checker is asked about a signature. -/
structure Call where
  sig : Bytes
  key : Bytes
  code : Script
deriving DecidableEq

/-- Whether a spelling of a signature and a key are admitted, without which nothing is asked. -/
def isAdmitted (flags : Flags) (spelling : Except Fault Unit) (key : Bytes) : Bool :=
  spelling.isOk && (Encoding.checkKey flags key).isOk

/-- The call of a single check. -/
def callsOfOne (ctx : Context) (code : Script) (sig key : Bytes) : List Call :=
  if isAdmitted ctx.flags (Encoding.checkSignature ctx.flags sig) key && sig != [] then
    [⟨sig, key, code⟩]
  else []

namespace Multisig

/-- The calls for signatures that are matched in order, up to the first that is not admitted or leaves
too few keys. -/
def callsInOrder (ctx : Context) (code : Script) : (sigs keys : List Bytes) → List Call
  | [], _ => []
  | _ :: _, [] => []
  | sig :: sigs, key :: keys =>
    if isAdmitted ctx.flags (Encoding.checkOrderedSignature ctx.flags sig) key then
      let left := if ctx.checker.signature sig key code then sigs else sig :: sigs
      ⟨sig, key, code⟩ ::
        if keys.length < left.length then [] else callsInOrder ctx code left keys
    else []

/-- The calls for signatures at positions, up to the first that is not good. -/
def callsOfPairs (ctx : Context) (code : Script) (keys : List Bytes) :
    (positions : List Nat) → (sigs : List Bytes) → List Call
  | position :: positions, sig :: sigs =>
    let key := keys.getD position []
    if isAdmitted ctx.flags (Encoding.checkSelectedSignature ctx.flags sig) key then
      ⟨sig, key, code⟩ ::
        if ctx.checker.signature sig key code then callsOfPairs ctx code keys positions sigs else []
    else []
  | _, _ => []

/-- The calls for signatures that checkbits select. -/
def callsSelected (ctx : Context) (code : Script) (m : Multisig) : List Call :=
  match Checkbits.read m.dummy m.keys.length with
  | .error _ => []
  | .ok bits =>
    let positions := Checkbits.positions bits m.keys.length
    if positions.length == m.signatures.length then
      callsOfPairs ctx code m.keys.reverse positions m.signatures.reverse
    else []

def calls (ctx : Context) (code : Script) (m : Multisig) : List Call :=
  if m.isSelected ctx.flags then m.callsSelected ctx code
  else callsInOrder ctx (m.orderedCode ctx.flags code) m.signatures m.keys

end Multisig

/-- The calls of a signature check, with key and signature on top of the stack. -/
def callsOfSig (ctx : Context) (st : State) : List Call :=
  match st.main with
  | key :: sig :: _ => callsOfOne ctx (withoutSignature ⟨st.code⟩ sig) sig key
  | _ => []

/-- The calls of a multisignature, if its operands can be read. -/
def callsOfMultisig (ctx : Context) (st : State) : List Call :=
  match readMultisig ctx st with
  | .ok m _ => m.calls ctx ⟨st.code⟩
  | .error _ _ => []

/-- Other answers that agree with a context on the calls of a list. -/
def Agrees (answers : (sig key : Bytes) → (code : Script) → Bool) (ctx : Context)
    (calls : List Call) : Prop :=
  ∀ call ∈ calls,
    answers call.sig call.key call.code = ctx.checker.signature call.sig call.key call.code

variable {ctx : Context} {answers : (sig key : Bytes) → (code : Script) → Bool} {code : Script}
  {sig key : Bytes} {spelling : Except Fault Unit}

theorem isAdmitted_iff {flags : Flags} :
    isAdmitted flags spelling key = true ↔ spelling = .ok () ∧ Encoding.checkKey flags key = .ok () := by
  unfold isAdmitted
  cases spelling <;> cases Encoding.checkKey flags key <;> simp [Except.isOk, Except.toBool]

/-- What follows the checks of spellings matters only where both are admitted. -/
theorem spellings_congr {α : Type} (flags : Flags) (spelling : Except Fault Unit)
    {next next' : Except Fault α} (h : isAdmitted flags spelling key = true → next = next') :
    (do spelling; Encoding.checkKey flags key; next) =
      (do spelling; Encoding.checkKey flags key; next') := by
  cases hs : spelling with
  | error fault => rfl
  | ok u =>
    cases hk : Encoding.checkKey flags key with
    | error fault => rfl
    | ok v => exact h (isAdmitted_iff.mpr ⟨hs, hk⟩)

theorem checkOne_congr (h : Agrees answers ctx (callsOfOne ctx code sig key)) :
    checkOne (ctx.withSignature answers) code sig key = checkOne ctx code sig key := by
  refine spellings_congr ctx.flags (Encoding.checkSignature ctx.flags sig) fun hadmitted => ?_
  have hsame : (sig != [] && answers sig key code) =
      (sig != [] && ctx.checker.signature sig key code) := by
    cases hne : sig != [] with
    | false => rfl
    | true =>
      rw [callsOfOne, hadmitted, hne] at h
      exact h _ List.mem_cons_self
  change (do
    nullFail ctx.flags (sig != [] && answers sig key code) sig
    return sig != [] && answers sig key code) = _
  rw [hsame]

namespace Multisig

variable {sigs keys : List Bytes} {m : Multisig}

theorem fitsInOrder_ok {fits : Bool} :
    fitsInOrder ctx code sig key = .ok fits ↔
      isAdmitted ctx.flags (Encoding.checkOrderedSignature ctx.flags sig) key = true ∧
        ctx.checker.signature sig key code = fits := by
  simp only [fitsInOrder, except_bind_ok, except_pure_ok, isAdmitted_iff]
  constructor
  · intro h
    obtain ⟨_, hs, _, hk, hf⟩ := h
    exact ⟨⟨hs, hk⟩, hf⟩
  · intro h
    obtain ⟨⟨hs, hk⟩, hf⟩ := h
    exact ⟨(), hs, (), hk, hf⟩

theorem matchInOrder_cons {fits : (sig key : Bytes) → Except Fault Bool} {good : Bool}
    (hf : fits sig key = .ok good) :
    matchInOrder fits (sig :: sigs) (key :: keys) =
      let left := if good then sigs else sig :: sigs
      if keys.length < left.length then .ok false else matchInOrder fits left keys := by
  rw [matchInOrder, hf]
  rfl

/-- By induction on the keys, each of which is asked about at most once. -/
theorem matchInOrder_congr (h : Agrees answers ctx (callsInOrder ctx code sigs keys)) :
    matchInOrder (fitsInOrder (ctx.withSignature answers) code) sigs keys =
      matchInOrder (fitsInOrder ctx code) sigs keys := by
  induction keys generalizing sigs with
  | nil => cases sigs <;> rfl
  | cons key keys ih =>
    cases sigs with
    | nil => rfl
    | cons sig sigs =>
      rw [callsInOrder] at h
      have hfits : fitsInOrder (ctx.withSignature answers) code sig key =
          fitsInOrder ctx code sig key := by
        refine spellings_congr ctx.flags (Encoding.checkOrderedSignature ctx.flags sig)
          fun hadmitted => ?_
        rw [if_pos hadmitted] at h
        exact congrArg Except.ok (h _ List.mem_cons_self)
      cases hf : fitsInOrder ctx code sig key with
      | error fault => rw [matchInOrder, matchInOrder, hfits, hf]; rfl
      | ok fits =>
        obtain ⟨hadmitted, rfl⟩ := fitsInOrder_ok.mp hf
        rw [if_pos hadmitted] at h
        rw [matchInOrder_cons (hfits.trans hf), matchInOrder_cons hf]
        dsimp only at h ⊢
        generalize (if ctx.checker.signature sig key code then sigs else sig :: sigs) = left at h ⊢
        split
        · rfl
        · next hleft =>
          apply ih
          intro call hcall
          refine h call (List.mem_cons_of_mem _ ?_)
          rw [if_neg hleft]
          exact hcall

/-- By induction on the positions. The number of a pair is only told in its fault. -/
theorem runPairs_congr {positions : List Nat} {i : Nat}
    (h : Agrees answers ctx (callsOfPairs ctx code keys positions sigs)) :
    runPairs (ctx.withSignature answers) code keys i positions sigs =
      runPairs ctx code keys i positions sigs := by
  induction positions generalizing i sigs with
  | nil => rfl
  | cons position positions ih =>
    cases sigs with
    | nil => rfl
    | cons sig sigs =>
      rw [callsOfPairs] at h
      refine spellings_congr ctx.flags (Encoding.checkSelectedSignature ctx.flags sig)
        fun hadmitted => ?_
      rw [if_pos hadmitted] at h
      have hsame := h _ List.mem_cons_self
      change (Encoding.demand (answers sig _ code) _ >>= fun _ => _) =
        (Encoding.demand (ctx.checker.signature sig _ code) _ >>= fun _ => _)
      rw [hsame]
      cases hf : ctx.checker.signature sig (keys.getD position []) code with
      | false => rfl
      | true =>
        rw [hf, if_pos rfl] at h
        exact ih fun call hcall => h call (List.mem_cons_of_mem _ hcall)

theorem run_congr (h : Agrees answers ctx (m.calls ctx code)) :
    m.run (ctx.withSignature answers) code = m.run ctx code := by
  rw [Multisig.calls] at h
  unfold Multisig.run
  change (if m.isSelected ctx.flags then _ else _) = _
  split
  · next hselected =>
    rw [if_pos hselected, callsSelected] at h
    unfold runSelected
    cases hbits : Checkbits.read m.dummy m.keys.length with
    | error fault => rfl
    | ok bits =>
      rw [hbits] at h
      dsimp only at h
      change (Encoding.demand _ _ >>= fun _ => _) = (Encoding.demand _ _ >>= fun _ => _)
      cases hcount : (Checkbits.positions bits m.keys.length).length == m.signatures.length with
      | false => rfl
      | true =>
        rw [if_pos hcount] at h
        change (runPairs _ _ _ _ _ _ >>= fun _ => _) = (runPairs _ _ _ _ _ _ >>= fun _ => _)
        rw [runPairs_congr h]
  · next hselected =>
    rw [if_neg hselected] at h
    unfold runOrdered
    change (matchInOrder (fitsInOrder _ (m.orderedCode ctx.flags code)) _ _ >>= fun _ => _) = _
    rw [matchInOrder_congr h]
    rfl

end Multisig

theorem checkSig_congr {verify : Bool} {st : State} (h : Agrees answers ctx (callsOfSig ctx st)) :
    checkSig (ctx.withSignature answers) verify st = checkSig ctx verify st := by
  cases hr : onMain (Stack.require 2) st with
  | error fault t => exact (bind_of_error hr).trans (bind_of_error hr).symm
  | ok u t =>
    have hl := (require_ok.mp hr).1
    match hm : st.main with
    | key :: sig :: below =>
      rw [callsOfSig, hm] at h
      rw [checkSig_top hm, checkSig_top hm, checkOne_congr h]
    | [] | [_] =>
      rw [hm] at hl
      exact absurd hl (by simp)

theorem checkMultisig_congr {verify : Bool} {st : State}
    (h : Agrees answers ctx (callsOfMultisig ctx st)) :
    checkMultisig (ctx.withSignature answers) verify st = checkMultisig ctx verify st := by
  unfold callsOfMultisig at h
  have hread : readMultisig (ctx.withSignature answers) = readMultisig ctx := rfl
  cases hr : readMultisig ctx st with
  | error fault t =>
    have herror : checkMultisig ctx verify st = .error fault t := bind_of_error hr
    rw [herror]
    exact bind_of_error (hread ▸ hr)
  | ok m t =>
    rw [hr] at h
    obtain ⟨hon, hbudget, -⟩ := readMultisig_ok.mp hr
    have hother : checkMultisig (ctx.withSignature answers) verify st = _ :=
      checkMultisig_read hon hbudget
    rw [hother, Multisig.run_congr h, checkMultisig_read hon hbudget]
    rfl

end Signing

open Signing (Call Agrees)

namespace Instruction

/-- The calls of an instruction. -/
def calls (ctx : Context) (st : State) : Instruction → List Call
  | .checkSig _ => Signing.callsOfSig ctx st
  | .checkMultisig _ => Signing.callsOfMultisig ctx st
  | _ => []

variable {ctx : Context} {answers : (sig key : Bytes) → (code : Script) → Bool} {st : State}
  {i : Instruction} {op : Opcode} {executing : Bool} {rest : Bytes}

/-- Only two instructions ask about signatures. -/
theorem run_congr (h : Agrees answers ctx (i.calls ctx st)) :
    i.run (ctx.withSignature answers) op executing rest st = i.run ctx op executing rest st := by
  cases i with
  | checkSig verify => exact Signing.checkSig_congr h
  | checkMultisig verify => exact Signing.checkMultisig_congr h
  | _ => rfl

end Instruction

namespace Effect

/-- The calls of an operation, made once it has been counted and is not disabled. -/
def calls (ctx : Context) (op : Operation) (st : State) : List Call :=
  match enter ctx op.code st with
  | .error _ _ => []
  | .ok _ entered =>
    if st.isExecuting && op.isPush then []
    else if st.isExecuting || op.code.isConditional then (Instruction.ofOpcode op.code).calls ctx entered
    else []

variable {ctx : Context} {answers : (sig key : Bytes) → (code : Script) → Bool} {op : Operation}
  {rest : Bytes} {st : State}

theorem perform_congr (h : Agrees answers ctx (calls ctx op st)) :
    perform (ctx.withSignature answers) op rest st = perform ctx op rest st := by
  have henter : enter (ctx.withSignature answers) op.code = enter ctx op.code := rfl
  rw [calls] at h
  rw [perform_eq, perform_eq]
  change (enter (ctx.withSignature answers) op.code >>= fun _ =>
    act (ctx.withSignature answers) op rest st.isExecuting >>= fun _ => checkDepth) st =
    (enter ctx op.code >>= fun _ => act ctx op rest st.isExecuting >>= fun _ => checkDepth) st
  rw [henter]
  cases he : enter ctx op.code st with
  | error fault t => exact (bind_of_error he).trans (bind_of_error he).symm
  | ok u entered =>
    rw [he] at h
    dsimp only at h
    have hact : act (ctx.withSignature answers) op rest st.isExecuting entered =
        act ctx op rest st.isExecuting entered := by
      unfold act
      split
      · rfl
      · next hpush =>
        rw [if_neg hpush] at h
        split
        · next hrun =>
          rw [if_pos hrun] at h
          exact Instruction.run_congr h
        · rfl
    rw [bind_of_ok he, bind_of_ok he]
    change EStateM.bind _ _ entered = EStateM.bind _ _ entered
    unfold EStateM.bind
    rw [hact]

end Effect

namespace Machine

/-- The calls of the next step. -/
def calls (ctx : Context) (m : Machine) : List Call :=
  match m.next with
  | .error _ => []
  | .ok (op, _) => Effect.calls ctx op m.state

variable {ctx : Context} {answers : (sig key : Bytes) → (code : Script) → Bool} {m : Machine}
  {script : Script}

theorem step_congr (h : Agrees answers ctx (m.calls ctx)) :
    step (ctx.withSignature answers) m = step ctx m := by
  unfold step
  unfold calls at h
  cases hn : m.next with
  | error fault => rfl
  | ok found =>
    rw [hn] at h
    dsimp only at h ⊢
    rw [Effect.perform_congr h]

/-- By induction on the run. -/
theorem run_congr (h : ∀ trail t, Steps ctx m trail t → Agrees answers ctx (t.calls ctx)) :
    run (ctx.withSignature answers) m = run ctx m := by
  induction m using run.induct ctx with
  | case1 m hf =>
    have hu : m.unread = [] := List.isEmpty_iff.mp hf
    rw [run_done hu, run_done hu]
  | case2 m hf t hs ih =>
    have hsame := step_congr (h [] m (.done m))
    obtain ⟨op, rest, hn, -, -⟩ := step_ok.mp hs
    rw [run_step_ok hs, run_step_ok (hsame.trans hs)]
    exact ih fun trail t' ht => h _ t' (.next hn hs ht)
  | case3 m hf fault t hs =>
    have hm : m.isFinished = false := by simpa using hf
    have hsame := step_congr (h [] m (.done m))
    rw [run_step_error hm hs, run_step_error hm (hsame.trans hs)]

theorem eval_congr
    (h : ∀ trail t, Steps ctx (m.started script) trail t → Agrees answers ctx (t.calls ctx)) :
    eval (ctx.withSignature answers) script m = eval ctx script m := by
  by_cases hl : script.length ≤ Script.maxLength
  · rw [eval_of_length hl, eval_of_length hl]
    change EStateM.bind _ _ _ = EStateM.bind _ _ _
    unfold EStateM.bind
    rw [run_congr h]
  · rw [eval_of_too_long hl, eval_of_too_long hl]

end Machine

end CoinScript
