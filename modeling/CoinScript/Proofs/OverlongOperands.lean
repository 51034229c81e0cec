import CoinScript.Proofs.OperandArithmetic
import CoinScript.Proofs.Steps

namespace CoinScript

/-- Whatever a step fails with, it has this in common with the state that is left. -/
def Fails {ε σ α : Type} (Q : ε → σ → Prop) (e : EStateM ε σ α) : Prop :=
  ∀ s fault t, e s = .error fault t → Q fault t

namespace Fails

variable {ε σ α β : Type} {Q : ε → σ → Prop} {e : EStateM ε σ α}

theorem pure (a : α) : Fails Q (pure a : EStateM ε σ α) := nofun

theorem get : Fails Q (get : EStateM ε σ σ) := nofun

theorem modify (f : σ → σ) : Fails Q (modify f : EStateM ε σ PUnit) := nofun

theorem bind {next : α → EStateM ε σ β} (he : Fails Q e) (hn : ∀ a, Fails Q (next a)) :
    Fails Q (e >>= next) := by
  intro s fault t h
  rcases Effect.bind_error.mp h with h | ⟨a, u, -, h⟩
  · exact he s fault t h
  · exact hn a u fault t h

theorem ite {c : Prop} [Decidable c] {e' : EStateM ε σ α} (he : Fails Q e) (he' : Fails Q e') :
    Fails Q (if c then e else e') := by
  split
  · exact he
  · exact he'

end Fails

namespace Fault

/-- An overflow is explained by an item that is too long for an operand or a lock time. -/
def IsExplained (fault : Fault) (items : List Bytes) : Prop :=
  fault.code = .numberOverflow → fault.IsOverlong 4 items ∨ fault.IsOverlong 5 items

theorem explained_of_code {fault : Fault} {items : List Bytes} (h : fault.code ≠ .numberOverflow) :
    fault.IsExplained items := fun hc => absurd hc h

theorem IsOverlong.mono {limit : Nat} {items items' : List Bytes} {fault : Fault}
    (h : fault.IsOverlong limit items) (hs : items ⊆ items') : fault.IsOverlong limit items' := by
  obtain ⟨item, hi, hl⟩ := h
  exact ⟨item, hs hi, hl⟩

/-- An answer that does not fail with an overflow. -/
def Avoids {α : Type} (answer : Except Fault α) : Prop :=
  ∀ fault, answer = .error fault → fault.code ≠ .numberOverflow

namespace Avoids

variable {α β : Type} {x : Except Fault α}

theorem ok (a : α) : Avoids (.ok a) := nofun

theorem error {fault : Fault} (h : fault.code ≠ .numberOverflow) :
    Avoids (.error fault : Except Fault α) := by
  intro _ he
  cases he
  exact h

theorem bind {next : α → Except Fault β} (hx : Avoids x) (hn : ∀ a, Avoids (next a)) :
    Avoids (x >>= next) := by
  intro fault h
  rcases except_bind_error.mp h with h | ⟨a, -, h⟩
  · exact hx fault h
  · exact hn a fault h

theorem ite {c : Prop} [Decidable c] {x' : Except Fault α} (hx : Avoids x) (hx' : Avoids x') :
    Avoids (if c then x else x') := by
  split
  · exact hx
  · exact hx'

theorem demand {condition : Bool} {fault : Fault} (h : fault.code ≠ .numberOverflow) :
    Avoids (Encoding.demand condition fault) := ite (ok ()) (error h)

end Avoids

end Fault

/-- A step on the main stack whose overflows are explained by what it leaves. -/
abbrev Stack.Explains {α : Type} (step : StackStep α) : Prop := Fails Fault.IsExplained step

abbrev Effect.Explains {α : Type} (e : Effect α) : Prop := Fails (fun fault st => fault.IsExplained st.main) e

open Fault

namespace Encoding

variable {flags : Flags}

theorem checkSchnorr_avoids (hashType : Option HashType) : Avoids (checkSchnorr flags hashType) := by
  cases hashType with
  | none => exact .ok ()
  | some t => exact .ite (.bind (.demand nofun) fun _ => .demand nofun) (.ok ())

theorem checkDer_avoids (body : Bytes) (hashType : Option HashType) :
    Avoids (checkDer flags body hashType) := by
  refine .bind (.demand nofun) fun _ => .ite (.demand nofun) ?_
  cases hashType with
  | none => exact .ok ()
  | some t => exact .demand nofun

theorem checkSignature_avoids (sig : Bytes) : Avoids (checkSignature flags sig) :=
  .ite (.ok ()) (.ite (checkSchnorr_avoids _) (checkDer_avoids _ _))

theorem checkDataSignature_avoids (sig : Bytes) : Avoids (checkDataSignature flags sig) :=
  .ite (.ok ()) (.ite (checkSchnorr_avoids _) (checkDer_avoids _ _))

theorem checkOrderedSignature_avoids (sig : Bytes) : Avoids (checkOrderedSignature flags sig) :=
  .ite (.error nofun) (checkSignature_avoids sig)

theorem checkSelectedSignature_avoids (sig : Bytes) : Avoids (checkSelectedSignature flags sig) :=
  .ite (checkSignature_avoids sig) (.error nofun)

theorem checkKey_avoids (key : Bytes) : Avoids (checkKey flags key) :=
  .bind (.demand nofun) fun _ => .demand nofun

end Encoding

namespace Signing

variable {ctx : Context}

theorem nullFail_avoids (flags : Flags) (success : Bool) (sig : Bytes) :
    Avoids (nullFail flags success sig) := .demand nofun

theorem checkOne_avoids (code : Script) (sig key : Bytes) : Avoids (checkOne ctx code sig key) :=
  .bind (Encoding.checkSignature_avoids sig) fun _ => .bind (Encoding.checkKey_avoids key) fun _ =>
    .bind (nullFail_avoids _ _ sig) fun _ => .ok _

namespace Multisig

theorem fitsInOrder_avoids (code : Script) (sig key : Bytes) : Avoids (fitsInOrder ctx code sig key) :=
  .bind (Encoding.checkOrderedSignature_avoids sig) fun _ => .bind (Encoding.checkKey_avoids key) fun _ => .ok _

/-- By induction on the keys. -/
theorem matchInOrder_avoids {fits : Bytes → Bytes → Except Fault Bool} (hf : ∀ sig key, Avoids (fits sig key))
    (sigs keys : List Bytes) : Avoids (matchInOrder fits sigs keys) := by
  induction keys generalizing sigs with
  | nil => cases sigs <;> exact .ok _
  | cons key keys ih =>
    cases sigs with
    | nil => exact .ok true
    | cons sig sigs => exact .bind (hf sig key) fun _ => .ite (.ok false) (ih _)

theorem runOrdered_avoids (code : Script) (m : Multisig) : Avoids (m.runOrdered ctx code) :=
  .bind (matchInOrder_avoids (fitsInOrder_avoids _) _ _) fun _ =>
    .bind (.demand nofun) fun _ => .bind (.demand nofun) fun _ => .ok _

theorem runPairs_avoids (code : Script) (keys : List Bytes) (i : Nat) (positions : List Nat) (sigs : List Bytes) :
    Avoids (runPairs ctx code keys i positions sigs) := by
  induction positions generalizing i sigs with
  | nil => exact .ok ()
  | cons position positions ih =>
    cases sigs with
    | nil => exact .ok ()
    | cons sig sigs =>
      exact .bind (Encoding.checkSelectedSignature_avoids sig) fun _ =>
        .bind (Encoding.checkKey_avoids _) fun _ => .bind (.demand nofun) fun _ => ih _ _

theorem runSelected_avoids (code : Script) (m : Multisig) : Avoids (m.runSelected ctx code) :=
  .bind (.ite (.error nofun) (.ite (.ok _) (.error nofun))) fun _ => .bind (.demand nofun) fun _ =>
    .bind (runPairs_avoids _ _ _ _ _) fun _ => .ok true

theorem run_avoids (code : Script) (m : Multisig) : Avoids (m.run ctx code) :=
  .ite (runSelected_avoids code m) (runOrdered_avoids code m)

end Multisig

end Signing

namespace Effect

variable {α : Type} {ctx : Context}

theorem explains_of_code {e : Effect α}
    (h : ∀ st fault st', e st = .error fault st' → fault.code ≠ .numberOverflow) : Explains e :=
  fun st fault st' he => explained_of_code (h st fault st' he)

theorem onMain_explains {step : StackStep α} (h : Stack.Explains step) : Explains (onMain step) := by
  intro st fault st' he
  obtain ⟨s, hs, rfl⟩ := onMain_error.mp he
  exact h st.main fault s hs

theorem orFail_explains {answer : Except Fault α} (h : Avoids answer) : Explains (orFail answer) :=
  explains_of_code fun _ fault _ he => h fault (orFail_error.mp he).1

theorem throw_explains {fault : Fault} (h : fault.code ≠ .numberOverflow) :
    Explains (throw fault : Effect α) := by
  refine explains_of_code fun st _ st' he => ?_
  cases he
  exact h

theorem demand_explains {condition : Bool} {fault : Fault} (h : fault.code ≠ .numberOverflow) :
    Explains (demand condition fault) := by
  refine explains_of_code fun st _ st' he => ?_
  obtain ⟨-, rfl, -⟩ := demand_error.mp he
  exact h

theorem countOps_explains (n : Nat) : Explains (countOps ctx n) := by
  refine explains_of_code fun st _ st' he => ?_
  simp only [countOps] at he
  split at he
  · cases he
  · cases he
    intro h
    cases h

theorem assertTop_explains (assertion : Assertion) : Explains (assertTop assertion) :=
  explains_of_code fun _ _ _ => code_of_assertTop

end Effect

namespace Stack

variable {α : Type}

theorem explains_of_code {step : StackStep α}
    (h : ∀ s fault t, step s = .error fault t → fault.code ≠ .numberOverflow) : Explains step :=
  fun s fault t he => explained_of_code (h s fault t he)

theorem needing_explains (n : Nat) (next : List Bytes → List Bytes) : Explains (needing n next) := by
  refine explains_of_code fun s _ t he => ?_
  unfold needing at he
  split at he
  · cases he
  · cases he
    nofun

theorem push_explains (item : Bytes) : Explains (push item) := nofun

theorem peek_explains (i : Nat) : Explains (peek i) := by
  refine explains_of_code fun s _ t he => ?_
  unfold peek at he
  split at he
  · cases he
  · cases he
    nofun

theorem pick_explains (i : Nat) : Explains (pick i) := by
  refine explains_of_code fun s _ t he => ?_
  unfold pick at he
  split at he
  · cases he
  · cases he
    nofun

theorem roll_explains (i : Nat) : Explains (roll i) := by
  refine explains_of_code fun s _ t he => ?_
  unfold roll at he
  split at he
  · cases he
  · cases he
    nofun

theorem arrangement_explains (a : Arrangement) : Explains a.run := by
  cases a <;> exact needing_explains _ _

end Stack

theorem Number.explained_of_operand {minimal : Bool} {item : Bytes} {items : List Bytes} {fault : Fault}
    (h : operand minimal item = .error fault) (hi : item ∈ items) : fault.IsExplained items := by
  intro hc
  obtain ⟨hl, rfl⟩ := operand_overflow h hc
  exact .inl ⟨item, hi, hl, rfl⟩

namespace Data

variable {minimal : Bool}

theorem onTop_explains {f : Bytes → Except Fault Bytes} (h : ∀ item, Avoids (f item)) :
    Stack.Explains (onTop f) := by
  refine Stack.explains_of_code fun s fault t he => ?_
  cases s with
  | nil =>
    cases he
    nofun
  | cons top below =>
    simp only [onTop] at he
    split at he
    · cases he
    · next hf =>
      cases he
      exact h top fault hf

theorem onTwo_explains {f : Bytes → Bytes → Except Fault (List Bytes)}
    (h : ∀ a b below fault, f a b = .error fault → fault.IsExplained (b :: a :: below)) :
    Stack.Explains (onTwo f) := by
  intro s fault t he
  obtain ⟨rfl, ⟨-, rfl⟩ | ⟨b, a, below, rfl, hf⟩⟩ := onTwo_error.mp he
  · exact explained_of_code nofun
  · exact h a b below fault hf

theorem onTwo_avoids {f : Bytes → Bytes → Except Fault (List Bytes)} (h : ∀ a b, Avoids (f a b)) :
    Stack.Explains (onTwo f) :=
  onTwo_explains fun a b _ fault hf => explained_of_code (h a b fault hf)

theorem split_explains : Stack.Explains (split minimal) := by
  refine onTwo_explains fun a n below fault hf => ?_
  rcases except_bind_error.mp hf with hn | ⟨position, -, hf⟩
  · exact Number.explained_of_operand hn (by simp)
  · have hrest : Avoids (if 0 ≤ position ∧ position.toNat ≤ a.length then
        .ok [a.drop position.toNat, a.take position.toNat] else .error (.splitRange position a.length)) :=
      .ite (.ok _) (.error nofun)
    exact explained_of_code (hrest fault hf)

theorem reverse_explains (flags : Flags) : Stack.Explains (reverse flags) := by
  refine .ite (onTop_explains fun _ => .ok _) (Stack.explains_of_code fun s fault t he => ?_)
  cases he
  nofun

theorem toWidth_explains : Stack.Explains (toWidth minimal) := by
  intro s fault t he
  match s with
  | [] | [_] =>
    cases he
    exact explained_of_code nofun
  | n :: x :: below =>
    simp only [toWidth] at he
    split at he
    · next hn =>
      cases he
      exact Number.explained_of_operand hn (by simp)
    · refine explained_of_code ?_
      split at he
      · split at he
        · cases he
        · cases he
          nofun
      · cases he
        nofun

theorem pickOrRoll_explains (move : Bool) : Stack.Explains (pickOrRoll minimal move) := by
  intro s fault t he
  match s with
  | [] | [_] =>
    cases he
    exact explained_of_code nofun
  | n :: x :: below =>
    simp only [pickOrRoll] at he
    split at he
    · next hn =>
      cases he
      exact Number.explained_of_operand hn (by simp)
    · split at he
      · split at he
        · exact Stack.roll_explains _ _ _ _ he
        · exact Stack.pick_explains _ _ _ _ he
      · cases he
        exact explained_of_code nofun

theorem toNumber_explains : Stack.Explains toNumber :=
  onTop_explains fun _ => .ite (.ok _) (.error nofun)

theorem depth_explains : Stack.Explains depth := nofun

theorem dupIfTrue_explains : Stack.Explains dupIfTrue := by
  refine Stack.explains_of_code fun s fault t he => ?_
  unfold dupIfTrue at he
  split at he
  · cases he
    nofun
  · cases he

theorem size_explains : Stack.Explains size := by
  refine Stack.explains_of_code fun s fault t he => ?_
  unfold size at he
  split at he
  · cases he
    nofun
  · cases he

theorem explains_of_overflow {step : StackStep Unit} {n : Nat}
    (h : ∀ s fault t, step s = .error fault t → OverflowsOn n s fault t) : Stack.Explains step := by
  intro s fault t he hc
  obtain ⟨rfl, hl⟩ := h s fault t he hc
  exact .inl (hl.mono (List.take_subset n t))

end Data

namespace Control

open Effect

variable {ctx : Context}

theorem branch_explains (on executing : Bool) : Explains (branch ctx on executing) := by
  refine explains_of_code fun st fault st' he => ?_
  unfold branch at he
  split at he
  · split at he
    · cases he
      nofun
    · split at he
      · cases he
        nofun
      · cases he
  · cases he

theorem otherwise_explains : Explains otherwise := by
  refine explains_of_code fun st fault st' he => ?_
  unfold otherwise at he
  split at he
  · cases he
    nofun
  · cases he

theorem endBranch_explains : Explains endBranch := by
  refine explains_of_code fun st fault st' he => ?_
  unfold endBranch at he
  split at he
  · cases he
    nofun
  · cases he

theorem toAlt_explains : Explains toAlt := by
  refine explains_of_code fun st fault st' he => ?_
  unfold toAlt at he
  split at he
  · cases he
    nofun
  · cases he

theorem fromAlt_explains : Explains fromAlt := by
  refine explains_of_code fun st fault st' he => ?_
  unfold fromAlt at he
  split at he
  · cases he
    nofun
  · cases he

/-- The item is looked at only where there is one. -/
theorem lockTimeOperand_explains : Explains (lockTimeOperand ctx) := by
  intro st fault st' he
  rcases bind_error.mp he with hr | ⟨_, _, hr, he⟩
  · exact onMain_explains (Stack.needing_explains 1 _) _ _ _ hr
  · obtain ⟨hl, rfl⟩ := require_ok.mp hr
    rcases bind_error.mp he with hg | ⟨_, _, hg, he⟩
    · cases hg
    · obtain ⟨rfl, rfl⟩ := get_ok.mp hg
      rcases bind_error.mp he with hd | ⟨n, _, -, he⟩
      · obtain ⟨hdecode, rfl⟩ := orFail_error.mp hd
        intro hc
        obtain ⟨hlong, rfl⟩ := Number.decode_overflow (by decide) hdecode hc
        refine .inr ⟨_, ?_, hlong, rfl⟩
        rw [List.headD_eq_head?_getD, List.head?_eq_getElem?, List.getElem?_eq_getElem hl]
        exact List.getElem_mem hl
      · have hsign : Explains (demand (0 ≤ n) (.negativeLockTime n) >>= fun _ => pure n) :=
          .bind (demand_explains nofun) fun _ => .pure n
        exact hsign _ _ _ he

theorem checkLockTime_explains : Explains (checkLockTime ctx) :=
  .ite (.bind lockTimeOperand_explains fun _ => demand_explains nofun) (.pure _)

theorem checkSequence_explains : Explains (checkSequence ctx) :=
  .ite (.bind lockTimeOperand_explains fun _ => demand_explains nofun) (.pure _)

end Control

namespace Signing

open Effect

variable {ctx : Context}

theorem answer_explains (n : Nat) (verify : Bool) (assertion : Assertion) (success : Bool) :
    Explains (answer n verify assertion success) :=
  .bind (onMain_explains (Stack.needing_explains n _)) fun _ =>
    .bind (onMain_explains (Stack.push_explains _)) fun _ => .ite (assertTop_explains assertion) (.pure _)

theorem countSigChecks_explains (n : Nat) : Explains (countSigChecks n) := nofun

theorem checkSig_explains (verify : Bool) : Explains (checkSig ctx verify) :=
  .bind (onMain_explains (Stack.needing_explains 2 _)) fun _ =>
    .bind (onMain_explains (Stack.peek_explains 0)) fun key =>
    .bind (onMain_explains (Stack.peek_explains 1)) fun sig =>
    .bind (.modify _) fun _ => .bind (countSigChecks_explains _) fun _ =>
    .bind .get fun _ => .bind (orFail_explains (checkOne_avoids _ sig key)) fun success =>
    answer_explains 2 verify _ success

theorem checkDataSig_explains (verify : Bool) : Explains (checkDataSig ctx verify) :=
  .bind (onMain_explains (Stack.needing_explains 3 _)) fun _ =>
    .bind (onMain_explains (Stack.peek_explains 0)) fun key =>
    .bind (onMain_explains (Stack.peek_explains 1)) fun _ =>
    .bind (onMain_explains (Stack.peek_explains 2)) fun sig =>
    .bind (orFail_explains (Encoding.checkDataSignature_avoids sig)) fun _ =>
    .bind (orFail_explains (Encoding.checkKey_avoids key)) fun _ =>
    .bind (countSigChecks_explains _) fun _ =>
    .bind (orFail_explains (nullFail_avoids _ _ sig)) fun _ => answer_explains 3 verify _ _

theorem numberAt_explains (i : Nat) : Explains (numberAt ctx i) := by
  intro st fault st' he
  rcases bind_error.mp he with hp | ⟨item, _, hp, he⟩
  · exact onMain_explains (Stack.peek_explains i) _ _ _ hp
  · obtain ⟨hi, rfl⟩ := peek_ok.mp hp
    obtain ⟨hn, rfl⟩ := orFail_error.mp he
    exact Number.explained_of_operand hn (List.mem_of_getElem? hi)

theorem readMultisig_explains : Explains (readMultisig ctx) :=
  .bind (onMain_explains (Stack.needing_explains 1 _)) fun _ =>
    .bind (numberAt_explains 0) fun _ => .bind (demand_explains nofun) fun _ =>
    .bind (countOps_explains _) fun _ => .bind (onMain_explains (Stack.needing_explains _ _)) fun _ =>
    .bind (numberAt_explains _) fun _ => .bind (demand_explains nofun) fun _ =>
    .bind (onMain_explains (Stack.needing_explains _ _)) fun _ => .bind .get fun _ => .pure _

theorem checkMultisig_explains (verify : Bool) : Explains (checkMultisig ctx verify) :=
  .bind readMultisig_explains fun m => .bind (countSigChecks_explains _) fun _ =>
    .bind .get fun _ => .bind (orFail_explains (m.run_avoids _)) fun _ =>
    .bind (onMain_explains (Stack.needing_explains _ _)) fun _ =>
    .ite (demand_explains nofun) (onMain_explains (Stack.push_explains _))

end Signing

theorem Instruction.run_explains (ctx : Context) (op : Opcode) (executing : Bool) (rest : Bytes)
    (i : Instruction) : Effect.Explains (i.run ctx op executing rest) := by
  open Effect in
  cases i with
  | number n => exact onMain_explains (Stack.push_explains _)
  | nop => exact .pure ()
  | reservedNop => exact demand_explains nofun
  | checkLockTime => exact Control.checkLockTime_explains
  | checkSequence => exact Control.checkSequence_explains
  | branch on => exact Control.branch_explains on executing
  | otherwise => exact Control.otherwise_explains
  | endBranch => exact Control.endBranch_explains
  | verify => exact assertTop_explains _
  | abort => exact throw_explains nofun
  | toAlt => exact Control.toAlt_explains
  | fromAlt => exact Control.fromAlt_explains
  | arrange a => exact onMain_explains (Stack.arrangement_explains a)
  | dupIfTrue => exact onMain_explains Data.dupIfTrue_explains
  | depth => exact onMain_explains Data.depth_explains
  | pick => exact onMain_explains (Data.pickOrRoll_explains false)
  | roll => exact onMain_explains (Data.pickOrRoll_explains true)
  | size => exact onMain_explains Data.size_explains
  | concatenate => exact onMain_explains (Data.onTwo_avoids fun _ _ => .ite (.ok _) (.error nofun))
  | split => exact onMain_explains Data.split_explains
  | reverse => exact onMain_explains (Data.reverse_explains _)
  | toWidth => exact onMain_explains Data.toWidth_explains
  | toNumber => exact onMain_explains Data.toNumber_explains
  | bitwise op => exact onMain_explains (Data.onTwo_avoids fun _ _ => .ite (.ok _) (.error nofun))
  | equal verify =>
    exact .bind (onMain_explains (Data.onTwo_avoids fun _ _ => .ok _)) fun _ =>
      .ite (assertTop_explains _) (.pure ())
  | unary op => exact onMain_explains (Data.explains_of_overflow fun _ _ _ => Data.unary_overflow)
  | binary op verify =>
    exact .bind (onMain_explains (Data.explains_of_overflow fun _ _ _ => Data.binary_overflow)) fun _ =>
      .ite (assertTop_explains _) (.pure ())
  | within => exact onMain_explains (Data.explains_of_overflow fun _ _ _ => Data.within_overflow)
  | hash kind => exact onMain_explains (Data.onTop_explains fun _ => .ok _)
  | codeSeparator => exact .modify _
  | checkSig verify => exact Signing.checkSig_explains verify
  | checkMultisig verify => exact Signing.checkMultisig_explains verify
  | checkDataSig verify => exact Signing.checkDataSig_explains verify
  | invalid => exact throw_explains nofun

namespace Effect

variable {ctx : Context} {op : Operation} {rest : Bytes}

theorem perform_explains : Explains (perform ctx op rest) := by
  have hdepth : Explains checkDepth := by
    refine explains_of_code fun st _ st' he => ?_
    unfold checkDepth at he
    split at he
    · cases he
    · cases he
      nofun
  have hdata : Explains (pushData ctx op) :=
    .bind (demand_explains nofun) fun _ => onMain_explains (Stack.push_explains _)
  have hbanned : Explains (demand (!op.code.isDisabled) (.disabledOpcode op.code)) := demand_explains nofun
  rw [perform_eq]
  refine .bind .get fun st => .bind ?_ fun _ => .bind ?_ fun _ => hdepth
  · exact .ite (.bind (countOps_explains 1) fun _ => hbanned) hbanned
  · exact .ite hdata (.ite (Instruction.run_explains _ _ _ _ _) (.pure ()))

end Effect

namespace Machine

variable {ctx : Context} {m m' : Machine} {script : Script} {fault : Fault}

theorem next_avoids (m : Machine) : Avoids m.next := by
  unfold next
  split
  · exact .error nofun
  · exact .ite (.ok _) (.error nofun)

theorem step_explains (h : step ctx m = .error fault m') : fault.IsExplained m'.state.main := by
  unfold step at h
  split at h
  · next hn =>
    cases h
    exact explained_of_code (next_avoids m fault hn)
  · split at h
    · cases h
    · next hp =>
      cases h
      exact Effect.perform_explains _ _ _ hp

/-- A run fails where one of its steps does. -/
theorem run_explains (h : run ctx m = .error fault m') : fault.IsExplained m'.state.main := by
  rcases exists_steps ctx m with ⟨_, _, -, -, hr⟩ | ⟨_, t, fault', t', -, hs, hr⟩
  · rw [h] at hr
    cases hr
  · rw [h] at hr
    cases hr
    exact step_explains hs

theorem eval_explains (h : eval ctx script m = .error fault m') : fault.IsExplained m'.state.main := by
  by_cases hl : script.length ≤ Script.maxLength
  · rw [eval_of_length hl] at h
    rcases Effect.bind_error.mp h with hr | ⟨_, t, -, hf⟩
    · exact run_explains hr
    · unfold finish at hf
      split at hf
      · cases hf
      · cases hf
        exact explained_of_code nofun
  · rw [eval_of_too_long hl] at h
    cases h
    exact explained_of_code nofun

end Machine

theorem evalScript_explains {ctx : Context} {script : Script} {main t : Stack} {fault : Fault}
    (h : evalScript ctx script main = .error fault t) : fault.IsExplained t := by
  unfold evalScript at h
  split at h
  · cases h
  · next he =>
    cases h
    exact Machine.eval_explains he

open Number in
/-- The operations on numbers compute over the integers: each takes its operands from the stack and
leaves the shortest spelling of the exact result, for which five bytes are enough. It fails on
anything else, and an overflow is never one of a result, in an operation or anywhere in a script. -/
theorem arithmetic_exact (ctx : Context) (rest : Bytes) (st : State) :
    (∀ code : Opcode, (∃ op : Numeric, op.code = code) ↔
      0x8b ≤ code ∧ code ≤ 0xa5 ∧ code.isDisabled = false) ∧
    (∀ op : Numeric,
      (∀ st', op.code.run ctx rest st = .ok () st' ↔
        ∃ operands below, st.main = operands.reverse ++ below ∧ op.Takes ctx.minimal operands ∧
          { st with main := op.left (operands.map signMagnitude) ++ below } = st') ∧
      (∀ operands, op.Takes ctx.minimal operands → ∀ item ∈ op.left (operands.map signMagnitude),
        item.length ≤ 5 ∧ isMinimal item = true ∧ signMagnitude item = op.exact (operands.map signMagnitude)) ∧
      ∀ fault st', op.code.run ctx rest st = .error fault st' → fault.code = .numberOverflow →
        st' = st ∧ fault.IsOverlong 4 (st.main.take op.arity)) ∧
    ∀ script main fault t, evalScript ctx script main = .error fault t → fault.code = .numberOverflow →
      fault.IsOverlong 4 t ∨ fault.IsOverlong 5 t :=
  ⟨fun _ => Numeric.exists_code_iff,
    fun _ => ⟨fun _ => Numeric.run_ok, fun _ htakes _ hi => Numeric.left_spec htakes hi,
      fun _ _ hrun hc => Numeric.run_overflow hrun hc⟩,
    fun _ _ _ _ h => evalScript_explains h⟩

/-- The quotient of -7 and 2, where only the shortest spellings are taken. -/
theorem arithmetic_exact_quotient :
    Opcode.run ⟨.only .minimalData, .none, 201⟩ [] 0x96 { main := [[2], [0x87]] } =
      .ok () { main := [[0x83]] } := by
  obtain ⟨-, hops, -⟩ := arithmetic_exact ⟨.only .minimalData, .none, 201⟩ [] { main := [[2], [0x87]] }
  obtain ⟨hrun, -, -⟩ := hops (.binary .div)
  refine (hrun _).mpr ⟨[[0x87], [2]], [], rfl, ⟨rfl, by decide, fun _ => by decide, fun _ => by decide⟩, ?_⟩
  decide +kernel

end CoinScript
