import CoinScript.Proofs.Performing

namespace CoinScript

/-- The same outcome in another state. -/
def inState {ε σ α : Type} (f : σ → σ) : EStateM.Result ε σ α → EStateM.Result ε σ α
  | .ok a s => .ok a (f s)
  | .error fault s => .error fault (f s)

/-- The state in which a step ends, whether or not it succeeds. -/
def finalState {ε σ α : Type} : EStateM.Result ε σ α → σ
  | .ok _ s => s
  | .error _ s => s

/-- The step does the same on a state that has been changed by `f`. -/
def Commutes {ε σ α : Type} (f : σ → σ) (e : EStateM ε σ α) : Prop :=
  ∀ s, e (f s) = inState f (e s)

theorem finalState_inState {ε σ α : Type} (f : σ → σ) (r : EStateM.Result ε σ α) :
    finalState (inState f r) = f (finalState r) := by
  cases r <;> rfl

theorem finalState_of_ok {ε σ α : Type} {r : EStateM.Result ε σ α} {a : α} {s : σ}
    (h : r = .ok a s) : finalState r = s := by
  rw [h]
  rfl

theorem finalState_of_error {ε σ α : Type} {r : EStateM.Result ε σ α} {fault : ε} {s : σ}
    (h : r = .error fault s) : finalState r = s := by
  rw [h]
  rfl

namespace Effect

variable {ε σ α β : Type} {e : EStateM ε σ α} {k : α → EStateM ε σ β} {s : σ}

/-- The step leaves the state alone, whatever comes of it. -/
def Looks (e : EStateM ε σ α) : Prop := ∀ s, finalState (e s) = s

theorem Looks.state_eq {a : α} {t : σ} (he : Looks e) (h : e s = .ok a t) : s = t := by
  have hs := he s
  rw [h] at hs
  exact hs.symm

/-- Where the first step fails, its state is the last one. -/
theorem bind_final {P : σ → Prop} (h : P (finalState (e s)))
    (hk : ∀ a t, e s = .ok a t → P (finalState (k a t))) : P (finalState ((e >>= k) s)) := by
  change P (finalState (EStateM.bind e k s))
  unfold EStateM.bind
  cases hs : e s with
  | ok a t => exact hk a t hs
  | error fault t =>
    rw [hs] at h
    exact h

theorem Looks.bind_final {P : σ → Prop} (he : Looks e) (h : P s)
    (hk : ∀ a, e s = .ok a s → P (finalState (k a s))) : P (finalState ((e >>= k) s)) := by
  refine Effect.bind_final ?_ ?_
  · rw [he s]
    exact h
  · intro a t ha
    cases he.state_eq ha
    exact hk a ha

end Effect

namespace Commutes

variable {ε σ α β : Type} {f : σ → σ}

theorem pure (a : α) : Commutes f (pure a : EStateM ε σ α) := fun _ => rfl

theorem throw (fault : ε) : Commutes f (throw fault : EStateM ε σ α) := fun _ => rfl

theorem bind {e : EStateM ε σ α} {next : α → EStateM ε σ β} (he : Commutes f e)
    (hn : ∀ a, Commutes f (next a)) : Commutes f (e >>= next) := by
  intro s
  change EStateM.bind e next (f s) = inState f (EStateM.bind e next s)
  unfold EStateM.bind
  rw [he s]
  cases e s with
  | ok a t => exact hn a t
  | error fault t => rfl

/-- Looking at a part of the state that `f` leaves alone is harmless. -/
theorem reading {next : σ → EStateM ε σ α} (hp : ∀ s, next (f s) = next s)
    (hn : ∀ s, Commutes f (next s)) : Commutes f (get >>= next) := by
  intro s
  change next (f s) (f s) = _
  rw [hp s]
  exact hn s s

theorem ite {c : Prop} [Decidable c] {e e' : EStateM ε σ α} (he : Commutes f e)
    (he' : Commutes f e') : Commutes f (if c then e else e') := by
  split
  · exact he
  · exact he'

end Commutes

/-- A change of what a state records beside its stacks; changes of the stacks can come before it
or after it. -/
structure Framing (f : State → State) : Prop where
  main : ∀ st, (f st).main = st.main
  alt : ∀ st, (f st).alt = st.alt
  update : ∀ st main alt, f { st with main, alt } = { f st with main, alt }

/-- The stacks of a state in place of those of another. -/
def State.onto (record st : State) : State := { record with main := st.main, alt := st.alt }

theorem Framing.onMain {f : State → State} (hf : Framing f) (st : State) (s : Stack) :
    f { st with main := s } = { f st with main := s } := by
  refine (hf.update st s st.alt).trans ?_
  rw [← hf.alt st]

theorem Framing.onto (record : State) : Framing record.onto where
  main _ := rfl
  alt _ := rfl
  update _ _ _ := rfl

namespace Effect

variable {α : Type} {ctx : Context} {f : State → State}

theorem onMain_framed (hf : Framing f) (step : StackStep α) : Commutes f (onMain step) := by
  intro st
  unfold onMain
  rw [hf.main]
  cases step st.main with
  | ok a s => exact congrArg (EStateM.Result.ok a) (hf.onMain st s).symm
  | error fault s => exact congrArg (EStateM.Result.error fault) (hf.onMain st s).symm

theorem orFail_framed (result : Except Fault α) : Commutes f (orFail result) := by
  intro st
  cases result <;> rfl

theorem demand_framed (condition : Bool) (fault : Fault) : Commutes f (demand condition fault) := by
  intro st
  cases condition <;> rfl

theorem assertTop_framed (hf : Framing f) (assertion : Assertion) : Commutes f (assertTop assertion) :=
  onMain_framed hf _

theorem pushData_framed (hf : Framing f) (op : Operation) : Commutes f (pushData ctx op) :=
  (demand_framed _ _).bind fun _ => onMain_framed hf _

theorem checkDepth_framed (hf : Framing f) : Commutes f checkDepth := by
  intro st
  have hd : (f st).depth = st.depth := by rw [State.depth, State.depth, hf.main, hf.alt]
  unfold checkDepth
  rw [hd]
  split <;> rfl

end Effect

namespace Control

open Effect

variable {ctx : Context} {f : State → State}

/-- Opening a conditional only adds to the branches. -/
theorem branch_framed (hf : Framing f)
    (hb : ∀ st b, f { st with branches := b :: st.branches } =
      { f st with branches := b :: (f st).branches })
    (on executing : Bool) : Commutes f (branch ctx on executing) := by
  intro st
  unfold branch
  cases executing with
  | false => exact congrArg (EStateM.Result.ok ()) (hb st false).symm
  | true =>
    rw [if_pos rfl, if_pos rfl, hf.main]
    cases st.main with
    | nil => rfl
    | cons top s =>
      dsimp only
      split
      · exact congrArg (EStateM.Result.error _) (hf.onMain st s).symm
      · refine congrArg (EStateM.Result.ok ()) ?_
        have hpushed := hb { st with main := s } (Number.isTrue top == on)
        rw [hf.onMain st s] at hpushed
        exact hpushed.symm

theorem toAlt_framed (hf : Framing f) : Commutes f toAlt := by
  intro st
  unfold toAlt
  rw [hf.main, hf.alt]
  cases st.main with
  | nil => rfl
  | cons top s => exact congrArg (EStateM.Result.ok ()) (hf.update st s (top :: st.alt)).symm

theorem fromAlt_framed (hf : Framing f) : Commutes f fromAlt := by
  intro st
  unfold fromAlt
  rw [hf.main, hf.alt]
  cases st.alt with
  | nil => rfl
  | cons top s => exact congrArg (EStateM.Result.ok ()) (hf.update st (top :: st.main) s).symm

theorem lockTimeOperand_framed (hf : Framing f) : Commutes f (lockTimeOperand ctx) := by
  refine (onMain_framed hf _).bind fun _ => ?_
  refine Commutes.reading (fun st => by rw [hf.main]) fun st => ?_
  exact (orFail_framed _).bind fun n => (demand_framed _ _).bind fun _ => .pure n

theorem checkLockTime_framed (hf : Framing f) : Commutes f (checkLockTime ctx) :=
  .ite ((lockTimeOperand_framed hf).bind fun _ => demand_framed _ _) (.pure ())

theorem checkSequence_framed (hf : Framing f) : Commutes f (checkSequence ctx) :=
  .ite ((lockTimeOperand_framed hf).bind fun _ => demand_framed _ _) (.pure ())

end Control

namespace Signing

open Effect

variable {ctx : Context} {f : State → State}

theorem answer_framed (hf : Framing f) (n : Nat) (verify : Bool) (assertion : Assertion)
    (success : Bool) : Commutes f (answer n verify assertion success) :=
  (onMain_framed hf _).bind fun _ => (onMain_framed hf _).bind fun _ =>
    .ite (assertTop_framed hf _) (.pure ())

theorem numberAt_framed (hf : Framing f) (i : Nat) : Commutes f (numberAt ctx i) :=
  (onMain_framed hf _).bind fun _ => orFail_framed _

/-- Of what is recorded, a check on plain data touches only the number of checks. -/
theorem checkDataSig_framed (hf : Framing f) (hc : ∀ n, Commutes f (countSigChecks n))
    (verify : Bool) : Commutes f (checkDataSig ctx verify) := by
  refine (onMain_framed hf _).bind fun _ => ?_
  refine (onMain_framed hf _).bind fun key => ?_
  refine (onMain_framed hf _).bind fun message => ?_
  refine (onMain_framed hf _).bind fun sig => ?_
  refine (orFail_framed _).bind fun _ => ?_
  refine (orFail_framed _).bind fun _ => ?_
  refine (hc _).bind fun _ => ?_
  exact (orFail_framed _).bind fun _ => answer_framed hf _ _ _ _

end Signing

namespace Instruction

open Effect

/-- Instructions that neither look at nor change anything but the stacks. -/
def actsOnStacks : Instruction → Bool
  | .branch _ | .otherwise | .endBranch | .codeSeparator => false
  | .checkSig _ | .checkMultisig _ | .checkDataSig _ => false
  | _ => true

variable {ctx : Context} {f : State → State} {i : Instruction} {op : Opcode} {executing : Bool}
  {rest : Bytes}

theorem run_framed (hf : Framing f) (hi : i.actsOnStacks = true) :
    Commutes f (i.run ctx op executing rest) := by
  cases i with
  | number n => exact onMain_framed hf (Stack.pushNumber n)
  | depth => exact onMain_framed hf Data.depth
  | nop => exact .pure ()
  | reservedNop => exact demand_framed _ _
  | checkLockTime => exact Control.checkLockTime_framed hf
  | checkSequence => exact Control.checkSequence_framed hf
  | verify => exact assertTop_framed hf _
  | abort => exact .throw _
  | toAlt => exact Control.toAlt_framed hf
  | fromAlt => exact Control.fromAlt_framed hf
  | equal insist => exact (onMain_framed hf _).bind fun _ => .ite (assertTop_framed hf _) (.pure ())
  | binary b insist =>
    exact (onMain_framed hf _).bind fun _ => .ite (assertTop_framed hf _) (.pure ())
  | invalid => exact .throw _
  | branch _ | otherwise | endBranch | codeSeparator | checkSig _ | checkMultisig _ | checkDataSig _ =>
    cases hi
  | _ => exact onMain_framed hf _

end Instruction

/-- An effect that commutes with every framing changes nothing but the stacks. -/
theorem Commutes.record_kept {α : Type} {e : Effect α} (h : ∀ f, Framing f → Commutes f e)
    (st : State) : finalState (e st) = st.onto (finalState (e st)) := by
  -- on its own stacks a state is itself, so the framing that keeps its record changes nothing
  have he : e (st.onto st) = inState st.onto (e st) := h _ (.onto st) st
  calc finalState (e st) = finalState (e (st.onto st)) := rfl
    _ = st.onto (finalState (e st)) := by rw [he, finalState_inState]

end CoinScript
