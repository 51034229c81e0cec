import CoinScript.Proofs.Framing
import CoinScript.Proofs.Running

namespace CoinScript

def State.charged (k : Nat) (st : State) : State := { st with sigChecks := st.sigChecks + k }

theorem State.framing_charged (k : Nat) : Framing (State.charged k) where
  main _ := rfl
  alt _ := rfl
  update _ _ _ := rfl

namespace Effect

variable {ctx : Context} {k : Nat}

theorem countOps_charged (n : Nat) : Commutes (State.charged k) (countOps ctx n) := by
  intro st
  by_cases h : st.opCount + n ≤ ctx.budget <;> simp [countOps, State.charged, inState, h]

theorem countSigChecks_charged (n : Nat) : Commutes (State.charged k) (countSigChecks n) := by
  intro st
  simp only [countSigChecks, State.charged, inState, Nat.add_right_comm]

end Effect

namespace Control

variable {ctx : Context} {k : Nat}

theorem branch_charged (on executing : Bool) :
    Commutes (State.charged k) (branch ctx on executing) :=
  branch_framed (State.framing_charged k) (fun _ _ => rfl) on executing

theorem otherwise_charged : Commutes (State.charged k) otherwise := by
  intro st
  obtain ⟨main, alt, branches, code, hashTypes, opCount, sigChecks⟩ := st
  cases branches <;> rfl

theorem endBranch_charged : Commutes (State.charged k) endBranch := by
  intro st
  obtain ⟨main, alt, branches, code, hashTypes, opCount, sigChecks⟩ := st
  cases branches <;> rfl

end Control

namespace Signing

open Effect

variable {ctx : Context} {k : Nat}

theorem checkSig_charged (verify : Bool) : Commutes (State.charged k) (checkSig ctx verify) := by
  have hf := State.framing_charged k
  refine (onMain_framed hf _).bind fun _ => ?_
  refine (onMain_framed hf _).bind fun key => ?_
  refine (onMain_framed hf _).bind fun sig => ?_
  refine Commutes.bind (fun _ => rfl) fun _ => ?_
  refine (countSigChecks_charged _).bind fun _ => ?_
  refine Commutes.reading (fun _ => rfl) fun st => ?_
  exact (orFail_framed _).bind fun success => answer_framed hf _ _ _ _

theorem readMultisig_charged : Commutes (State.charged k) (readMultisig ctx) := by
  have hf := State.framing_charged k
  refine (onMain_framed hf _).bind fun _ => ?_
  refine (numberAt_framed hf _).bind fun n => ?_
  refine (demand_framed _ _).bind fun _ => ?_
  refine (countOps_charged _).bind fun _ => ?_
  refine (onMain_framed hf _).bind fun _ => ?_
  refine (numberAt_framed hf _).bind fun m => ?_
  refine (demand_framed _ _).bind fun _ => ?_
  refine (onMain_framed hf _).bind fun _ => ?_
  exact Commutes.reading (fun _ => rfl) fun st => .pure _

theorem checkMultisig_charged (verify : Bool) : Commutes (State.charged k) (checkMultisig ctx verify) := by
  have hf := State.framing_charged k
  refine readMultisig_charged.bind fun m => ?_
  refine (countSigChecks_charged _).bind fun _ => ?_
  refine Commutes.reading (fun _ => rfl) fun st => ?_
  refine (orFail_framed _).bind fun success => ?_
  refine (onMain_framed hf _).bind fun _ => ?_
  exact .ite (demand_framed _ _) (onMain_framed hf _)

end Signing

open Effect

variable {ctx : Context} {k : Nat}

theorem Instruction.run_charged (i : Instruction) (op : Opcode) (executing : Bool)
    (rest : Bytes) : Commutes (State.charged k) (i.run ctx op executing rest) := by
  have hf := State.framing_charged k
  cases i with
  | branch on => exact Control.branch_charged on executing
  | otherwise => exact Control.otherwise_charged
  | endBranch => exact Control.endBranch_charged
  | codeSeparator => exact fun _ => rfl
  | checkSig insist => exact Signing.checkSig_charged insist
  | checkMultisig insist => exact Signing.checkMultisig_charged insist
  | checkDataSig insist => exact Signing.checkDataSig_framed hf countSigChecks_charged insist
  | _ => exact run_framed hf rfl

theorem Effect.perform_charged (op : Operation) (rest : Bytes) :
    Commutes (State.charged k) (perform ctx op rest) := by
  have hf := State.framing_charged k
  rw [perform_eq]
  refine Commutes.reading (fun _ => rfl) fun st => ?_
  refine Commutes.bind ?_ fun _ => Commutes.bind ?_ fun _ => checkDepth_framed hf
  · exact .ite ((countOps_charged 1).bind fun _ => demand_framed _ _)
      (Commutes.bind (.pure ()) fun _ => demand_framed _ _)
  · exact .ite (pushData_framed hf op) (.ite (Instruction.run_charged _ _ _ _) (.pure ()))

namespace Machine

def charged (k : Nat) (m : Machine) : Machine := { m with state := m.state.charged k }

theorem step_charged : Commutes (charged k) (step ctx) := by
  intro m
  have hn : (m.charged k).next = m.next := rfl
  unfold step
  rw [hn]
  cases m.next with
  | error fault => rfl
  | ok found =>
    obtain ⟨op, rest⟩ := found
    have hp : Effect.perform ctx op rest (m.charged k).state =
        inState (State.charged k) (Effect.perform ctx op rest m.state) :=
      Effect.perform_charged op rest m.state
    dsimp only
    rw [hp]
    cases Effect.perform ctx op rest m.state <;> rfl

/-- By induction on the run: each step takes the difference along. -/
theorem run_charged : Commutes (charged k) (run ctx : MachineStep Unit) := by
  intro m
  induction m using run.induct ctx with
  | case1 m hf =>
    have hu : m.unread = [] := List.isEmpty_iff.mp hf
    have hu' : (m.charged k).unread = [] := hu
    rw [run_done hu, run_done hu']
    rfl
  | case2 m hf m' hs ih =>
    have hs' : step ctx (m.charged k) = .ok () (m'.charged k) := by rw [step_charged, hs]; rfl
    rw [run_step_ok hs, run_step_ok hs', ih]
  | case3 m hf fault m' hs =>
    have hm : m.isFinished = false := by simpa using hf
    have hm' : (m.charged k).isFinished = false := hm
    have hs' : step ctx (m.charged k) = .error fault (m'.charged k) := by
      rw [step_charged, hs]; rfl
    rw [run_step_error hm hs, run_step_error hm' hs']
    rfl

theorem finish_charged : Commutes (charged k) finish := by
  intro m
  have hb : (m.charged k).state.branches = m.state.branches := rfl
  unfold finish
  rw [hb]
  split <;> rfl

theorem start_charged (script : Script) : Commutes (charged k) (start script) := by
  intro m
  by_cases h : script.length ≤ Script.maxLength <;>
    simp [start, h, inState, charged, State.charged]

theorem eval_charged (script : Script) : Commutes (charged k) (eval ctx script) :=
  (start_charged script).bind fun _ => run_charged.bind fun _ => finish_charged

/-- An evaluation depends on nothing but the stacks it starts on. -/
theorem eval_fresh (script : Script) (m : Machine) :
    eval ctx script m = inState (charged m.state.sigChecks)
      (eval ctx script { state := { main := m.state.main, alt := m.state.alt } }) := by
  have hs : start script m = start script
      (charged m.state.sigChecks { state := { main := m.state.main, alt := m.state.alt } }) := by
    by_cases h : script.length ≤ Script.maxLength <;> simp [start, h, charged, State.charged]
  rw [← eval_charged script]
  unfold eval
  change EStateM.bind _ _ m = EStateM.bind _ _ _
  unfold EStateM.bind
  rw [hs]

end Machine

end CoinScript
