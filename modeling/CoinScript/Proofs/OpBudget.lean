import CoinScript.Proofs.ScriptVouched
import CoinScript.Engine.Spend

namespace CoinScript

/-- The same context with another budget. -/
def Context.withBudget (ctx : Context) (budget : Nat) : Context := { ctx with budget }

/-- The first step comes to what the second comes to, unless the budget stops it. -/
def Rations {σ α : Type} (budget : Nat) (e e' : EStateM Fault σ α) : Prop :=
  ∀ s, e s = e' s ∨ ∃ t, e s = .error (.opBudget budget) t

namespace Rations

variable {σ α β : Type} {budget : Nat} {e e' : EStateM Fault σ α}

theorem refl (e : EStateM Fault σ α) : Rations budget e e := fun _ => .inl rfl

theorem bind {next next' : α → EStateM Fault σ β} (he : Rations budget e e')
    (hn : ∀ a, Rations budget (next a) (next' a)) : Rations budget (e >>= next) (e' >>= next') := by
  intro s
  rcases he s with hs | ⟨t, hs⟩
  · cases ht : e' s with
    | ok a t =>
      rw [ht] at hs
      rw [Effect.bind_of_ok hs, Effect.bind_of_ok ht]
      exact hn a t
    | error fault t =>
      rw [ht] at hs
      rw [Effect.bind_of_error hs, Effect.bind_of_error ht]
      exact .inl rfl
  · exact .inr ⟨t, Effect.bind_of_error hs⟩

theorem after {next next' : α → EStateM Fault σ β} (hn : ∀ a, Rations budget (next a) (next' a)) :
    Rations budget (e >>= next) (e >>= next') := (refl e).bind hn

end Rations

variable {ctx : Context} {larger : Nat}

namespace Effect

theorem countOps_rations (h : ctx.budget ≤ larger) (n : Nat) :
    Rations ctx.budget (countOps ctx n) (countOps (ctx.withBudget larger) n) := by
  intro st
  by_cases hb : st.opCount + n ≤ ctx.budget
  · have hsmall : countOps ctx n st = .ok () { st with opCount := st.opCount + n } :=
      countOps_ok.mpr ⟨hb, rfl⟩
    have hlarge : countOps (ctx.withBudget larger) n st =
        .ok () { st with opCount := st.opCount + n } := countOps_ok.mpr ⟨Nat.le_trans hb h, rfl⟩
    exact .inl (hsmall.trans hlarge.symm)
  · exact .inr ⟨_, if_neg hb⟩

end Effect

namespace Signing

open Effect

theorem Multisig.runPairs_withBudget (code : Script) (keys : List Bytes) (i : Nat)
    (positions : List Nat) (sigs : List Bytes) :
    runPairs (ctx.withBudget larger) code keys i positions sigs =
      runPairs ctx code keys i positions sigs := by
  induction positions generalizing i sigs with
  | nil => rfl
  | cons position positions ih =>
    cases sigs with
    | nil => rfl
    | cons sig sigs =>
      unfold runPairs
      simp only [ih]
      rfl

theorem Multisig.run_withBudget (code : Script) (m : Multisig) :
    m.run (ctx.withBudget larger) code = m.run ctx code := by
  unfold run runSelected
  simp only [runPairs_withBudget]
  rfl

theorem readMultisig_rations (h : ctx.budget ≤ larger) :
    Rations ctx.budget (readMultisig ctx) (readMultisig (ctx.withBudget larger)) := by
  apply Rations.after
  intro _
  apply Rations.after
  intro n
  apply Rations.after
  intro _
  apply (countOps_rations h n.toNat).bind
  intro _
  exact .refl _

theorem checkMultisig_rations (h : ctx.budget ≤ larger) (verify : Bool) :
    Rations ctx.budget (checkMultisig ctx verify) (checkMultisig (ctx.withBudget larger) verify) := by
  apply (readMultisig_rations h).bind
  intro m
  simp only [Multisig.run_withBudget]
  exact .refl _

/-- With fewer operations to count than the smaller budget allows, it makes no difference. -/
theorem checkMultisig_affords {verify : Bool} {u : Unit} {st st' : State}
    (hc : checkMultisig (ctx.withBudget larger) verify st = .ok u st')
    (hb : st'.opCount ≤ ctx.budget) : checkMultisig ctx verify st = .ok u st' := by
  obtain ⟨m, t, hr, hrest⟩ := bind_ok.mp hc
  obtain ⟨hs, -, rfl⟩ := readMultisig_ok.mp hr
  have hcount := (checkMultisig_opCount hc).1
  rw [hs.keyCount_eq] at hcount
  rw [hcount] at hb
  refine bind_ok.mpr ⟨m, _, readMultisig_ok.mpr ⟨hs, hb, rfl⟩, ?_⟩
  simp only [Multisig.run_withBudget] at hrest
  exact hrest

end Signing

namespace Effect

variable {op : Operation} {rest : Bytes} {executing : Bool} {st st' : State} {u : Unit}

/-- Of all that an operation can do, only a multisignature looks at the budget. -/
theorem act_withBudget (ctx : Context) (larger : Nat) (op : Operation) (rest : Bytes)
    (executing : Bool) :
    act (ctx.withBudget larger) op rest executing = act ctx op rest executing ∨
      ∃ verify, act ctx op rest executing = Signing.checkMultisig ctx verify ∧
        act (ctx.withBudget larger) op rest executing =
          Signing.checkMultisig (ctx.withBudget larger) verify := by
  unfold act
  split
  · exact .inl rfl
  · split
    · cases Instruction.ofOpcode op.code with
      | checkMultisig verify => exact .inr ⟨verify, rfl, rfl⟩
      | _ => exact .inl rfl
    · exact .inl rfl

theorem act_rations (h : ctx.budget ≤ larger) (op : Operation) (rest : Bytes) (executing : Bool) :
    Rations ctx.budget (act ctx op rest executing) (act (ctx.withBudget larger) op rest executing) := by
  rcases act_withBudget ctx larger op rest executing with he | ⟨verify, he, he'⟩
  · rw [he]
    exact .refl _
  · rw [he, he']
    exact Signing.checkMultisig_rations h verify

theorem act_affords (ha : act (ctx.withBudget larger) op rest executing st = .ok u st')
    (hb : st'.opCount ≤ ctx.budget) : act ctx op rest executing st = .ok u st' := by
  rcases act_withBudget ctx larger op rest executing with he | ⟨verify, he, he'⟩
  · rw [he] at ha
    exact ha
  · rw [he'] at ha
    rw [he]
    exact Signing.checkMultisig_affords ha hb

theorem enter_rations (h : ctx.budget ≤ larger) (op : Opcode) :
    Rations ctx.budget (enter ctx op) (enter (ctx.withBudget larger) op) := by
  unfold enter
  split
  · apply (countOps_rations h 1).bind
    intro _
    exact .refl _
  · exact .refl _

theorem perform_rations (h : ctx.budget ≤ larger) (op : Operation) (rest : Bytes) :
    Rations ctx.budget (perform ctx op rest) (perform (ctx.withBudget larger) op rest) := by
  rw [perform_eq, perform_eq]
  apply Rations.after
  intro st
  apply (enter_rations h op.code).bind
  intro _
  apply (act_rations h op rest st.isExecuting).bind
  intro _
  exact .refl _

/-- An operation that the larger budget allows is allowed by the smaller one, too, as long as the
count that it leaves is. -/
theorem perform_affords (hp : perform (ctx.withBudget larger) op rest st = .ok u st')
    (hb : st'.opCount ≤ ctx.budget) : perform ctx op rest st = .ok u st' := by
  obtain ⟨-, hd, ha, hl⟩ := perform_ok.mp hp
  have hcount := (perform_counts hp).2.1
  refine perform_ok.mpr ⟨fun hc => ?_, hd, act_affords ha hb, hl⟩
  rw [if_pos hc] at hcount
  omega

end Effect

namespace Machine

variable {m m' : Machine} {trail : List Stage} {script : Script}

theorem step_rations (h : ctx.budget ≤ larger) :
    Rations ctx.budget (step ctx) (step (ctx.withBudget larger)) := by
  intro m
  cases hn : m.next with
  | error fault =>
    left
    rw [step, hn, step, hn]
  | ok found =>
    obtain ⟨op, rest⟩ := found
    rcases Effect.perform_rations h op rest m.state with hp | ⟨st, hp⟩
    · left
      rw [step, hn, step, hn]
      dsimp only
      rw [hp]
    · right
      refine ⟨⟨st, m.script, rest⟩, ?_⟩
      rw [step, hn]
      dsimp only
      rw [hp]

/-- By induction on the run with the smaller budget. -/
theorem run_rations (h : ctx.budget ≤ larger) :
    Rations ctx.budget (run ctx : MachineStep Unit) (run (ctx.withBudget larger)) := by
  intro m
  induction m using run.induct ctx with
  | case1 m hf =>
    have hu : m.unread = [] := List.isEmpty_iff.mp hf
    rw [run_done hu, run_done hu]
    exact .inl rfl
  | case2 m hf t hs ih =>
    have hs' : step (ctx.withBudget larger) m = .ok () t := by
      rcases step_rations h m with he | ⟨s, he⟩
      · rw [← he, hs]
      · rw [hs] at he
        cases he
    rw [run_step_ok hs, run_step_ok hs']
    exact ih
  | case3 m hf fault t hs =>
    have hm : m.isFinished = false := by simpa using hf
    rcases step_rations h m with he | ⟨s, he⟩
    · rw [run_step_error hm hs, run_step_error hm (he.symm.trans hs)]
      exact .inl rfl
    · exact .inr ⟨s, run_step_error hm he⟩

theorem Steps.opCount_le (h : Steps ctx m trail m') : m.state.opCount ≤ m'.state.opCount := by
  rw [h.vouches.2.2.1]
  omega

/-- By induction on the steps: the count never falls, so no step left more than the last one did. -/
theorem Steps.affords (h : Steps (ctx.withBudget larger) m trail m')
    (hb : m'.state.opCount ≤ ctx.budget) : Steps ctx m trail m' := by
  induction h with
  | done m => exact .done m
  | next hn hs hrest ih =>
    obtain ⟨op, rest, hn', hp, ht⟩ := step_ok.mp hs
    have hle := Nat.le_trans (hrest.opCount_le) hb
    exact .next hn (step_ok.mpr ⟨op, rest, hn', Effect.perform_affords hp hle, ht⟩) (ih hb)

theorem Steps.run_eq (h : Steps ctx m trail m') : run ctx m = run ctx m' := by
  induction h with
  | done => rfl
  | next _ hs _ ih => rw [run_step_ok hs, ih]

theorem eval_rations (h : ctx.budget ≤ larger) (script : Script) :
    Rations ctx.budget (eval ctx script) (eval (ctx.withBudget larger) script) := by
  apply Rations.after
  intro _
  apply (run_rations h).bind
  intro _
  exact .refl _

theorem eval_affords (he : eval (ctx.withBudget larger) script m = .ok () m')
    (hb : m'.state.opCount ≤ ctx.budget) : eval ctx script m = .ok () m' := by
  obtain ⟨hlength, hrun, hbranches⟩ := eval_ok.mp he
  obtain ⟨trail, hsteps, hdone⟩ := steps_of_run_ok hrun
  refine eval_ok.mpr ⟨hlength, ?_, hbranches⟩
  rw [(hsteps.affords hb).run_eq, run_done hdone]

theorem eval_opCount_le (he : eval ctx script m = .ok () m') : m'.state.opCount ≤ ctx.budget := by
  obtain ⟨-, hrun, -⟩ := eval_ok.mp he
  obtain ⟨trail, hsteps, -⟩ := steps_of_run_ok hrun
  exact hsteps.vouches.2.2.2 (Nat.zero_le _)

/-- Evaluations with a smaller and a larger budget. The smaller one suffices exactly for those
evaluations that the larger one suffices for and that count no more operations than the smaller one
allows, and then both end in the same machine. Where more are counted, the smaller budget is what
the evaluation fails by. Whatever else an evaluation comes to, it comes to with both. -/
theorem eval_budget_monotone (ctx : Context) (larger : Nat) (h : ctx.budget ≤ larger)
    (script : Script) (m : Machine) :
    (∀ m', eval ctx script m = .ok () m' ↔
        eval (ctx.withBudget larger) script m = .ok () m' ∧ m'.state.opCount ≤ ctx.budget) ∧
      (∀ m', eval (ctx.withBudget larger) script m = .ok () m' → ctx.budget < m'.state.opCount →
        ∃ fault t, eval ctx script m = .error fault t ∧ fault = .opBudget ctx.budget ∧
          fault.code = .opCount) ∧
      (eval ctx script m = eval (ctx.withBudget larger) script m ∨
        ∃ t, eval ctx script m = .error (.opBudget ctx.budget) t) := by
  have hrations := eval_rations h script m
  refine ⟨fun m' => ⟨fun he => ?_, fun he => eval_affords he.1 he.2⟩, fun m' he hlt => ?_, hrations⟩
  · rcases hrations with hsame | ⟨t, hstop⟩
    · exact ⟨hsame.symm.trans he, eval_opCount_le he⟩
    · rw [he] at hstop
      cases hstop
  · rcases hrations with hsame | ⟨t, hstop⟩
    · have hle := eval_opCount_le (hsame.trans he)
      omega
    · exact ⟨_, t, hstop, rfl, rfl⟩

/-- A multisignature of two keys counts three operations: a budget of three is as good as any larger
one, and a budget of two is not enough. -/
theorem eval_budget_monotone_two_keys :
    let script : Script := ⟨[0x00, 0x00, 0x01, 0x02, 0x01, 0x03, 0x52, 0xae]⟩
    let ctx (budget : Nat) : Context := ⟨.ofList [], .none, budget⟩
    let m : Machine := { state := { alt := [[7]] } }
    let m' : Machine :=
      { state := { main := [[1]], alt := [[7]], code := script.bytes, opCount := 3 }, script }
    (3 ≤ 201 ∧ eval (ctx 3) script m = .ok () m') ∧
      (2 ≤ 201 ∧ ∃ fault t, eval (ctx 2) script m = .error fault t ∧ fault.code = .opCount) := by
  intro script ctx m m'
  have heval : eval (ctx 201) script m = .ok () m' := by decide +kernel
  have htwo := eval_budget_monotone (ctx 2) 201 (by decide) script m
  have hthree := eval_budget_monotone (ctx 3) 201 (by decide) script m
  obtain ⟨fault, t, hf, -, hcode⟩ := htwo.2.1 m' heval (by decide)
  exact ⟨⟨by decide, (hthree.1 m').mpr ⟨heval, by decide⟩⟩, by decide, fault, t, hf, hcode⟩

/-- What a spend may use is used up by 201 operations. -/
example :
    let code (n : Nat) := match evalScript ⟨.none, .none, Spend.maxOps⟩ ⟨List.replicate n 0x61⟩ [] with
      | .ok _ _ => none
      | .error fault _ => some fault.code
    code 201 = none ∧ code 202 = some .opCount := by
  decide +kernel

end Machine

end CoinScript
