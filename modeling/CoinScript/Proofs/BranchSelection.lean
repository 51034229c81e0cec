import CoinScript.Proofs.Segments

namespace CoinScript

namespace Operation

instance (op : Operation) : Decidable op.Passes :=
  decidable_of_iff (op.data.length ≤ Fault.maxItem ∧ op.code.isDisabled = false ∧
      op.code ≠ Opcode.versionIf ∧ op.code ≠ Opcode.versionUnless)
    ⟨fun h => ⟨h.1, h.2.1, h.2.2⟩, fun h => ⟨h.short, h.enabled, h.known⟩⟩

instance (op : Operation) : Decidable op.IsPlain :=
  decidable_of_iff (op.Passes ∧ op.code.checksScript = false)
    ⟨fun h => ⟨h.1, h.2⟩, fun h => ⟨h.toPasses, h.detached⟩⟩

end Operation

namespace Script

/-- A script that can stand as a branch: it reads to its end, its conditionals are its own, and its
operations pass and look at no script. -/
structure IsSegment (s : Script) : Prop where
  whole : s.isWellFormed = true
  balanced : Operation.Balanced s.operations
  plain : ∀ op ∈ s.operations, op.IsPlain

/-- One script if the condition is `on`, the other if it is not. -/
def conditional (on : Bool) (a b : Script) : Script :=
  ⟨Opcode.opening on :: (a.bytes ++ Opcode.otherwise :: (b.bytes ++ [Opcode.branchEnd]))⟩

variable {a b s : Script} {on : Bool}

instance (s : Script) : Decidable s.IsSegment :=
  decidable_of_iff (s.isWellFormed = true ∧ Operation.Balanced s.operations ∧
      ∀ op ∈ s.operations, op.IsPlain)
    ⟨fun h => ⟨h.1, h.2.1, h.2.2⟩, fun h => ⟨h.whole, h.balanced, h.plain⟩⟩

theorem IsSegment.reads (h : s.IsSegment) : Operation.Reads s.bytes s.operations [] := by
  have htail : (parse s.bytes).2 = [] := List.isEmpty_iff.mp h.whole
  have hr := Operation.reads_parse s.bytes
  rw [htail] at hr
  exact hr

theorem conditional_operations (ha : a.IsSegment) (hb : b.IsSegment) :
    (conditional on a b).operations = ⟨Opcode.opening on, []⟩ :: (a.operations ++
      ⟨Opcode.otherwise, []⟩ :: (b.operations ++ [⟨Opcode.branchEnd, []⟩])) := by
  have hopening : Opcode.pushData4 < Opcode.opening on := by cases on <;> decide
  have hread : Operation.Reads (conditional on a b).bytes (⟨Opcode.opening on, []⟩ ::
      (a.operations ++ ⟨Opcode.otherwise, []⟩ :: (b.operations ++ [⟨Opcode.branchEnd, []⟩]))) [] := by
    refine .next (Operation.read?_code hopening) ((ha.reads.extend _).append ?_)
    refine .next (Operation.read?_code (by decide)) ((hb.reads.extend _).append ?_)
    exact .next (Operation.read?_code (by decide)) (.done [])
  have hnil : parse [] = ([], []) := parse_of_none rfl
  have hp := hread.parse_eq
  rw [hnil, List.append_nil] at hp
  exact congrArg Prod.fst hp

theorem conditional_counted (ha : a.IsSegment) (hb : b.IsSegment) :
    Operation.counted (conditional on a b).operations =
      Operation.counted a.operations + Operation.counted b.operations + 3 := by
  rw [conditional_operations ha hb]
  have hopening : (Opcode.opening on).isCounted = true := by cases on <;> rfl
  have hothers : Opcode.otherwise.isCounted = true ∧ Opcode.branchEnd.isCounted = true := ⟨rfl, rfl⟩
  simp only [Operation.counted_cons, Operation.counted_append, hopening, hothers.1, hothers.2]
  change _ + (_ + (0 + 1) + 1) + 1 = _
  omega

theorem conditional_length (on : Bool) (a b : Script) :
    (conditional on a b).length = a.length + b.length + 3 := by
  simp only [conditional, length, List.length_cons, List.length_append, List.length_nil]
  omega

end Script

namespace Machine

open State (Inside)

variable {ctx : Context} {script a b c : Script} {more : Bytes} {st st' : State} {m m' : Machine}

/-- A code of a conditional that succeeds is counted, whichever branches are taken. -/
theorem run_control {code : Opcode} (hc : code = Opcode.branchEnd ∨ code = Opcode.otherwise ∨
      ∃ on, code = Opcode.opening on)
    (hb : st.opCount + 1 ≤ ctx.budget)
    (hact : Effect.act ctx ⟨code, []⟩ more st.isExecuting { st with opCount := st.opCount + 1 } =
      .ok () st')
    (hd : st'.depth ≤ Fault.maxDepth) :
    run ctx ⟨st, script, code :: more⟩ = run ctx ⟨st', script, more⟩ := by
  have hcode : Opcode.pushData4 < code ∧ code.isCounted = true ∧ code.isDisabled = false := by
    rcases hc with rfl | rfl | ⟨on, rfl⟩
    · decide
    · decide
    · cases on <;> decide
  have hcounted : st.counting code = { st with opCount := st.opCount + 1 } := by
    rw [State.counting_eq, if_pos hcode.2.1]
  refine run_of_perform_ok (Operation.read?_code hcode.1) (Nat.zero_le _) ?_
  refine Effect.perform_ok.mpr ⟨fun _ => hb, hcode.2.2, ?_, hd⟩
  rw [hcounted]
  exact hact

theorem run_opening (on : Bool) {t : Bytes} {xs : Stack} (hx : st.isExecuting = true)
    (hm : st.main = t :: xs)
    (hmin : ctx.flags.has .minimalIf = true → Control.isMinimalCondition t = true)
    (hb : st.opCount + 1 ≤ ctx.budget) (hd : xs.length + st.alt.length ≤ Fault.maxDepth) :
    run ctx ⟨st, script, Opcode.opening on :: more⟩ = run ctx ⟨{ st with
      main := xs
      branches := (Number.isTrue t == on) :: st.branches
      opCount := st.opCount + 1 }, script, more⟩ := by
  refine run_control (.inr (.inr ⟨on, rfl⟩)) hb ?_ hd
  have hadmitted : ¬ (ctx.flags.has .minimalIf && !Control.isMinimalCondition t) = true := by
    cases hf : ctx.flags.has .minimalIf with
    | false => exact Bool.false_ne_true
    | true => rw [hmin hf]; exact Bool.false_ne_true
  rw [Effect.act_opening rfl, hx, Control.branch, if_pos rfl, hm]
  exact if_neg hadmitted

theorem run_otherwise {b : Bool} {bs : List Bool} (hst : st.branches = b :: bs)
    (hb : st.opCount + 1 ≤ ctx.budget) (hd : st.depth ≤ Fault.maxDepth) :
    run ctx ⟨st, script, Opcode.otherwise :: more⟩ = run ctx ⟨{ st with
      branches := (!b) :: bs
      opCount := st.opCount + 1 }, script, more⟩ := by
  refine run_control (.inr (.inl rfl)) hb ?_ hd
  rw [Effect.act_otherwise rfl, Control.otherwise, hst]

theorem run_branchEnd {b : Bool} {bs : List Bool} (hst : st.branches = b :: bs)
    (hb : st.opCount + 1 ≤ ctx.budget) (hd : st.depth ≤ Fault.maxDepth) :
    run ctx ⟨st, script, Opcode.branchEnd :: more⟩ = run ctx ⟨{ st with
      branches := bs
      opCount := st.opCount + 1 }, script, more⟩ := by
  refine run_control (.inl rfl) hb ?_ hd
  rw [Effect.act_branchEnd rfl, Control.endBranch, hst]

/-- A branch that is not taken is passed over. -/
theorem run_passed_over (hs : a.IsSegment) (hst : st.branches = [false])
    (hb : st.opCount + Operation.counted a.operations ≤ ctx.budget)
    (hd : st.depth ≤ Fault.maxDepth) :
    run ctx ⟨st, script, a.bytes ++ more⟩ = run ctx ⟨{ st with
      opCount := st.opCount + Operation.counted a.operations }, script, more⟩ := by
  have hpasses : ∀ op ∈ a.operations, op.Passes := fun op hop => (hs.plain op hop).toPasses
  have hbranches : st.branches = [] ++ [false] := hst
  have hout : [false].all id = false := rfl
  obtain ⟨inner, hlength, hrun⟩ := run_idle more hs.reads hpasses hout hbranches
    (Operation.balanced_iff.mp hs.balanced) hb hd
  rw [hrun, List.length_eq_zero_iff.mp hlength, List.nil_append, List.nil_append, ← hst]

/-- A branch that is taken does what it does alone, and leaves its conditional open. -/
theorem run_taken (hs : a.IsSegment) (hst : st.branches = []) (hin : Inside [true] st st')
    (hb : st.opCount + Operation.counted a.operations ≤ ctx.budget)
    (hb' : st'.opCount + Operation.counted a.operations ≤ ctx.budget)
    (hd : st.depth ≤ Fault.maxDepth) :
    (∃ fault m m', run ctx ⟨st, a, a.bytes⟩ = .error fault m ∧
        run ctx ⟨st', script, a.bytes ++ more⟩ = .error fault m' ∧
          Inside [true] m.state m'.state) ∨
      ∃ t t', run ctx ⟨st, a, a.bytes⟩ = .ok () ⟨t, a, []⟩ ∧ t.branches = [] ∧
        run ctx ⟨st', script, a.bytes ++ more⟩ = run ctx ⟨t', script, more⟩ ∧ Inside [true] t t' ∧
          t'.opCount = st'.opCount + Operation.counted a.operations ∧ t.depth ≤ Fault.maxDepth := by
  have hn : Operation.nesting st.branches.length a.operations = some 0 := by
    rw [hst]
    exact Operation.balanced_iff.mp hs.balanced
  rcases run_inside more hs.reads hs.plain rfl hin hn hb hb' hd with hfail |
    ⟨t, t', hrun, hrun', hin, hlength, hcount, hd⟩
  · exact .inl hfail
  · refine .inr ⟨t, t', ?_, List.length_eq_zero_iff.mp hlength, hrun', hin, hcount, hd⟩
    rw [hrun, run_done rfl]

/-- Two runs that fail in the same way, or end with the same stacks and no open conditional. -/
inductive Alike : EStateM.Result Fault Machine Unit → EStateM.Result Fault Machine Unit → Prop
  | ok {m m' : Machine} (hb : m.state.branches = []) (h : Inside [] m.state m'.state) :
      Alike (.ok () m) (.ok () m')
  | error {fault : Fault} {outer : List Bool} {m m' : Machine} (h : Inside outer m.state m'.state) :
      Alike (.error fault m) (.error fault m')

/-- The first branch is taken and the second passed over. -/
theorem run_first (ha : a.IsSegment) (hb : b.IsSegment) (hst : st.branches = [])
    (hin : Inside [true] st st') (hd : st.depth ≤ Fault.maxDepth)
    (hcount : st.opCount + Operation.counted a.operations ≤ ctx.budget)
    (hcount' : st'.opCount + Operation.counted a.operations + Operation.counted b.operations + 2 ≤
      ctx.budget) :
    Alike (run ctx ⟨st, a, a.bytes⟩) (run ctx ⟨st', script,
      a.bytes ++ Opcode.otherwise :: (b.bytes ++ [Opcode.branchEnd])⟩) := by
  rcases run_taken ha hst hin hcount (by omega) hd with ⟨fault, m, m', hr, hr', hin⟩ |
    ⟨t, t', hr, ht, hr', hin, hopCount, hd⟩
  · rw [hr, hr']
    exact .error hin
  · have hbranches : t'.branches = [true] := by rw [hin.branches, ht, List.nil_append]
    rw [← hin.depth_eq] at hd
    -- what is left of the conditional: it is turned, the second branch passed over, and closed
    let t₁ : State := { t' with branches := [false], opCount := t'.opCount + 1 }
    let t₂ : State := { t₁ with opCount := t₁.opCount + Operation.counted b.operations }
    let t₃ : State := { t₂ with branches := [], opCount := t₂.opCount + 1 }
    have hturned : run ctx ⟨t', script, Opcode.otherwise :: (b.bytes ++ [Opcode.branchEnd])⟩ =
        run ctx ⟨t₁, script, b.bytes ++ [Opcode.branchEnd]⟩ :=
      run_otherwise hbranches (by omega) hd
    have hpassed : run ctx ⟨t₁, script, b.bytes ++ [Opcode.branchEnd]⟩ =
        run ctx ⟨t₂, script, [Opcode.branchEnd]⟩ :=
      run_passed_over hb rfl (by change t'.opCount + 1 + _ ≤ _; omega) hd
    have hcount₂ : t₂.opCount + 1 ≤ ctx.budget := by
      change t'.opCount + 1 + _ + 1 ≤ _
      omega
    have hopen₂ : t₂.branches = [false] := rfl
    have hd₂ : t₂.depth ≤ Fault.maxDepth := hd
    have hclosed : run ctx ⟨t₂, script, [Opcode.branchEnd]⟩ = .ok () ⟨t₃, script, []⟩ := by
      rw [run_branchEnd hopen₂ hcount₂ hd₂, run_done rfl]
    rw [hr, hr', hturned, hpassed, hclosed]
    refine .ok ht ⟨hin.main, hin.alt, ?_, hin.sigChecks⟩
    change [] = t.branches ++ []
    rw [ht, List.append_nil]

/-- The first branch is passed over and the second taken. -/
theorem run_second (ha : a.IsSegment) (hb : b.IsSegment) (hst : st.branches = [])
    (hin : Inside [false] st st') (hd : st.depth ≤ Fault.maxDepth)
    (hcount : st.opCount + Operation.counted b.operations ≤ ctx.budget)
    (hcount' : st'.opCount + Operation.counted a.operations + Operation.counted b.operations + 2 ≤
      ctx.budget) :
    Alike (run ctx ⟨st, b, b.bytes⟩) (run ctx ⟨st', script,
      a.bytes ++ Opcode.otherwise :: (b.bytes ++ [Opcode.branchEnd])⟩) := by
  have hbranches : st'.branches = [false] := by rw [hin.branches, hst, List.nil_append]
  have hd' : st'.depth ≤ Fault.maxDepth := by rw [hin.depth_eq]; exact hd
  let t₁ : State := { st' with opCount := st'.opCount + Operation.counted a.operations }
  let t₂ : State := { t₁ with branches := [true], opCount := t₁.opCount + 1 }
  have hpassed : run ctx ⟨st', script, a.bytes ++ Opcode.otherwise :: (b.bytes ++ [Opcode.branchEnd])⟩ =
      run ctx ⟨t₁, script, Opcode.otherwise :: (b.bytes ++ [Opcode.branchEnd])⟩ :=
    run_passed_over ha hbranches (by omega) hd'
  have hcount₁ : t₁.opCount + 1 ≤ ctx.budget := by
    change st'.opCount + _ + 1 ≤ _
    omega
  have hopen₁ : t₁.branches = [false] := hbranches
  have hd₁ : t₁.depth ≤ Fault.maxDepth := hd'
  have hturned : run ctx ⟨t₁, script, Opcode.otherwise :: (b.bytes ++ [Opcode.branchEnd])⟩ =
      run ctx ⟨t₂, script, b.bytes ++ [Opcode.branchEnd]⟩ :=
    run_otherwise hopen₁ hcount₁ hd₁
  have hin₂ : Inside [true] st t₂ := by
    refine ⟨hin.main, hin.alt, ?_, hin.sigChecks⟩
    rw [hst]
    rfl
  have hcount₂ : t₂.opCount + Operation.counted b.operations ≤ ctx.budget := by
    change st'.opCount + _ + 1 + _ ≤ _
    omega
  rw [hpassed, hturned]
  rcases run_taken hb hst hin₂ hcount hcount₂ hd with ⟨fault, m, m', hr, hr', hin⟩ |
    ⟨t, t', hr, ht, hr', hin, hopCount, hd⟩
  · rw [hr, hr']
    exact .error hin
  · have hbranches : t'.branches = [true] := by rw [hin.branches, ht, List.nil_append]
    change t'.opCount = st'.opCount + _ + 1 + _ at hopCount
    rw [← hin.depth_eq] at hd
    rw [hr, hr', run_branchEnd hbranches (by omega) hd, run_done rfl]
    refine .ok ht ⟨hin.main, hin.alt, ?_, hin.sigChecks⟩
    change [] = t.branches ++ []
    rw [ht, List.append_nil]

/-- What shows of an evaluation from outside. -/
structure Outcome where
  fault : Option Fault
  main : Stack
  alt : Stack
  sigChecks : Nat
deriving DecidableEq

def outcome : EStateM.Result Fault Machine Unit → Outcome
  | .ok _ m => ⟨none, m.state.main, m.state.alt, m.state.sigChecks⟩
  | .error fault m => ⟨some fault, m.state.main, m.state.alt, m.state.sigChecks⟩

theorem outcome_eq_of_alike (ha : a.length ≤ Script.maxLength) (hb : b.length ≤ Script.maxLength)
    (h : Alike (run ctx (m.started a)) (run ctx (m'.started b))) :
    outcome (eval ctx a m) = outcome (eval ctx b m') := by
  rw [eval_of_length ha, eval_of_length hb]
  generalize hr : run ctx (m.started a) = r at h
  generalize hr' : run ctx (m'.started b) = r' at h
  cases h with
  | @ok t t' ht hin =>
    have ht' : t'.state.branches = [] := by rw [hin.branches, ht, List.append_nil]
    rw [Effect.bind_of_ok hr, Effect.bind_of_ok hr', finish, finish, ht, ht']
    simp [outcome, hin.main, hin.alt, hin.sigChecks]
  | error hin =>
    rw [Effect.bind_of_error hr, Effect.bind_of_error hr']
    simp [outcome, hin.main, hin.alt, hin.sigChecks]

/-- A conditional comes to what the branch that its condition selects comes to on its own, be that
success or a fault, and the other branch has no effect. With a condition that is to be false the
branches change places. -/
theorem conditional_selects_branch (ctx : Context) (m : Machine) (on : Bool) (a b : Script)
    (top : Bytes) (below : Stack) (ha : a.IsSegment) (hb : b.IsSegment)
    (hdepth : below.length + m.state.alt.length ≤ Fault.maxDepth)
    (hlength : (Script.conditional on a b).length ≤ Script.maxLength)
    (hbudget : Operation.counted (Script.conditional on a b).operations ≤ ctx.budget)
    (hmin : ctx.flags.has .minimalIf = true → Control.isMinimalCondition top = true) :
    outcome (eval ctx (.conditional on a b) (m.withMain (top :: below))) =
      outcome (eval ctx (if Number.isTrue top = on then a else b) (m.withMain below)) := by
  rw [Script.conditional_counted ha hb] at hbudget
  rw [Script.conditional_length] at hlength
  have hconditional : (Script.conditional on a b).length ≤ Script.maxLength := by
    rw [Script.conditional_length]
    exact hlength
  let c := Script.conditional on a b
  let start (s : Script) : State := ((m.withMain below).started s).state
  let st' : State := { ((m.withMain (top :: below)).started c).state with
    main := below
    branches := [Number.isTrue top == on]
    opCount := 0 + 1 }
  have hopened : run ctx ((m.withMain (top :: below)).started c) =
      run ctx ⟨st', c, a.bytes ++ Opcode.otherwise :: (b.bytes ++ [Opcode.branchEnd])⟩ :=
    run_opening on rfl rfl hmin (by change 0 + 1 ≤ _; omega) hdepth
  have hcount' : st'.opCount + Operation.counted a.operations + Operation.counted b.operations + 2 ≤
      ctx.budget := by
    change 0 + 1 + _ + _ + 2 ≤ _
    omega
  have hin {taken : Bool} (s : Script) (h : (Number.isTrue top == on) = taken) :
      Inside [taken] (start s) st' := by
    refine ⟨rfl, rfl, ?_, rfl⟩
    rw [← h]
    rfl
  by_cases ht : Number.isTrue top = on
  · rw [if_pos ht]
    symm
    apply outcome_eq_of_alike (by omega) hconditional
    rw [hopened]
    exact run_first ha hb rfl (hin a (beq_iff_eq.mpr ht)) hdepth
      (by change 0 + _ ≤ _; omega) hcount'
  · rw [if_neg ht]
    symm
    apply outcome_eq_of_alike (by omega) hconditional
    rw [hopened]
    exact run_second ha hb rfl (hin b (beq_eq_false_iff_ne.mpr ht)) hdepth
      (by change 0 + _ ≤ _; omega) hcount'

/-- A branch with a conditional of its own against one that fails. -/
theorem conditional_selects_nested_branch :
    let a : Script := ⟨[0x51, 0x63, 0x52, 0x67, 0x53, 0x68]⟩
    let b : Script := ⟨[0x6a]⟩
    let ctx : Context := ⟨.ofList [.minimalIf], .none, 7⟩
    let m : Machine := { state := { alt := [[9]] } }
    outcome (eval ctx (.conditional true a b) (m.withMain [[1], [7]])) =
        outcome (eval ctx a (m.withMain [[7]])) ∧
      outcome (eval ctx a (m.withMain [[7]])) = ⟨none, [[2], [7]], [[9]], 0⟩ ∧
      outcome (eval ctx (.conditional false a b) (m.withMain [[1], [7]])) =
        outcome (eval ctx b (m.withMain [[7]])) ∧
      outcome (eval ctx b (m.withMain [[7]])) = ⟨some .aborted, [[7]], [[9]], 0⟩ := by
  intro a b ctx m
  have ha : a.IsSegment := by decide +kernel
  have hb : b.IsSegment := by decide +kernel
  have hselect (on : Bool) :=
    conditional_selects_branch ctx m on a b [1] [[7]] ha hb (by decide)
      (by rw [Script.conditional_length]; decide)
      (by rw [Script.conditional_counted ha hb]; decide +kernel) (fun _ => rfl)
  exact ⟨hselect true, by decide +kernel, hselect false, by decide +kernel⟩

end Machine

end CoinScript
