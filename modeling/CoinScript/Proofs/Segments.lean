import CoinScript.Proofs.ScriptVouched

namespace CoinScript

/-- Codes whose effect depends on the script that they stand in. -/
def Opcode.checksScript (op : Opcode) : Bool :=
  op == checkSig || op == checkSigVerify || op == checkMultisig || op == checkMultisigVerify

/-- An operation that passes, and does the same in every script. -/
structure Operation.IsPlain (op : Operation) : Prop extends op.Passes where
  detached : op.code.checksScript = false

namespace Operation

variable {op : Operation}

theorem IsPlain.not_checkingSig (h : op.IsPlain) (verify : Bool) :
    op.code ≠ Opcode.checkingSig verify := by
  intro hc
  have hd := h.detached
  rw [hc] at hd
  cases verify <;> cases hd

theorem IsPlain.not_checkingMultisig (h : op.IsPlain) (verify : Bool) :
    op.code ≠ Opcode.checkingMultisig verify := by
  intro hc
  have hd := h.detached
  rw [hc] at hd
  cases verify <;> cases hd

/-- A conditional is turned or closed only where one is open. -/
theorem exists_open {branches : List Bool} {depth : Nat} (hn : nest branches.length op = some depth)
    (ht : op.code.turnsBranch = true ∨ op.code.closesBranch = true) :
    ∃ b bs, branches = b :: bs := by
  refine List.exists_cons_of_ne_nil fun hb => ?_
  have hpos := (nest_eq_some.mp hn).1 ht
  rw [hb] at hpos
  cases hpos

end Operation

/-- A plain operation that succeeds counts no more than itself. -/
theorem Operation.IsPlain.perform_ok {ctx : Context} {op : Operation} {rest : Bytes}
    {st st' : State} {u : Unit} (hop : op.IsPlain)
    (h : Effect.perform ctx op rest st = .ok u st') :
    nest st.branches.length op = some st'.branches.length ∧
      st'.opCount = st.opCount + (if op.code.isCounted then 1 else 0) ∧
      st'.depth ≤ Fault.maxDepth := by
  obtain ⟨hnest, hcount, -⟩ := Effect.perform_counts h
  rw [Stage.keys_eq_zero fun _ verify => hop.not_checkingMultisig verify] at hcount
  exact ⟨hnest, hcount, (Effect.perform_ok.mp h).2.2.2⟩

namespace State

/-- A state put inside other conditionals, with the script, the hash types and the count of another. -/
def inside (outer : List Bool) (record st : State) : State :=
  { record with
    main := st.main
    alt := st.alt
    branches := st.branches ++ outer
    sigChecks := st.sigChecks }

/-- The second state has the stacks and the open conditionals of the first, these inside others. -/
structure Inside (outer : List Bool) (st st' : State) : Prop where
  main : st'.main = st.main
  alt : st'.alt = st.alt
  branches : st'.branches = st.branches ++ outer
  sigChecks : st'.sigChecks = st.sigChecks

variable {outer : List Bool} {st st' record : State}

theorem inside_inside : Inside outer st (inside outer record st) := ⟨rfl, rfl, rfl, rfl⟩

theorem Inside.exists_eq (h : Inside outer st st') : ∃ record, st' = inside outer record st := by
  refine ⟨st', ?_⟩
  rw [inside, ← h.main, ← h.alt, ← h.branches, ← h.sigChecks]

theorem Inside.counting (h : Inside outer st st') (op : Opcode) :
    Inside outer (st.counting op) (st'.counting op) := by
  rw [counting_eq, counting_eq]
  exact ⟨h.main, h.alt, h.branches, h.sigChecks⟩

theorem Inside.depth_eq (h : Inside outer st st') : st'.depth = st.depth := by
  rw [depth, depth, h.main, h.alt]

theorem Inside.isExecuting_eq (h : Inside outer st st') (hout : outer.all id = true) :
    st'.isExecuting = st.isExecuting := by
  rw [isExecuting, isExecuting, h.branches, List.all_append, hout, Bool.and_true]

theorem framing_inside (outer : List Bool) (record : State) : Framing (inside outer record) where
  main _ := rfl
  alt _ := rfl
  update _ _ _ := rfl

end State

namespace Effect

open State (Inside inside)

variable {ctx : Context} {op : Operation} {rest rest' : Bytes} {executing : Bool} {outer : List Bool}
  {st st' record : State} {depth : Nat}

/-- The same outcome, inside other conditionals. -/
inductive Agree (outer : List Bool) :
    EStateM.Result Fault State Unit → EStateM.Result Fault State Unit → Prop
  | ok {t t' : State} (h : Inside outer t t') : Agree outer (.ok () t) (.ok () t')
  | error {fault : Fault} {t t' : State} (h : Inside outer t t') :
      Agree outer (.error fault t) (.error fault t')

theorem agree_inState (r : EStateM.Result Fault State Unit) :
    Agree outer r (inState (inside outer record) r) := by
  cases r with
  | ok u t => exact .ok State.inside_inside
  | error fault t => exact .error State.inside_inside

theorem checkDepth_agree (h : Inside outer st st') : Agree outer (checkDepth st) (checkDepth st') := by
  unfold checkDepth
  rw [h.depth_eq]
  split
  · exact .ok h
  · exact .error h

theorem Agree.then_checkDepth {e e' : Effect Unit} (h : Agree outer (e st) (e' st')) :
    Agree outer ((e >>= fun _ => checkDepth) st) ((e' >>= fun _ => checkDepth) st') := by
  generalize hr : e st = r at h
  generalize hr' : e' st' = r' at h
  cases h with
  | ok h =>
    rw [bind_of_ok hr, bind_of_ok hr']
    exact checkDepth_agree h
  | error h =>
    rw [bind_of_error hr, bind_of_error hr']
    exact .error h

/-- Only a separator looks at what follows it. -/
theorem act_rest (h : op.code ≠ Opcode.codeSeparator) :
    act ctx op rest executing = act ctx op rest' executing := by
  have htable : ∀ entry ∈ Instruction.table, entry.2 = .codeSeparator →
      entry.1 = Opcode.codeSeparator := by decide
  have hi : Instruction.ofOpcode op.code ≠ .codeSeparator := by
    intro hi
    exact h (htable _ (Instruction.mem_table_of_not_actsOnStacks (by rw [hi]; rfl)) hi)
  unfold act
  cases hc : Instruction.ofOpcode op.code with
  | codeSeparator => exact absurd hc hi
  | _ => rfl

theorem act_separator (ctx : Context) (rest : Bytes) (executing : Bool)
    (hc : op.code = Opcode.codeSeparator) (st : State) :
    ∃ code, act ctx op rest executing st = .ok () { st with code } := by
  have hi : Instruction.ofOpcode op.code = .codeSeparator := by
    rw [hc]
    rfl
  cases executing with
  | true =>
    rw [act_of_instruction hi rfl rfl]
    exact ⟨rest, rfl⟩
  | false =>
    rw [act_skipped (by rw [hc]; rfl)]
    exact ⟨st.code, rfl⟩

/-- Conditionals of a part never reach those around it. -/
theorem act_inside (hop : op.IsPlain) (hs : op.code ≠ Opcode.codeSeparator)
    (hn : Operation.nest st.branches.length op = some depth) :
    act ctx op rest executing (inside outer record st) =
      inState (inside outer record) (act ctx op rest executing st) := by
  have hopen := Operation.exists_open hn
  have ha : Action ctx op rest executing (act ctx op rest executing) := act_action
  generalize act ctx op rest executing = e at ha
  cases ha with
  | onStacks framed => exact framed _ (State.framing_inside outer record) st
  | opening on hc =>
    exact Control.branch_framed (State.framing_inside outer record) (fun _ _ => rfl) on executing st
  | turning hc =>
    -- the conditional that is turned is one of the part, so nothing around it is reached
    obtain ⟨b, bs, hb⟩ := hopen (.inl (by rw [hc]; rfl))
    simp [Control.otherwise, inside, hb, inState]
  | closing hc =>
    obtain ⟨b, bs, hb⟩ := hopen (.inr (by rw [hc]; rfl))
    simp [Control.endBranch, inside, hb, inState]
  | separating hx hc => exact absurd hc hs
  | checkSig hx verify hc => exact absurd hc (hop.not_checkingSig verify)
  | checkMultisig hx verify hc => exact absurd hc (hop.not_checkingMultisig verify)
  | checkDataSig hx verify hc =>
    exact Signing.checkDataSig_framed (State.framing_inside outer record) (fun _ _ => rfl) verify st

theorem act_agree (hop : op.IsPlain) (h : Inside outer st st')
    (hn : Operation.nest st.branches.length op = some depth) :
    Agree outer (act ctx op rest executing st) (act ctx op rest' executing st') := by
  by_cases hs : op.code = Opcode.codeSeparator
  -- a separator leaves different code in the two scripts, which no plain operation looks at
  · obtain ⟨code, ht⟩ := act_separator ctx rest executing hs st
    obtain ⟨code', ht'⟩ := act_separator ctx rest' executing hs st'
    rw [ht, ht']
    exact .ok ⟨h.main, h.alt, h.branches, h.sigChecks⟩
  · obtain ⟨record, rfl⟩ := h.exists_eq
    rw [act_rest hs, act_inside hop hs hn]
    exact agree_inState _

theorem perform_entered (hb : op.code.isCounted = true → st.opCount + 1 ≤ ctx.budget)
    (hd : op.code.isDisabled = false) :
    perform ctx op rest st =
      (act ctx op rest st.isExecuting >>= fun _ => checkDepth) (st.counting op.code) := by
  have hentered : enter ctx op.code st = .ok () (st.counting op.code) := enter_ok.mpr ⟨hb, hd, rfl⟩
  rw [perform_eq]
  exact bind_of_ok hentered

/-- Where all conditionals around are taken, an operation of a part does what it does alone. -/
theorem perform_agree (hop : op.IsPlain) (hout : outer.all id = true) (h : Inside outer st st')
    (hn : Operation.nest st.branches.length op = some depth)
    (hb : op.code.isCounted = true → st.opCount + 1 ≤ ctx.budget)
    (hb' : op.code.isCounted = true → st'.opCount + 1 ≤ ctx.budget) :
    Agree outer (perform ctx op rest st) (perform ctx op rest' st') := by
  rw [perform_entered hb hop.enabled, perform_entered hb' hop.enabled, h.isExecuting_eq hout]
  apply Agree.then_checkDepth
  apply act_agree hop (h.counting op.code)
  rw [State.counting_branches]
  exact hn

/-- In a branch that is not taken an operation only keeps track of the conditionals. -/
theorem act_idle {inner : List Bool} (ctx : Context) (rest : Bytes) (hop : op.Passes)
    (hst : st.branches = inner ++ outer) (hn : Operation.nest inner.length op = some depth) :
    ∃ inner', inner'.length = depth ∧
      act ctx op rest false st = .ok () { st with branches := inner' ++ outer } := by
  have hopening (on : Bool) (hc : op.code = Opcode.opening on) :
      ∃ inner', inner'.length = depth ∧
        act ctx op rest false st = .ok () { st with branches := inner' ++ outer } := by
    rw [Operation.nest_opening hc] at hn
    refine ⟨false :: inner, Option.some.inj hn, ?_⟩
    rw [act_opening hc, List.cons_append, ← hst]
    rfl
  have hopen := Operation.exists_open hn
  cases hcond : op.code.isConditional with
  | false =>
    rw [Operation.nest_of_plain fun h => absurd h (by rw [hcond]; decide)] at hn
    refine ⟨inner, Option.some.inj hn, ?_⟩
    rw [act_skipped hcond, ← hst]
    rfl
  | true =>
    rcases Opcode.eq_of_isConditional hcond with hc | hc | hc | hc | hc
    · exact hopening true hc
    · exact hopening false hc
    · rw [Opcode.isVersionBranch, Bool.or_eq_true, beq_iff_eq, beq_iff_eq] at hc
      exact absurd hc (not_or.mpr hop.known)
    · obtain ⟨b, bs, rfl⟩ := hopen (.inl (by rw [hc]; rfl))
      rw [List.length_cons, Operation.nest_otherwise hc] at hn
      refine ⟨(!b) :: bs, Option.some.inj hn, ?_⟩
      rw [act_otherwise hc, Control.otherwise, hst]
      rfl
    · obtain ⟨b, bs, rfl⟩ := hopen (.inr (by rw [hc]; rfl))
      rw [List.length_cons, Operation.nest_branchEnd hc] at hn
      refine ⟨bs, Option.some.inj hn, ?_⟩
      rw [act_branchEnd hc, Control.endBranch, hst]
      rfl

theorem perform_idle {inner : List Bool} (rest : Bytes) (hop : op.Passes)
    (hout : outer.all id = false) (hst : st.branches = inner ++ outer)
    (hn : Operation.nest inner.length op = some depth)
    (hb : op.code.isCounted = true → st.opCount + 1 ≤ ctx.budget)
    (hd : st.depth ≤ Fault.maxDepth) :
    ∃ inner', inner'.length = depth ∧ perform ctx op rest st = .ok () { st with
      branches := inner' ++ outer
      opCount := st.opCount + if op.code.isCounted then 1 else 0 } := by
  have hx : st.isExecuting = false := by
    rw [State.isExecuting, hst, List.all_append, hout, Bool.and_false]
  have hst' : (st.counting op.code).branches = inner ++ outer := by
    rw [State.counting_branches, hst]
  obtain ⟨inner', hlength, hact⟩ := act_idle ctx rest hop hst' hn
  refine ⟨inner', hlength, perform_ok.mpr ⟨hb, hop.enabled, ?_, hd⟩⟩
  rw [hx, hact, State.counting_eq]

end Effect

namespace Machine

open State (Inside)

variable {ctx : Context} {script script' : Script} {bs rest : Bytes} {ops : List Operation}
  {outer : List Bool} {depth : Nat}

/-- A part of a script in a branch that is not taken: its operations are counted, and that is all. By
induction on the operations, `inner` being the conditionals opened since the part began. -/
theorem run_idle {st : State} {inner : List Bool} (more : Bytes) (h : Operation.Reads bs ops rest)
    (hops : ∀ op ∈ ops, op.Passes) (hout : outer.all id = false)
    (hst : st.branches = inner ++ outer) (hn : Operation.nesting inner.length ops = some depth)
    (hb : st.opCount + Operation.counted ops ≤ ctx.budget) (hd : st.depth ≤ Fault.maxDepth) :
    ∃ inner', inner'.length = depth ∧ run ctx ⟨st, script, bs ++ more⟩ =
      run ctx ⟨{ st with
          branches := inner' ++ outer
          opCount := st.opCount + Operation.counted ops }, script, rest ++ more⟩ := by
  induction h generalizing st inner with
  | done bs =>
    refine ⟨inner, Option.some.inj hn, ?_⟩
    rw [← hst]
    rfl
  | @next bs mid rest op ops hr _ ih =>
    obtain ⟨hop, hops⟩ := List.forall_mem_cons.mp hops
    rw [Operation.nesting_cons] at hn
    obtain ⟨d, hnest, hn⟩ := Option.bind_eq_some_iff.mp hn
    rw [Operation.counted_cons, Nat.add_comm (Operation.counted ops), ← Nat.add_assoc] at hb ⊢
    have hcount : op.code.isCounted = true → st.opCount + 1 ≤ ctx.budget := by
      intro hc
      rw [if_pos hc] at hb
      omega
    obtain ⟨inner₁, rfl, hp⟩ :=
      Effect.perform_idle (mid ++ more) hop hout hst hnest hcount hd
    rw [run_of_perform_ok (Operation.read?_append more hr) hop.short hp]
    exact ih hops rfl hn hb hd

/-- A part of a script where all conditionals around are taken, against the part on its own: both
fail in the same way, or both go on with what comes after it. By induction on the operations. -/
theorem run_inside {st st' : State} (more : Bytes) (h : Operation.Reads bs ops rest)
    (hops : ∀ op ∈ ops, op.IsPlain) (hout : outer.all id = true) (hin : Inside outer st st')
    (hn : Operation.nesting st.branches.length ops = some depth)
    (hb : st.opCount + Operation.counted ops ≤ ctx.budget)
    (hb' : st'.opCount + Operation.counted ops ≤ ctx.budget) (hd : st.depth ≤ Fault.maxDepth) :
    (∃ fault m m', run ctx ⟨st, script, bs⟩ = .error fault m ∧
        run ctx ⟨st', script', bs ++ more⟩ = .error fault m' ∧ Inside outer m.state m'.state) ∨
      ∃ t t', run ctx ⟨st, script, bs⟩ = run ctx ⟨t, script, rest⟩ ∧
        run ctx ⟨st', script', bs ++ more⟩ = run ctx ⟨t', script', rest ++ more⟩ ∧
        Inside outer t t' ∧ t.branches.length = depth ∧
        t'.opCount = st'.opCount + Operation.counted ops ∧ t.depth ≤ Fault.maxDepth := by
  induction h generalizing st st' with
  | done bs => exact .inr ⟨st, st', rfl, rfl, hin, Option.some.inj hn, rfl, hd⟩
  | @next bs mid rest op ops hr _ ih =>
    obtain ⟨hop, hops⟩ := List.forall_mem_cons.mp hops
    rw [Operation.nesting_cons] at hn
    obtain ⟨d, hnest, hn⟩ := Option.bind_eq_some_iff.mp hn
    rw [Operation.counted_cons, Nat.add_comm (Operation.counted ops), ← Nat.add_assoc] at hb hb' ⊢
    have hcount {n : Nat} (hn : n + (if op.code.isCounted then 1 else 0) + Operation.counted ops ≤
        ctx.budget) (hc : op.code.isCounted = true) : n + 1 ≤ ctx.budget := by
      rw [if_pos hc] at hn
      omega
    have hread := Operation.read?_append more hr
    have hagree : Effect.Agree outer (Effect.perform ctx op mid st)
        (Effect.perform ctx op (mid ++ more) st') :=
      Effect.perform_agree hop hout hin hnest (hcount hb) (hcount hb')
    generalize hp : Effect.perform ctx op mid st = r at hagree
    generalize hp' : Effect.perform ctx op (mid ++ more) st' = r' at hagree
    cases hagree with
    | error hin =>
      exact .inl ⟨_, _, _, run_of_perform_error hr hop.short hp,
        run_of_perform_error hread hop.short hp', hin⟩
    | @ok t t' hin =>
      rw [run_of_perform_ok hr hop.short hp, run_of_perform_ok hread hop.short hp']
      obtain ⟨hnest', hopCount, hd⟩ := hop.perform_ok hp
      obtain ⟨-, hopCount', -⟩ := hop.perform_ok hp'
      rw [hnest] at hnest'
      cases hnest'
      rw [← hopCount] at hb
      rw [← hopCount'] at hb' ⊢
      exact ih hops hin hn hb hb' hd

end Machine

end CoinScript
