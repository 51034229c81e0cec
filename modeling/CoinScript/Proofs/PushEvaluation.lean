import CoinScript.Proofs.PushedNumbers
import CoinScript.Proofs.Steps

namespace CoinScript

namespace Effect

variable {ctx : Context} {op : Operation} {rest : Bytes} {st : State}

theorem demand_of_true {condition : Bool} {fault : Fault} (h : condition = true) :
    demand condition fault st = .ok () st := if_pos h

/-- What an operation that only pushes does, wherever it runs. -/
def pushItem (minimal : Bool) (op : Operation) : Effect Unit := do
  demand (op.code != Opcode.reserved) (.invalidOpcode Opcode.reserved)
  demand (!(minimal && op.isPush) || op.isMinimalPush) (.pushNotMinimal op.data.length)
  onMain (Stack.push op.item)
  checkDepth

/-- Such an operation is not counted and never disabled. -/
theorem perform_uncounted (hc : op.code ≤ Opcode.sixteen) :
    perform ctx op rest st = (act ctx op rest st.isExecuting >>= fun _ => checkDepth) st := by
  have henter : enter ctx op.code st = .ok () st := by
    rw [enter_ok, State.counting, Opcode.uncounted_of_le hc]
    exact ⟨fun h => absurd h Bool.false_ne_true, Opcode.enabled_of_le hc, rfl⟩
  have hget : (get : Effect State) st = .ok st st := rfl
  rw [perform_eq, bind_of_ok hget, bind_of_ok henter]

theorem perform_eq_pushItem (hc : op.code ≤ Opcode.sixteen) (hx : st.isExecuting = true) :
    perform ctx op rest st = pushItem ctx.minimal op st := by
  rw [perform_uncounted hc, hx, pushItem]
  cases hp : op.isPush with
  | true =>
    have hdefined : (op.code != Opcode.reserved) = true := by
      refine bne_iff_ne.mpr fun h => ?_
      rw [Operation.isPush, h] at hp
      exact absurd hp (by decide)
    have hact : act ctx op rest true = pushData ctx op := by
      rw [act, hp]
      rfl
    rw [bind_of_ok (demand_of_true hdefined), hact, pushData, Operation.item_of_push hp, Bool.and_true,
      bind_assoc]
  | false =>
    have hgt : Opcode.pushData4 < op.code := by simpa [Operation.isPush] using hp
    have hact : act ctx op rest true = op.code.run ctx rest := by
      rw [act, hp]
      rfl
    have hminimal : (!(ctx.minimal && false) || op.isMinimalPush) = true := by simp
    rw [hact, Opcode.run]
    rcases Opcode.reserved_or_number hgt hc with hr | hn
    · rw [hr]
      rfl
    · have hnumber : Instruction.ofOpcode op.code = .number (Opcode.smallNumber op.code) := if_pos hn
      have hdefined : (op.code != Opcode.reserved) = true := by
        refine bne_iff_ne.mpr fun h => ?_
        rw [h] at hn
        exact absurd hn (by decide)
      rw [hnumber, bind_of_ok (demand_of_true hdefined), bind_of_ok (demand_of_true hminimal),
        Operation.item_of_code hp]
      rfl

end Effect

/-- The ways in which evaluating pushes can fail. -/
inductive PushFault (minimal : Bool) (script : Script) : Fault → Prop
  | scriptSize (h : Script.maxLength < script.length) : PushFault minimal script (.scriptSize script.length)
  | pushSize {op : Operation} (h : op ∈ script.operations) (hl : Fault.maxItem < op.data.length) :
      PushFault minimal script (.pushSize op.data.length)
  | stackSize {depth : Nat} (h : Fault.maxDepth < depth) : PushFault minimal script (.stackSize depth)
  | notMinimal {op : Operation} (h : op ∈ script.operations) (hm : minimal = true)
      (hn : op.isMinimalPush = false) : PushFault minimal script (.pushNotMinimal op.data.length)
  | reserved {op : Operation} (h : op ∈ script.operations) (hc : op.code = Opcode.reserved) :
      PushFault minimal script (.invalidOpcode Opcode.reserved)

/-- The items of some of the first operations are on the stack, and nothing else has changed. -/
def Pushed (ops : List Operation) (st st' : State) : Prop :=
  ∃ pushed, pushed <+: ops ∧ { st with main := (pushed.map Operation.item).reverse ++ st.main } = st'

namespace Pushed

variable {op : Operation} {ops ops' : List Operation} {st st' : State}

theorem none (ops : List Operation) (st : State) : Pushed ops st st := ⟨[], List.nil_prefix, rfl⟩

theorem mono (h : Pushed ops st st') (hp : ops <+: ops') : Pushed ops' st st' := by
  obtain ⟨pushed, hprefix, hst⟩ := h
  exact ⟨pushed, hprefix.trans hp, hst⟩

theorem cons (h : Pushed ops { st with main := op.item :: st.main } st') : Pushed (op :: ops) st st' := by
  obtain ⟨pushed, hprefix, rfl⟩ := h
  refine ⟨op :: pushed, List.cons_prefix_cons.mpr ⟨rfl, hprefix⟩, ?_⟩
  rw [List.map_cons, List.reverse_cons, List.append_assoc, List.singleton_append]

end Pushed

namespace Effect

variable {minimal : Bool} {op : Operation} {st st' : State} {fault : Fault} {u : Unit}

theorem pushItem_ok (h : pushItem minimal op st = .ok u st') : { st with main := op.item :: st.main } = st' := by
  obtain ⟨_, _, hd, h⟩ := bind_ok.mp h
  obtain ⟨-, rfl⟩ := demand_ok.mp hd
  obtain ⟨_, _, hd, h⟩ := bind_ok.mp h
  obtain ⟨-, rfl⟩ := demand_ok.mp hd
  obtain ⟨_, _, hp, h⟩ := bind_ok.mp h
  obtain ⟨_, hs, rfl⟩ := onMain_ok.mp hp
  obtain rfl := Stack.push_ok.mp hs
  exact (checkDepth_ok.mp h).2

/-- Only where the stacks have grown too deep has the item been pushed. -/
theorem pushItem_error {script : Script} (hop : op ∈ script.operations)
    (h : pushItem minimal op st = .error fault st') :
    PushFault minimal script fault ∧ Pushed [op] st st' := by
  rcases bind_error.mp h with hd | ⟨_, _, hd, h⟩
  · obtain ⟨hr, rfl, rfl⟩ := demand_error.mp hd
    exact ⟨.reserved hop (by simpa using hr), .none _ _⟩
  · obtain ⟨-, rfl⟩ := demand_ok.mp hd
    rcases bind_error.mp h with hd | ⟨_, _, hd, h⟩
    · obtain ⟨hn, rfl, rfl⟩ := demand_error.mp hd
      rw [Bool.or_eq_false_iff, Bool.not_eq_false', Bool.and_eq_true] at hn
      exact ⟨.notMinimal hop hn.1.1 hn.2, .none _ _⟩
    · obtain ⟨-, rfl⟩ := demand_ok.mp hd
      rcases bind_error.mp h with hp | ⟨_, _, hp, h⟩
      · cases hp
      · obtain ⟨_, hs, rfl⟩ := onMain_ok.mp hp
        obtain rfl := Stack.push_ok.mp hs
        unfold checkDepth at h
        split at h
        · cases h
        · next hdepth =>
          cases h
          exact ⟨.stackSize (Nat.lt_of_not_le hdepth), .cons (.none _ _)⟩

end Effect

/-- A context with another checker and another budget. -/
def Context.with (ctx : Context) (checker : Checker) (budget : Nat) : Context :=
  { ctx with checker, budget }

namespace Machine

variable {ctx : Context} {script : Script}

/-- What a run of operations that only push comes to. By induction on what is left to read: each of
them pushes its item, or ends the run. -/
theorem run_pushes {st : State} {bs : Bytes} (hx : st.isExecuting = true) (hw : (Script.parse bs).2 = [])
    (hc : ∀ op ∈ (Script.parse bs).1, op ∈ script.operations ∧ op.code ≤ Opcode.sixteen) :
    (∀ checker budget, run (ctx.with checker budget) ⟨st, script, bs⟩ = run ctx ⟨st, script, bs⟩) ∧
      Pushed (Script.parse bs).1 st (finalState (run ctx ⟨st, script, bs⟩)).state ∧
      ∀ fault m, run ctx ⟨st, script, bs⟩ = .error fault m → PushFault ctx.minimal script fault := by
  cases hread : Operation.read? bs with
  | none =>
    rw [Script.parse_of_none hread] at hw
    subst hw
    have hrun (ctx : Context) : run ctx ⟨st, script, []⟩ = .ok () ⟨st, script, []⟩ := run_done rfl
    simp only [hrun]
    exact ⟨fun _ _ => trivial, .none _ _, nofun⟩
  | some found =>
    obtain ⟨op, rest⟩ := found
    have hlt := Operation.read?_length hread
    rw [Script.parse_of_some hread] at hw hc ⊢
    dsimp only at hw hc ⊢
    obtain ⟨⟨hop, hsmall⟩, hc⟩ := List.forall_mem_cons.mp hc
    by_cases hl : op.data.length ≤ Fault.maxItem
    · have hperform (checker : Checker) (budget : Nat) :
          Effect.perform (ctx.with checker budget) op rest st = Effect.pushItem ctx.minimal op st :=
        Effect.perform_eq_pushItem hsmall hx
      have hown : Effect.perform ctx op rest st = Effect.pushItem ctx.minimal op st :=
        Effect.perform_eq_pushItem hsmall hx
      cases hp : Effect.pushItem ctx.minimal op st with
      | ok u st' =>
        have hst := Effect.pushItem_ok hp
        subst hst
        have hx' : State.isExecuting { st with main := op.item :: st.main } = true := hx
        obtain ⟨hsame, hpushed, hfault⟩ := run_pushes hx' hw hc
        rw [run_of_perform_ok hread hl (hown.trans hp)]
        refine ⟨fun checker budget => ?_, hpushed.cons, hfault⟩
        rw [run_of_perform_ok hread hl ((hperform checker budget).trans hp)]
        exact hsame checker budget
      | error fault st' =>
        obtain ⟨hfault, hpushed⟩ := Effect.pushItem_error hop hp
        rw [run_of_perform_error hread hl (hown.trans hp)]
        refine ⟨fun checker budget => ?_, hpushed.mono (List.cons_prefix_cons.mpr ⟨rfl, List.nil_prefix⟩), ?_⟩
        · exact run_of_perform_error hread hl ((hperform checker budget).trans hp)
        · intro fault' m h
          cases h
          exact hfault
    · have hrun (ctx : Context) :
          run ctx ⟨st, script, bs⟩ = .error (.pushSize op.data.length) ⟨st, script, bs⟩ :=
        run_of_push_size hread hl
      simp only [hrun]
      refine ⟨fun _ _ => trivial, .none _ _, fun fault m h => ?_⟩
      cases h
      exact .pushSize hop (Nat.lt_of_not_le hl)
termination_by bs.length

theorem eval_of_same_run {ctx' : Context} {m : Machine}
    (h : run ctx' (m.started script) = run ctx (m.started script)) : eval ctx' script m = eval ctx script m := by
  by_cases hl : script.length ≤ Script.maxLength
  · rw [eval_of_length hl, eval_of_length hl]
    change EStateM.bind (run ctx') _ _ = EStateM.bind (run ctx) _ _
    unfold EStateM.bind
    rw [h]
  · rw [eval_of_too_long hl, eval_of_too_long hl]

theorem eval_pushes (ctx : Context) (hp : script.isPushOnly = true) (m : Machine) :
    (∀ checker budget, eval (ctx.with checker budget) script m = eval ctx script m) ∧
      (finalState (eval ctx script m)).state.opCount = 0 ∧
      (∃ pushed, pushed <+: script.operations ∧
        (finalState (eval ctx script m)).state.main =
          (pushed.map Operation.item).reverse ++ m.state.main) ∧
      ∀ fault m', eval ctx script m = .error fault m' → PushFault ctx.minimal script fault := by
  have hwhole : (Script.parse script.bytes).2 = [] :=
    List.isEmpty_iff.mp (Bool.and_eq_true _ _ ▸ hp).1
  have hrun : (∀ checker budget, run (ctx.with checker budget) (m.started script) = run ctx (m.started script)) ∧
      Pushed script.operations (m.started script).state (finalState (run ctx (m.started script))).state ∧
      ∀ fault m', run ctx (m.started script) = .error fault m' → PushFault ctx.minimal script fault :=
    run_pushes rfl hwhole fun op hop => ⟨hop, Script.operations_le_sixteen hp op hop⟩
  obtain ⟨hsame, ⟨pushed, hprefix, hstate⟩, hfault⟩ := hrun
  refine ⟨fun checker budget => eval_of_same_run (hsame checker budget), ?_⟩
  by_cases hl : script.length ≤ Script.maxLength
  · rw [eval_final hl, ← hstate]
    refine ⟨rfl, ⟨pushed, hprefix, rfl⟩, fun fault m' h => ?_⟩
    rw [eval_of_length hl] at h
    rcases Effect.bind_error.mp h with hr | ⟨_, t, hr, hf⟩
    · exact hfault fault m' hr
    · rw [finalState_of_ok hr] at hstate
      have hclosed : t.state.branches.isEmpty = true := by
        rw [← hstate]
        rfl
      rw [finish, if_pos hclosed] at hf
      cases hf
  · rw [eval_of_too_long hl]
    refine ⟨rfl, ⟨[], List.nil_prefix, rfl⟩, fun fault m' h => ?_⟩
    cases h
    exact .scriptSize (Nat.lt_of_not_le hl)

end Machine

/-- One thing to append: data as it is, or the number of a word. -/
inductive Piece
  | data (d : Bytes)
  | number (n : Number.Word)

namespace Piece

/-- What a piece puts on the stack. -/
def item : Piece → Bytes
  | data d => d
  | number n => Number.encode n.toInt

def appendTo (s : Script) : Piece → Except ScriptFault Script
  | data d => s.push d
  | number n => .ok (s.pushNumber n.toInt)

/-- The script of pieces appended one after the other. -/
def build (pieces : List Piece) : Except ScriptFault Script := pieces.foldlM appendTo .empty

/-- The operation that a piece becomes. -/
def operation : Piece → Operation
  | data d => .pushing d
  | number n => .ofInt n.toInt

/-- The data is no longer than an item may be. -/
def Fits (p : Piece) : Prop := ∀ d, p = data d → d.length ≤ Fault.maxItem

variable {p : Piece} {pieces : List Piece}

@[simp] theorem item_operation (p : Piece) : p.operation.item = p.item := by
  cases p with
  | data d => exact Operation.item_pushing d
  | number n => exact Operation.item_ofInt n.toInt

/-- Nine bytes are enough for the number of a word. -/
theorem length_encode_word (n : Number.Word) : (Number.encode n.toInt).length ≤ 9 := by
  have hlow := n.le_toInt
  have hhigh := n.toInt_lt
  rw [Number.length_encode_le_iff]
  omega

theorem length_item_le (h : p.Fits) : p.item.length ≤ Fault.maxItem := by
  cases p with
  | data d => exact h d rfl
  | number n => exact Nat.le_trans (length_encode_word n) (by decide)

theorem sized_operations (h : ∀ p ∈ pieces, p.Fits) : ∀ op ∈ pieces.map operation, op.Sized := by
  intro op hop
  obtain ⟨p, hp, rfl⟩ := List.mem_map.mp hop
  cases p with
  | data d => exact Operation.sized_pushing (Nat.le_trans (h _ hp d rfl) (by decide))
  | number n => exact Operation.sized_ofInt (Nat.le_trans (length_encode_word n) (by decide))

theorem small_operations (pieces : List Piece) : ∀ op ∈ pieces.map operation, op.code ≤ Opcode.sixteen := by
  intro op hop
  obtain ⟨p, -, rfl⟩ := List.mem_map.mp hop
  cases p with
  | data d => exact UInt8.le_trans (Operation.pushCode_le d.length) (by decide)
  | number n => exact Operation.code_ofInt_le n.toInt

theorem appendTo_eq (h : p.Fits) (s : Script) : p.appendTo s = .ok (s.append p.operation.bytes) := by
  cases p with
  | data d =>
    rw [appendTo, Script.push, Operation.pushBytes_eq (Nat.le_trans (h d rfl) (by decide))]
    rfl
  | number n =>
    rw [appendTo, Script.pushNumber,
      Operation.numberBytes_eq (Nat.le_trans (length_encode_word n) (by decide))]
    rfl

theorem foldlM_appendTo (h : ∀ p ∈ pieces, p.Fits) (s : Script) :
    pieces.foldlM appendTo s = .ok (s.append ((pieces.map operation).flatMap Operation.bytes)) := by
  induction pieces generalizing s with
  | nil => simp [Script.append, pure, Except.pure]
  | cons p pieces ih =>
    obtain ⟨hp, hpieces⟩ := List.forall_mem_cons.mp h
    rw [List.foldlM_cons, appendTo_eq hp]
    change pieces.foldlM appendTo (s.append p.operation.bytes) = _
    rw [ih hpieces]
    simp [Script.append]

/-- Appending pieces writes their operations. -/
theorem build_eq (h : ∀ p ∈ pieces, p.Fits) : build pieces = .ok (.ofOperations (pieces.map operation)) :=
  foldlM_appendTo h .empty

/-- Pieces are pushed unless they have to be pushed in a shorter way. -/
theorem evalScript_pieces {ctx : Context} {below : Stack} (h : ∀ p ∈ pieces, p.Fits)
    (hl : (Script.ofOperations (pieces.map operation)).length ≤ Script.maxLength)
    (hroom : below.length + pieces.length ≤ Fault.maxDepth) :
    evalScript ctx (.ofOperations (pieces.map operation)) below =
        .ok () ((pieces.map item).reverse ++ below) ↔
      (ctx.minimal = true → ∀ d, data d ∈ pieces → Operation.isCoded d = false) := by
  have hsized := sized_operations h
  constructor
  · intro heval hminimal d hd
    obtain ⟨-, m, hrun, -⟩ := evalScript_ok.mp heval
    have hparse := Script.parse_ofOperations hsized
    obtain ⟨hruns, -⟩ := Machine.run_pushOnly rfl (by rw [hparse])
      (by rw [hparse]; exact small_operations pieces) hrun
    rw [hparse] at hruns
    have hshortest := (hruns _ (List.mem_map_of_mem hd)).shortest hminimal (Operation.isPush_pushing d)
    rw [← Bool.not_eq_true]
    intro hcoded
    rw [operation, Operation.not_isMinimalPush_pushing hcoded] at hshortest
    cases hshortest
  · intro hcoded
    have hruns : ∀ op ∈ pieces.map operation, op.Runs ctx.minimal := by
      intro op hop
      obtain ⟨p, hp, rfl⟩ := List.mem_map.mp hop
      cases p with
      | data d => exact Operation.runs_pushing (h _ hp d rfl) fun hm => hcoded hm d hp
      | number n => exact Operation.runs_ofInt (length_item_le (h _ hp))
    refine (evalScript_onto_ok hsized hruns).mpr ⟨hl, .inr (by rwa [List.length_map]), ?_⟩
    simp [Function.comp_def]

end Piece

theorem finalState_evalScript (ctx : Context) (script : Script) (below : Stack) :
    finalState (evalScript ctx script below) =
      (finalState (Machine.eval ctx script (.ofStack below))).state.main := by
  unfold evalScript
  cases Machine.eval ctx script (.ofStack below) <;> rfl

theorem evalScript_error {ctx : Context} {script : Script} {below t : Stack} {fault : Fault} :
    evalScript ctx script below = .error fault t ↔
      ∃ m, Machine.eval ctx script (.ofStack below) = .error fault m ∧ m.state.main = t := by
  unfold evalScript
  cases Machine.eval ctx script (.ofStack below) <;> simp

/-- A fault of pushes has one of five codes. -/
theorem PushFault.code_mem {minimal : Bool} {script : Script} {fault : Fault} (h : PushFault minimal script fault) :
    fault.code = .scriptSize ∨ fault.code = .pushSize ∨ fault.code = .stackSize ∨
      (fault.code = .minimalData ∧ minimal = true) ∨
      (fault.code = .badOpcode ∧ ∃ op ∈ script.operations, op.code = Opcode.reserved) := by
  cases h with
  | scriptSize _ => exact .inl rfl
  | pushSize _ _ => exact .inr (.inl rfl)
  | stackSize _ => exact .inr (.inr (.inl rfl))
  | notMinimal _ hm _ => exact .inr (.inr (.inr (.inl ⟨rfl, hm⟩)))
  | reserved hop hc => exact .inr (.inr (.inr (.inr ⟨rfl, _, hop, hc⟩)))

/-- A script that only pushes asks the checker nothing, counts no operation, leaves on top of what was
there the items of some of its first operations, and has five ways to fail. A script that is built of
pieces pushes what they are, unless they have to be pushed in a shorter way. -/
theorem pushes_evaluate (ctx : Context) (below : Stack) :
    (∀ script : Script, script.isPushOnly = true →
      (∀ checker budget, Machine.eval ⟨ctx.flags, checker, budget⟩ script (.ofStack below) =
        Machine.eval ctx script (.ofStack below)) ∧
      (finalState (Machine.eval ctx script (.ofStack below))).state.opCount = 0 ∧
      (∃ pushed, pushed <+: script.operations ∧
        finalState (evalScript ctx script below) = (pushed.map Operation.item).reverse ++ below) ∧
      ∀ fault t, evalScript ctx script below = .error fault t →
        fault.code = .scriptSize ∨ fault.code = .pushSize ∨ fault.code = .stackSize ∨
          (fault.code = .minimalData ∧ ctx.flags.has .minimalData = true) ∨
          (fault.code = .badOpcode ∧ ∃ op ∈ script.operations, op.code = Opcode.reserved)) ∧
    ∀ pieces : List Piece, (∀ d, .data d ∈ pieces → d.length ≤ 520) →
      ∃ script, Piece.build pieces = .ok script ∧ script.isPushOnly = true ∧
        (script.length ≤ 10000 → below.length + pieces.length ≤ 1000 →
          (evalScript ctx script below = .ok () ((pieces.map Piece.item).reverse ++ below) ↔
            (ctx.flags.has .minimalData = true →
              ∀ b, .data [b] ∈ pieces → ¬ ((1 ≤ b ∧ b ≤ 16) ∨ b = 0x81)))) := by
  constructor
  · intro script hp
    obtain ⟨hsame, hcount, ⟨pushed, hprefix, hmain⟩, hfault⟩ := Machine.eval_pushes ctx hp (.ofStack below)
    refine ⟨hsame, hcount, ⟨pushed, hprefix, ?_⟩, fun fault t h => ?_⟩
    · rw [finalState_evalScript]
      exact hmain
    · obtain ⟨m, hm, -⟩ := evalScript_error.mp h
      exact (hfault fault m hm).code_mem
  · intro pieces hfit
    have hfits : ∀ p ∈ pieces, p.Fits := fun p hp d hd => hfit d (hd ▸ hp)
    have hpushes := Script.isPushOnly_ofOperations (Piece.sized_operations hfits) (Piece.small_operations pieces)
    refine ⟨_, Piece.build_eq hfits, hpushes, fun hl hroom => ?_⟩
    rw [Piece.evalScript_pieces hfits hl hroom]
    refine imp_congr Iff.rfl ⟨fun h b hb hcoded => ?_, fun h d hd => ?_⟩
    · have hd := h [b] hb
      rw [Operation.isCoded_iff.mpr ⟨b, rfl, hcoded⟩] at hd
      cases hd
    · rw [← Bool.not_eq_true]
      intro hcoded
      obtain ⟨b, rfl, hb⟩ := Operation.isCoded_iff.mp hcoded
      exact h b hd hb

end CoinScript
