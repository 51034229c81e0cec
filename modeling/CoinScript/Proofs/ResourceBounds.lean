import CoinScript.Proofs.ItemGrowth
import CoinScript.Proofs.ScriptVouched

namespace CoinScript

/-- The stacks hold at most `n` items, none of them too long. -/
structure State.Within (n : Nat) (st : State) : Prop where
  depth : st.depth ≤ n
  main : Stack.Fits st.main
  alt : Stack.Fits st.alt

theorem State.Within.mono {st : State} {n k : Nat} (h : st.Within n) (hk : n ≤ k) : st.Within k :=
  ⟨Nat.le_trans h.depth hk, h.main, h.alt⟩

namespace Effect

/-- Whatever the effect comes to, items stay within their limit, and at most `k` are added. -/
def Grows {α : Type} (k : Nat) (e : Effect α) : Prop :=
  ∀ n st, st.Within n → n + k < Stack.tall → (finalState (e st)).Within (n + k)

variable {α β : Type} {ctx : Context} {e : Effect α} {next : α → Effect β} {j k n : Nat}

theorem Grows.mono (h : Grows j e) (hjk : j ≤ k) : Grows k e := by
  intro n st hst htall
  exact (h n st hst (by omega)).mono (by omega)

theorem Looks.grows (h : Looks e) : Grows 0 e := by
  intro n st hst _
  rw [h st]
  exact hst

/-- The changes add up. -/
theorem Grows.bind (he : Grows j e) (hn : ∀ a, Grows k (next a)) : Grows (j + k) (e >>= next) := by
  intro n st hst htall
  have hfirst := he n st hst (by omega)
  refine bind_final (P := State.Within (n + (j + k))) (hfirst.mono (by omega)) fun a t ht => ?_
  rw [finalState_of_ok ht] at hfirst
  rw [← Nat.add_assoc]
  exact hn a (n + j) t hfirst (by omega)

theorem Grows.after (he : Grows 0 e) (hn : ∀ a, Grows k (next a)) : Grows k (e >>= next) := by
  have h := he.bind hn
  rw [Nat.zero_add] at h
  exact h

theorem Grows.ite {c : Prop} [Decidable c] {e' : Effect α} (h : Grows k e) (h' : Grows k e') :
    Grows k (if c then e else e') := by
  split
  · exact h
  · exact h'

/-- The stacks stay what they are. -/
theorem grows_of_record
    (h : ∀ st, (finalState (e st)).main = st.main ∧ (finalState (e st)).alt = st.alt) : Grows 0 e := by
  intro n st hst _
  obtain ⟨hmain, halt⟩ := h st
  refine ⟨?_, ?_, ?_⟩
  · rw [State.depth, hmain, halt]
    exact hst.depth
  · rw [hmain]
    exact hst.main
  · rw [halt]
    exact hst.alt

theorem pure_grows (a : α) : Grows 0 (pure a) := fun _ _ hst _ => hst

theorem throw_grows (fault : Fault) : Grows 0 (throw fault : Effect α) := fun _ _ hst _ => hst

theorem get_grows : Grows 0 (get : Effect State) := fun _ _ hst _ => hst

theorem countSigChecks_grows : Grows 0 (countSigChecks n) := grows_of_record fun _ => ⟨rfl, rfl⟩

theorem modify_grows {f : State → State} (h : ∀ st, (f st).main = st.main ∧ (f st).alt = st.alt) :
    Grows 0 (modify f) :=
  grows_of_record h

theorem onMain_grows {step : StackStep α} (h : Stack.Grows k step) : Grows k (onMain step) := by
  intro n st hst htall
  have hdepth : st.main.length + st.alt.length ≤ n := hst.depth
  obtain ⟨hfits, hlength⟩ := h st.main hst.main (by omega)
  have hfinal : finalState (onMain step st) = { st with main := finalState (step st.main) } := by
    unfold onMain
    cases step st.main <;> rfl
  rw [hfinal]
  refine ⟨?_, hfits, hst.alt⟩
  change (finalState (step st.main)).length + st.alt.length ≤ n + k
  omega

theorem assertTop_grows (assertion : Assertion) : Grows 0 (assertTop assertion) := by
  refine onMain_grows fun s hs _ => ?_
  cases s with
  | nil => exact ⟨hs, Nat.le_refl _⟩
  | cons top s =>
    dsimp only
    split
    · exact ⟨(Stack.fits_cons.mp hs).2, Nat.le_succ _⟩
    · exact ⟨hs, Nat.le_refl _⟩

theorem pushData_grows {op : Operation} (h : op.data.length ≤ Fault.maxItem) :
    Grows 1 (pushData ctx op) :=
  (demand_looks _ _).grows.after fun _ => onMain_grows (Stack.push_grows h)

end Effect

namespace Control

open Effect

variable {ctx : Context}

theorem branch_grows (on executing : Bool) : Grows 0 (branch ctx on executing) := by
  intro n st hst _
  obtain ⟨main, branches, hsuffix, hf⟩ := branch_final ctx on executing st
  have hlength := hsuffix.length_le
  rw [hf]
  refine ⟨?_, hst.main.subset hsuffix.subset, hst.alt⟩
  exact Nat.le_trans (Nat.add_le_add_right hlength _) hst.depth

theorem otherwise_grows : Grows 0 otherwise := by
  refine grows_of_record fun st => ?_
  obtain ⟨branches, hf⟩ := otherwise_final st
  rw [hf]
  exact ⟨rfl, rfl⟩

theorem endBranch_grows : Grows 0 endBranch := by
  refine grows_of_record fun st => ?_
  obtain ⟨branches, hf⟩ := endBranch_final st
  rw [hf]
  exact ⟨rfl, rfl⟩

theorem toAlt_grows : Grows 0 toAlt := by
  intro n st hst _
  unfold toAlt
  split
  · exact hst
  · next top s hm =>
    have hdepth : st.main.length + st.alt.length ≤ n := hst.depth
    have hmain := hst.main
    rw [hm, Stack.fits_cons] at hmain
    rw [hm, List.length_cons] at hdepth
    refine ⟨?_, hmain.2, hst.alt.cons hmain.1⟩
    change s.length + (st.alt.length + 1) ≤ n
    omega

theorem fromAlt_grows : Grows 0 fromAlt := by
  intro n st hst _
  unfold fromAlt
  split
  · exact hst
  · next top s ha =>
    have hdepth : st.main.length + st.alt.length ≤ n := hst.depth
    have halt := hst.alt
    rw [ha, Stack.fits_cons] at halt
    rw [ha, List.length_cons] at hdepth
    refine ⟨?_, hst.main.cons halt.1, halt.2⟩
    change st.main.length + 1 + s.length ≤ n
    omega

theorem lockTimeOperand_grows : Grows 0 (lockTimeOperand ctx) :=
  require_looks.grows.after fun _ => get_grows.after fun _ => (orFail_looks _).grows.after fun n =>
    (demand_looks _ _).grows.after fun _ => pure_grows n

theorem checkLockTime_grows : Grows 0 (checkLockTime ctx) :=
  .ite (lockTimeOperand_grows.after fun _ => (demand_looks _ _).grows) (pure_grows ())

theorem checkSequence_grows : Grows 0 (checkSequence ctx) :=
  .ite (lockTimeOperand_grows.after fun _ => (demand_looks _ _).grows) (pure_grows ())

end Control

namespace Signing

open Effect

variable {ctx : Context}

theorem answer_grows (n : Nat) (verify : Bool) (assertion : Assertion) (success : Bool) :
    Grows 1 (answer n verify assertion success) :=
  (onMain_grows (Stack.drop_grows n)).after fun _ =>
    (onMain_grows (Stack.pushBool_grows success)).bind fun _ =>
      .ite (assertTop_grows _) (pure_grows ())

theorem checkSig_grows (verify : Bool) : Grows 1 (checkSig ctx verify) := by
  refine require_looks.grows.after fun _ => ?_
  refine peek_looks.grows.after fun key => ?_
  refine peek_looks.grows.after fun sig => ?_
  refine (modify_grows ?_).after fun _ => ?_
  · exact fun _ => ⟨rfl, rfl⟩
  refine countSigChecks_grows.after fun _ => ?_
  refine get_grows.after fun _ => ?_
  exact (orFail_looks _).grows.after fun _ => answer_grows _ _ _ _

theorem checkDataSig_grows (verify : Bool) : Grows 1 (checkDataSig ctx verify) := by
  refine require_looks.grows.after fun _ => ?_
  refine peek_looks.grows.after fun key => ?_
  refine peek_looks.grows.after fun message => ?_
  refine peek_looks.grows.after fun sig => ?_
  refine (orFail_looks _).grows.after fun _ => ?_
  refine (orFail_looks _).grows.after fun _ => ?_
  refine countSigChecks_grows.after fun _ => ?_
  exact (orFail_looks _).grows.after fun _ => answer_grows _ _ _ _

theorem checkMultisig_grows (verify : Bool) : Grows 1 (checkMultisig ctx verify) := by
  have hread : Grows 0 (readMultisig ctx) := by
    refine grows_of_record fun st => ?_
    obtain ⟨k, -, -, hf⟩ := readMultisig_final ctx st
    rw [hf]
    exact ⟨rfl, rfl⟩
  refine hread.after fun m => ?_
  refine countSigChecks_grows.after fun _ => ?_
  refine get_grows.after fun _ => ?_
  refine (orFail_looks _).grows.after fun success => ?_
  refine (onMain_grows (Stack.drop_grows _)).after fun _ => ?_
  exact .ite ((demand_looks _ _).grows.mono (Nat.zero_le _))
    (onMain_grows (Stack.pushBool_grows success))

end Signing

namespace Instruction

open Effect

/-- Numbers are of few bytes, and at most three items are copied. -/
def IsSmall : Instruction → Prop
  | .number n => Number.IsWord n
  | .arrange a => a.growth ≤ 3
  | _ => True

variable {ctx : Context} {i : Instruction} {op : Opcode} {executing : Bool} {rest : Bytes}

instance (i : Instruction) : Decidable i.IsSmall := by
  cases i <;> unfold IsSmall <;> infer_instance

theorem ofOpcode_isSmall (op : Opcode) : (ofOpcode op).IsSmall := by
  have htable : ∀ entry ∈ table, entry.2.IsSmall := by decide
  unfold ofOpcode
  split
  · change Number.IsWord _
    have hlt := op.toNat_lt
    unfold Number.IsWord Opcode.smallNumber
    split <;> omega
  · cases hl : table.lookup op with
    | none => trivial
    | some i => exact htable _ (mem_table_of_lookup hl)

/-- An instruction adds at most three items. -/
theorem run_grows (h : i.IsSmall) : Grows 3 (i.run ctx op executing rest) := by
  have hnone {e : Effect Unit} (h : Grows 0 e) : Grows 3 e := h.mono (by decide)
  have hone {e : Effect Unit} (h : Grows 1 e) : Grows 3 e := h.mono (by decide)
  cases i with
  | number n => exact hone (onMain_grows (Stack.pushNumber_grows h))
  | nop => exact hnone (pure_grows ())
  | reservedNop => exact hnone (demand_looks _ _).grows
  | checkLockTime => exact hnone Control.checkLockTime_grows
  | checkSequence => exact hnone Control.checkSequence_grows
  | branch on => exact hnone (Control.branch_grows on executing)
  | otherwise => exact hnone Control.otherwise_grows
  | endBranch => exact hnone Control.endBranch_grows
  | verify => exact hnone (assertTop_grows _)
  | abort => exact hnone (throw_grows _)
  | toAlt => exact hnone Control.toAlt_grows
  | fromAlt => exact hnone Control.fromAlt_grows
  | arrange a => exact (onMain_grows a.run_grows).mono h
  | dupIfTrue => exact hone (onMain_grows Data.dupIfTrue_grows)
  | depth => exact hone (onMain_grows Data.depth_grows)
  | pick => exact hnone (onMain_grows (Data.pickOrRoll_grows _))
  | roll => exact hnone (onMain_grows (Data.pickOrRoll_grows _))
  | size => exact hone (onMain_grows Data.size_grows)
  | concatenate => exact hnone (onMain_grows Data.concatenate_grows)
  | split => exact hnone (onMain_grows Data.split_grows)
  | reverse => exact hnone (onMain_grows (Data.reverse_grows _))
  | toWidth => exact hnone (onMain_grows Data.toWidth_grows)
  | toNumber => exact hnone (onMain_grows Data.toNumber_grows)
  | bitwise b => exact hnone (onMain_grows (Data.bitwise_grows b))
  | equal insist =>
    exact hnone ((onMain_grows Data.equal_grows).after fun _ =>
      .ite (assertTop_grows _) (pure_grows ()))
  | unary u => exact hnone (onMain_grows (Data.unary_grows u))
  | binary b insist =>
    exact hnone ((onMain_grows (Data.binary_grows b)).after fun _ =>
      .ite (assertTop_grows _) (pure_grows ()))
  | within => exact hnone (onMain_grows Data.within_grows)
  | hash kind => exact hnone (onMain_grows (Data.hash_grows kind))
  | codeSeparator => exact hnone (modify_grows fun _ => ⟨rfl, rfl⟩)
  | checkSig insist => exact hone (Signing.checkSig_grows insist)
  | checkMultisig insist => exact hone (Signing.checkMultisig_grows insist)
  | checkDataSig insist => exact hone (Signing.checkDataSig_grows insist)
  | invalid => exact hnone (throw_grows _)

end Instruction

namespace Effect

variable {ctx : Context} {op : Operation} {rest : Bytes} {executing : Bool} {st st' : State} {n : Nat}
  {u : Unit}

theorem act_grows (h : op.data.length ≤ Fault.maxItem) : Grows 3 (act ctx op rest executing) := by
  unfold act
  split
  · exact (pushData_grows h).mono (by decide)
  · split
    · exact Instruction.run_grows (Instruction.ofOpcode_isSmall op.code)
    · exact (pure_grows ()).mono (by decide)

/-- Also where it fails, an operation adds at most three items. -/
theorem perform_within (h : op.data.length ≤ Fault.maxItem) (hst : st.Within n)
    (htall : n + 3 < Stack.tall) : (finalState (perform ctx op rest st)).Within (n + 3) := by
  have hcounted : (st.counting op.code).Within n := by
    rw [State.counting_eq]
    exact ⟨hst.depth, hst.main, hst.alt⟩
  exact perform_final (P := State.Within (n + 3)) (hcounted.mono (Nat.le_add_right n 3))
    fun _ => act_grows h n _ hcounted htall

theorem perform_ok_within (h : op.data.length ≤ Fault.maxItem) (hst : st.Within Fault.maxDepth)
    (hp : perform ctx op rest st = .ok u st') : st'.Within Fault.maxDepth := by
  have hfinal : (finalState (perform ctx op rest st)).Within (Fault.maxDepth + 3) :=
    perform_within h hst (by decide)
  rw [finalState_of_ok hp] at hfinal
  exact ⟨(perform_ok.mp hp).2.2.2, hfinal.main, hfinal.alt⟩

/-- The count can overrun the budget by the operation itself or by the keys that it takes. -/
theorem perform_opCount_le (hb : st.opCount ≤ ctx.budget) :
    (finalState (perform ctx op rest st)).opCount ≤ ctx.budget + Signing.maxKeys := by
  have hmax : 1 ≤ Signing.maxKeys := by decide
  refine perform_final (P := fun t => t.opCount ≤ ctx.budget + Signing.maxKeys) ?_ fun hbudget => ?_
  · rw [State.counting_opCount]
    split <;> omega
  · obtain ⟨k, n, hcharge, hf, -⟩ := act_final ctx op rest st.isExecuting (st.counting op.code)
    have hkeys := hcharge.keys_le
    rw [State.counting_opCount] at hf
    split at hf
    · next hc =>
      have := hbudget hc
      omega
    · omega

end Effect

namespace Machine

variable {ctx : Context} {m t : Machine} {op : Operation} {rest : Bytes} {st : State}
  {script : Script} {fault : Fault}

/-- How many bytes of the script come before the code that signatures cover. -/
def separator (m : Machine) : Nat := m.script.length - m.state.code.length

/-- What every machine keeps to that runs a script. -/
structure Bounded (ctx : Context) (m : Machine) : Prop where
  within : m.state.Within Fault.maxDepth
  opCount : m.state.opCount ≤ ctx.budget
  places : ∃ before since, Operation.Reads m.script.bytes before m.state.code ∧
    Operation.Reads m.state.code since m.unread

theorem Bounded.started (h : m.state.Within Fault.maxDepth) : Bounded ctx (m.started script) where
  within := ⟨h.depth, h.main, h.alt⟩
  opCount := Nat.zero_le _
  places := ⟨[], [], .done _, .done _⟩

theorem Bounded.step (h : Bounded ctx m) (hn : m.next = .ok (op, rest))
    (hp : Effect.perform ctx op rest m.state = .ok () st) : Bounded ctx ⟨st, m.script, rest⟩ := by
  obtain ⟨hread, hlength⟩ := read_of_next hn
  obtain ⟨before, since, hbefore, hsince⟩ := h.places
  refine ⟨Effect.perform_ok_within hlength h.within hp, (Effect.perform_counts hp).2.2 h.opCount, ?_⟩
  dsimp only
  rw [Effect.perform_ok_code hp]
  -- the separator now stands behind all that has been read, or stays where it was
  split
  · exact ⟨before ++ (since ++ [op]), [], hbefore.append (hsince.snoc hread), .done rest⟩
  · exact ⟨before, since ++ [op], hbefore, hsince.snoc hread⟩

theorem Bounded.step_error (h : Bounded ctx m) (hs : Machine.step ctx m = .error fault t) :
    t.state.Within (Fault.maxDepth + 3) ∧ t.state.opCount ≤ ctx.budget + Signing.maxKeys := by
  rcases Machine.step_error hs with rfl | ⟨op, rest, hn, hp⟩
  · exact ⟨h.within.mono (Nat.le_add_right _ _), Nat.le_trans h.opCount (Nat.le_add_right _ _)⟩
  · rw [← finalState_of_error hp]
    exact ⟨Effect.perform_within (read_of_next hn).2 h.within (by decide),
      Effect.perform_opCount_le h.opCount⟩

/-- The code that signatures cover and the end that has not been read begin where operations do. -/
theorem Bounded.boundaries (h : Bounded ctx m) :
    m.script.IsBoundary m.position ∧ m.unread = m.script.bytes.drop m.position ∧
      m.script.IsBoundary m.separator ∧ m.state.code = m.script.bytes.drop m.separator ∧
      m.separator ≤ m.position := by
  obtain ⟨before, since, hbefore, hsince⟩ := h.places
  have hall := hbefore.append hsince
  have hlength := hsince.length_le
  refine ⟨Script.isBoundary_of_reads hall, hall.drop_eq.symm, Script.isBoundary_of_reads hbefore,
    hbefore.drop_eq.symm, ?_⟩
  unfold separator position
  omega

/-- From stacks that keep within their limits, every number of steps that succeed leads to such
stacks, with the operation count within the budget, and with the position and the last separator at
boundaries of operations, the separator not beyond the position. The first step that fails leaves at
most three items more, none of them too long, and overruns the budget at most by the keys of one
multisignature; so does the evaluation as a whole. -/
theorem resources_bounded (ctx : Context) (script : Script) (m : Machine)
    (h : m.state.Within Fault.maxDepth) :
    (∀ trail t, Steps ctx (m.started script) trail t →
      t.state.Within Fault.maxDepth ∧ t.state.opCount ≤ ctx.budget ∧
        (script.IsBoundary t.position ∧ t.unread = script.bytes.drop t.position) ∧
        (script.IsBoundary t.separator ∧ t.state.code = script.bytes.drop t.separator) ∧
        t.separator ≤ t.position ∧
        ∀ fault t', step ctx t = .error fault t' →
          t'.state.Within (Fault.maxDepth + 3) ∧
            t'.state.opCount ≤ ctx.budget + Signing.maxKeys) ∧
      (finalState (eval ctx script m)).state.Within (Fault.maxDepth + 3) ∧
        (finalState (eval ctx script m)).state.opCount ≤ ctx.budget + Signing.maxKeys := by
  have hbounded {trail : List Stage} {t : Machine} (hs : Steps ctx (m.started script) trail t) :
      Bounded ctx t :=
    hs.invariant (fun _ _ _ _ hn hp hb => hb.step hn hp) (.started h)
  constructor
  · intro trail t hs
    have hb := hbounded hs
    obtain ⟨hposition, hunread, hseparator, hcode, hle⟩ := hb.boundaries
    rw [hs.script_eq] at hposition hunread hseparator hcode
    exact ⟨hb.within, hb.opCount, ⟨hposition, hunread⟩, ⟨hseparator, hcode⟩, hle,
      fun fault t' he => hb.step_error he⟩
  · by_cases hl : script.length ≤ Script.maxLength
    · rw [eval_final hl]
      rcases exists_steps ctx (m.started script) with ⟨trail, t, hs, -, hr⟩ |
        ⟨trail, t, fault, t', hs, he, hr⟩
      · rw [finalState_of_ok hr]
        have hb := hbounded hs
        exact ⟨hb.within.mono (Nat.le_add_right _ _), Nat.le_trans hb.opCount (Nat.le_add_right _ _)⟩
      · rw [finalState_of_error hr]
        exact (hbounded hs).step_error he
    · rw [eval_of_too_long hl]
      exact ⟨State.Within.mono ⟨h.depth, h.main, h.alt⟩ (Nat.le_add_right _ _), Nat.zero_le _⟩

/-- Three items can be copied onto full stacks before the limit is looked at. -/
theorem resources_bounded_full_stacks :
    let m : Machine := { state := { main := List.replicate 998 [1], alt := [[2], [3]] } }
    let ctx : Context := ⟨.ofList [], .none, 1⟩
    m.state.Within Fault.maxDepth ∧ (finalState (eval ctx ⟨[0x6f]⟩ m)).state.depth = 1003 ∧
      (finalState (eval ctx ⟨[0x6f]⟩ m)).state.Within 1003 := by
  intro m ctx
  have hm : m.state.Within Fault.maxDepth := by
    refine ⟨?_, ?_, ?_⟩
    · rw [State.depth, List.length_replicate]
      decide
    · intro item hi
      rw [List.eq_of_mem_replicate hi]
      decide
    · exact Stack.fits_cons.mpr ⟨by decide, Stack.fits_cons.mpr ⟨by decide, List.forall_mem_nil _⟩⟩
  exact ⟨hm, by decide +kernel, (resources_bounded ctx ⟨[0x6f]⟩ m hm).2.1⟩

end Machine

end CoinScript
