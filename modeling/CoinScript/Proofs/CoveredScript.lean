import CoinScript.Proofs.Charges
import CoinScript.Proofs.SignatureCalls
import CoinScript.Proofs.SignatureRemoval
import Mathlib.Data.List.DropRight

namespace CoinScript

namespace Script

/-- Operations with a tail. -/
def join (ops : List Operation) (tail : Bytes) : Script := ⟨ops.flatMap Operation.bytes ++ tail⟩

/-- The script with those of its operations that are to be kept, and its tail. -/
def keeping (s : Script) (kept : Operation → Prop) [DecidablePred kept] : Script :=
  .join (s.operations.filter kept) s.tail

variable {s : Script} {ops : List Operation} {tail : Bytes} {p q : Operation → Prop}
  [DecidablePred p] [DecidablePred q]

theorem join_parse (s : Script) : join s.operations s.tail = s := congrArg mk (bytes_parse s.bytes)

theorem parse_keeping : parse (s.keeping p).bytes = (s.operations.filter p, s.tail) :=
  parse_of_sized (fun op hop => sized_parse s.bytes op (List.mem_of_mem_filter hop))
    (read?_parse_tail s.bytes)

theorem keeping_keeping : (s.keeping p).keeping q = s.keeping fun op => p op ∧ q op := by
  have hops : (s.keeping p).operations = s.operations.filter p := congrArg Prod.fst parse_keeping
  have htail : (s.keeping p).tail = s.tail := congrArg (·.2) parse_keeping
  rw [keeping, hops, htail, List.filter_filter, keeping]
  congr 1
  exact List.filter_congr fun op _ => by simp [Bool.and_comm]

theorem keeping_congr (h : ∀ op ∈ s.operations, p op ↔ q op) : s.keeping p = s.keeping q := by
  rw [keeping, keeping]
  congr 1
  exact List.filter_congr fun op hop => by simp [h op hop]

theorem keeping_all (h : ∀ op ∈ s.operations, p op) : s.keeping p = s := by
  rw [keeping, List.filter_eq_self.mpr fun op hop => decide_eq_true (h op hop), join_parse]

end Script

/-- Four bytes are enough for any length. -/
theorem Operation.Sized.length_le {op : Operation} (h : op.Sized) : op.data.length ≤ 0xffffffff := by
  have hpow : 256 ^ lengthWidth op.code ≤ 256 ^ 4 :=
    Nat.pow_le_pow_right (by decide) (lengthWidth_le op.code)
  have hcode := op.code.toNat_lt
  unfold Sized at h
  split at h
  · omega
  · split at h
    · omega
    · rw [h]
      decide

namespace Signing

variable {flags : Flags} {code : Script} {sig : Bytes}

/-- Only pushes behind the shortest length are taken out, each of them one whole operation. -/
theorem withoutSignature_eq : withoutSignature code sig = code.keeping (· ≠ .pushing sig) := by
  have hsized := Script.sized_parse code.bytes
  by_cases hl : sig.length ≤ 0xffffffff
  · have hp : Script.ofPush sig = .ok ⟨(Operation.pushing sig).bytes⟩ := Script.ofPush_ok.mpr ⟨hl, rfl⟩
    have hsame : ∀ op ∈ code.operations,
        op.bytes ≠ (Operation.pushing sig).bytes ↔ op ≠ .pushing sig := by
      intro op hop
      refine not_congr ⟨fun he => ?_, congrArg Operation.bytes⟩
      exact (hsized op hop).eq_of_bytes (Operation.sized_pushing hl) he
    rw [withoutSignature, hp]
    dsimp only
    rw [Script.remove_eq_others (Script.isOperation_of_push hp)]
    exact Script.keeping_congr hsame
  · have habsent : ∀ op ∈ code.operations, op ≠ .pushing sig := by
      rintro op hop rfl
      exact hl (hsized _ hop).length_le
    rw [Script.keeping_all habsent]
    exact withoutSignature_of_absent fun hop => habsent _ hop rfl

namespace Multisig

/-- Whether a signature commits to the fork under the flag. -/
def commitsToFork (flags : Flags) (sig : Bytes) : Bool :=
  flags.has .forkId && (HashType.ofSignature sig).hasForkId

theorem withoutOrdered_eq :
    withoutOrdered flags code sig =
      code.keeping fun op => commitsToFork flags sig = false → op ≠ .pushing sig := by
  change (if commitsToFork flags sig then code else withoutSignature code sig) = _
  cases hfork : commitsToFork flags sig with
  | true => exact (Script.keeping_all fun op _ h => nomatch h).symm
  | false =>
    rw [if_neg Bool.false_ne_true, withoutSignature_eq]
    exact Script.keeping_congr fun op _ => by simp

theorem orderedCode_eq (m : Multisig) :
    m.orderedCode flags code = code.keeping fun op =>
      ∀ sig ∈ m.signatures, commitsToFork flags sig = false → op ≠ .pushing sig := by
  unfold orderedCode
  induction m.signatures generalizing code with
  | nil => exact (Script.keeping_all fun op _ sig hsig => nomatch hsig).symm
  | cons sig sigs ih =>
    rw [List.foldl_cons, ih, withoutOrdered_eq, Script.keeping_keeping]
    exact Script.keeping_congr fun op _ => by simp

end Multisig

end Signing

/-- Whether what ran at a stage is a separator. In a branch that is not taken it does not run. -/
def Stage.separates (stage : Stage) : Bool :=
  stage.state.isExecuting && stage.op.code == Opcode.codeSeparator

/-- What stands behind the last separator that ran on a trail, or all of a script if none did. -/
def Script.behind (s : Script) (trail : List Stage) : Script :=
  .join (s.operations.drop (trail.rdropWhile (!·.separates)).length) s.tail

namespace Machine

variable {ctx : Context} {m t : Machine} {trail before since : List Stage} {script : Script}

theorem Steps.split (h : Steps ctx m (before ++ since) t) :
    ∃ mid, Steps ctx m before mid ∧ Steps ctx mid since t := by
  induction before generalizing m with
  | nil => exact ⟨m, .done m, h⟩
  | cons stage before ih =>
    cases h with
    | next hn hs hrest =>
      obtain ⟨mid, hbefore, hsince⟩ := ih hrest
      exact ⟨mid, .next hn hs hbefore, hsince⟩

theorem Steps.code_eq (h : Steps ctx m trail t) (hnone : ∀ stage ∈ trail, stage.separates = false) :
    t.state.code = m.state.code := by
  induction h with
  | done => rfl
  | next hn hs _ ih =>
    obtain ⟨op, rest, hn', hp, -⟩ := step_ok.mp hs
    rw [hn] at hn'
    cases hn'
    obtain ⟨hfirst, hrest⟩ := List.forall_mem_cons.mp hnone
    rw [Stage.separates] at hfirst
    rw [ih hrest, Effect.perform_ok_code hp, hfirst]
    rfl

/-- Right behind a separator that ran, nothing has been read since. -/
theorem Steps.code_unread {stage : Stage} (h : Steps ctx m (before ++ [stage]) t)
    (hs : stage.separates = true) : t.state.code = t.unread := by
  obtain ⟨mid, -, hlast⟩ := h.split
  cases hlast with
  | next hn hstep hdone =>
    obtain ⟨op, rest, hn', hp, ht⟩ := step_ok.mp hstep
    rw [hn] at hn'
    cases hn'
    cases hdone
    rw [Stage.separates] at hs
    rw [Effect.perform_ok_code hp, hs, ht]
    rfl

/-- The code is what stands behind the last separator that ran. The trail is cut behind that
separator: up to there the code is what has not been read, and from there on it stays. -/
theorem Steps.code_behind (h : Steps ctx (m.started script) trail t) :
    (⟨t.state.code⟩ : Script) = script.behind trail := by
  let idle (stage : Stage) : Bool := !stage.separates
  have hcut : trail.rdropWhile idle ++ trail.rtakeWhile idle = trail :=
    List.rdropWhile_append_rtakeWhile
  have hlast := List.rdropWhile_last_not idle trail
  change _ = Script.join (script.operations.drop (trail.rdropWhile idle).length) script.tail
  rw [← hcut] at h
  obtain ⟨mid, hfront, hsince⟩ := h.split
  have hkept : t.state.code = mid.state.code := by
    refine hsince.code_eq fun stage hstage => ?_
    simpa [idle] using List.mem_rtakeWhile_imp hstage
  generalize trail.rdropWhile idle = before at hfront hlast ⊢
  have hunread : mid.state.code = mid.unread := by
    rcases List.eq_nil_or_concat' before with rfl | ⟨init, stage, rfl⟩
    · cases hfront
      rfl
    · refine hfront.code_unread ?_
      simpa [idle] using hlast (by simp)
  have hparse : Script.parse script.bytes = _ := hfront.reads.parse_eq
  have hops : script.operations.drop before.length = (Script.parse mid.unread).1 := by
    rw [Script.operations, hparse]
    exact List.drop_left' (List.length_map _)
  have htail : script.tail = (Script.parse mid.unread).2 := congrArg (·.2) hparse
  rw [hkept, hunread, hops, htail]
  exact (Script.join_parse ⟨mid.unread⟩).symm

end Machine

namespace Signing

variable {ctx : Context} {code covered : Script} {call : Call} {sig key : Bytes} {st : State}

namespace Multisig

variable {m : Multisig} {sigs keys : List Bytes}

theorem mem_callsInOrder (h : call ∈ callsInOrder ctx code sigs keys) :
    call.sig ∈ sigs ∧ call.code = code := by
  induction keys generalizing sigs with
  | nil => cases sigs <;> cases h
  | cons key keys ih =>
    cases sigs with
    | nil => cases h
    | cons sig sigs =>
      rw [callsInOrder] at h
      split at h
      · have hleft : (if ctx.checker.signature sig key code then sigs else sig :: sigs) ⊆ sig :: sigs := by
          split
          · exact List.subset_cons_self _ _
          · exact List.Subset.refl _
        dsimp only at h
        generalize (if ctx.checker.signature sig key code then sigs else sig :: sigs) = left at h hleft
        rcases List.mem_cons.mp h with rfl | h
        · exact ⟨List.mem_cons_self, rfl⟩
        · split at h
          · cases h
          · obtain ⟨hsig, hcode⟩ := ih h
            exact ⟨hleft hsig, hcode⟩
      · cases h

theorem mem_callsOfPairs {positions : List Nat} (h : call ∈ callsOfPairs ctx code keys positions sigs) :
    call.sig ∈ sigs ∧ call.code = code := by
  induction positions generalizing sigs with
  | nil => cases h
  | cons position positions ih =>
    cases sigs with
    | nil => cases h
    | cons sig sigs =>
      rw [callsOfPairs] at h
      split at h
      · rcases List.mem_cons.mp h with rfl | h
        · exact ⟨List.mem_cons_self, rfl⟩
        · split at h
          · obtain ⟨hsig, hcode⟩ := ih h
            exact ⟨List.mem_cons_of_mem _ hsig, hcode⟩
          · cases h
      · cases h

theorem mem_callsSelected (h : call ∈ m.callsSelected ctx code) :
    call.sig ∈ m.signatures ∧ call.code = code := by
  unfold callsSelected at h
  split at h
  · cases h
  · dsimp only at h
    split at h
    · obtain ⟨hsig, hcode⟩ := mem_callsOfPairs h
      exact ⟨List.mem_reverse.mp hsig, hcode⟩
    · cases h

end Multisig

/-- A call as it is made where signatures cover a script. The code is that script less the pushes that
the operation takes out, by the mode in which a multisignature runs. -/
inductive Call.Covers (ctx : Context) (stage : Stage) (covered : Script) (call : Call) : Prop
  | single (verify : Bool) (hc : stage.op.code = Opcode.checkingSig verify) (below : Stack)
      (hm : stage.state.main = call.key :: call.sig :: below)
      (code : call.code = covered.keeping (· ≠ .pushing call.sig))
  | inOrder (verify : Bool) (hc : stage.op.code = Opcode.checkingMultisig verify) (m : Multisig)
      (hm : m.On ctx stage.state.main) (mode : m.isSelected ctx.flags = false)
      (sig : call.sig ∈ m.signatures)
      (code : call.code = covered.keeping fun op =>
        ∀ sig ∈ m.signatures, Multisig.commitsToFork ctx.flags sig = false → op ≠ .pushing sig)
  | selected (verify : Bool) (hc : stage.op.code = Opcode.checkingMultisig verify) (m : Multisig)
      (hm : m.On ctx stage.state.main) (mode : m.isSelected ctx.flags = true)
      (sig : call.sig ∈ m.signatures) (code : call.code = covered)

theorem mem_callsOfSig (h : call ∈ callsOfSig ctx st) :
    (∃ below, st.main = call.key :: call.sig :: below) ∧
      call.code = (Script.mk st.code).keeping (· ≠ .pushing call.sig) := by
  unfold callsOfSig at h
  split at h
  · next key sig below hm =>
    unfold callsOfOne at h
    split at h
    · cases List.mem_singleton.mp h
      exact ⟨⟨below, hm⟩, withoutSignature_eq⟩
    · cases h
  · cases h

/-- The operands are those on the stack, and their mode tells what is taken out. -/
theorem mem_callsOfMultisig (h : call ∈ callsOfMultisig ctx st) :
    ∃ m : Multisig, m.On ctx st.main ∧ call.sig ∈ m.signatures ∧
      (m.isSelected ctx.flags = true ∧ call.code = ⟨st.code⟩ ∨
        m.isSelected ctx.flags = false ∧ call.code = (Script.mk st.code).keeping fun op =>
          ∀ sig ∈ m.signatures, Multisig.commitsToFork ctx.flags sig = false → op ≠ .pushing sig) := by
  unfold callsOfMultisig at h
  split at h
  · next m t hread =>
    obtain ⟨hon, -, -⟩ := readMultisig_ok.mp hread
    refine ⟨m, hon, ?_⟩
    unfold Multisig.calls at h
    split at h
    · next hmode =>
      obtain ⟨hsig, hcode⟩ := Multisig.mem_callsSelected h
      exact ⟨hsig, .inl ⟨hmode, hcode⟩⟩
    · next hmode =>
      obtain ⟨hsig, hcode⟩ := Multisig.mem_callsInOrder h
      rw [Multisig.orderedCode_eq] at hcode
      exact ⟨hsig, .inr ⟨by simpa using hmode, hcode⟩⟩
  · cases h

end Signing

namespace Effect

open Signing (Call)

variable {ctx : Context} {op : Operation} {st : State} {call : Call} {covered : Script}

/-- The codes of the two instructions that ask about signatures. -/
theorem code_of_calls (h : call ∈ (Instruction.ofOpcode op.code).calls ctx st) :
    (∃ verify, op.code = Opcode.checkingSig verify ∧ call ∈ Signing.callsOfSig ctx st) ∨
      ∃ verify, op.code = Opcode.checkingMultisig verify ∧ call ∈ Signing.callsOfMultisig ctx st := by
  have hs : (Instruction.ofOpcode op.code).actsOnStacks = false := by
    cases hi : Instruction.ofOpcode op.code with
    | checkSig | checkMultisig => rfl
    | _ =>
      rw [hi] at h
      cases h
  have hmem := Instruction.special_of_mem _ (Instruction.mem_table_of_not_actsOnStacks hs) hs
  simp only [Prod.mk.injEq] at hmem
  rcases hmem with ⟨on, hc, hi⟩ | ⟨hc, hi⟩ | ⟨hc, hi⟩ | ⟨hc, hi⟩ | ⟨v, hc, hi⟩ | ⟨v, hc, hi⟩ |
    ⟨v, hc, hi⟩
  all_goals rw [hi] at h
  · cases h
  · cases h
  · cases h
  · cases h
  · exact .inl ⟨v, hc, h⟩
  · exact .inr ⟨v, hc, h⟩
  · cases h

theorem calls_covers (h : call ∈ calls ctx op st) :
    st.isExecuting = true ∧ call.Covers ctx ⟨st, op⟩ ⟨st.code⟩ := by
  unfold calls at h
  split at h
  · cases h
  · next entered he =>
    obtain ⟨-, -, rfl⟩ := enter_ok.mp he
    split at h
    · cases h
    · split at h
      · next hr =>
        have hexec (hc : op.code.isConditional = false) : st.isExecuting = true := by
          rwa [hc, Bool.or_false] at hr
        rcases code_of_calls h with ⟨v, hc, h⟩ | ⟨v, hc, h⟩
        · obtain ⟨⟨below, hm⟩, hcode⟩ := Signing.mem_callsOfSig h
          rw [State.counting_main] at hm
          rw [State.counting_code] at hcode
          exact ⟨hexec (by rw [hc]; cases v <;> rfl), .single v hc below hm hcode⟩
        · obtain ⟨m, hon, hsig, hmode⟩ := Signing.mem_callsOfMultisig h
          rw [State.counting_main] at hon
          rw [State.counting_code] at hmode
          refine ⟨hexec (by rw [hc]; cases v <;> rfl), ?_⟩
          rcases hmode with ⟨hmode, hcode⟩ | ⟨hmode, hcode⟩
          · exact .selected v hc m hon hmode hsig hcode
          · exact .inOrder v hc m hon hmode hsig hcode
      · cases h

end Effect

namespace Machine

open Signing (Agrees)

/-- Every call of a run covers what stands behind the last separator that ran, less the pushes of
signatures that its operation takes out. These are all calls: whatever else would be answered to others,
the evaluation comes to the same. -/
theorem calls_cover (ctx : Context) (script : Script) (m : Machine) :
    (∀ trail t, Steps ctx (m.started script) trail t → ∀ call ∈ t.calls ctx,
      ∃ op rest, t.next = .ok (op, rest) ∧ t.state.isExecuting = true ∧
        call.Covers ctx ⟨t.state, op⟩ (script.behind trail)) ∧
      ∀ answers, (∀ trail t, Steps ctx (m.started script) trail t →
          Agrees answers ctx (t.calls ctx)) →
        eval (ctx.withSignature answers) script m = eval ctx script m := by
  refine ⟨fun trail t ht call hcall => ?_, fun answers => eval_congr⟩
  unfold calls at hcall
  split at hcall
  · cases hcall
  · next op rest hn =>
    obtain ⟨hx, hcovers⟩ := Effect.calls_covers hcall
    rw [ht.code_behind] at hcovers
    exact ⟨op, rest, hn, hx, hcovers⟩

/-- A push behind a longer length than it needs stays, also the one that the signature came from: it is
this script, and not the one without any push of the signature, that the checker is asked about. -/
theorem calls_cover_longer_push :
    let script : Script := ⟨[0x4c, 0x01, 0x07, 0x51, 0xac]⟩
    let ctx (code : Script) : Context := ⟨.none, { signature := fun _ _ asked => asked == code }, 201⟩
    (∃ trail t call push, Steps (ctx script) ((Machine.ofStack []).started script) trail t ∧
      t.next = .ok (⟨Opcode.checkSig, []⟩, []) ∧ call ∈ t.calls (ctx script) ∧
      push ∈ call.code.operations ∧ push.isPush = true ∧ push.data = call.sig) ∧
      evalScript (ctx script) script [] = .ok () [[1]] ∧
      evalScript (ctx ⟨[0x51, 0xac]⟩) script [] = .ok () [[]] := by
  intro script ctx
  let pushed : Machine := ⟨{ main := [[7]], code := script.bytes }, script, [0x51, 0xac]⟩
  let ready : Machine := ⟨{ main := [[1], [7]], code := script.bytes }, script, [0xac]⟩
  have hfirst : step (ctx script) ((Machine.ofStack []).started script) = .ok () pushed := by
    decide +kernel
  have hsecond : step (ctx script) pushed = .ok () ready := by decide +kernel
  have hcalls : ready.calls (ctx script) = [⟨[7], [1], script⟩] := by decide +kernel
  have hpush : ⟨Opcode.pushData1, [7]⟩ ∈ script.operations := by decide +kernel
  refine ⟨⟨_, ready, ⟨[7], [1], script⟩, _, .next rfl hfirst (.next rfl hsecond (.done ready)), rfl, ?_,
    hpush, rfl, rfl⟩, by decide +kernel, by decide +kernel⟩
  rw [hcalls]
  exact List.mem_singleton_self _

end Machine

end CoinScript
