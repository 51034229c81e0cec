import CoinScript.Proofs.Acting
import CoinScript.Proofs.MultisigOperands

namespace CoinScript

namespace Effect

variable {α : Type} {ctx : Context} {n : Nat}

theorem onMain_looks {step : StackStep α} (h : Looks step) : Looks (onMain step) := by
  intro st
  have hs := h st.main
  unfold onMain
  cases hm : step st.main with
  | ok a s =>
    rw [hm] at hs
    cases hs
    rfl
  | error fault s =>
    rw [hm] at hs
    cases hs
    rfl

theorem require_looks : Looks (onMain (Stack.require n)) := by
  apply onMain_looks
  intro s
  by_cases h : n ≤ s.length <;> simp [Stack.require, Stack.needing, h, finalState]

theorem peek_looks : Looks (onMain (Stack.peek n)) := by
  apply onMain_looks
  intro s
  unfold Stack.peek
  split <;> rfl

theorem orFail_looks (result : Except Fault α) : Looks (orFail result) := by
  intro st
  cases result <;> rfl

theorem demand_looks (condition : Bool) (fault : Fault) : Looks (demand condition fault) := by
  intro st
  cases condition <;> rfl

theorem checkDepth_looks : Looks checkDepth := by
  intro st
  unfold checkDepth
  split <;> rfl

theorem countOps_final (st : State) :
    finalState (countOps ctx n st) = { st with opCount := st.opCount + n } := by
  unfold countOps
  dsimp only
  split <;> rfl

theorem enter_final (op : Opcode) (st : State) : finalState (enter ctx op st) = st.counting op := by
  unfold enter State.counting
  split
  · refine bind_final (P := (· = _)) (countOps_final st) fun _ t ht => ?_
    obtain ⟨-, rfl⟩ := countOps_ok.mp ht
    exact demand_looks _ _ _
  · exact demand_looks _ _ _

/-- An operation ends in the state in which it was counted, or in the one its action led to. -/
theorem perform_final {op : Operation} {rest : Bytes} {st : State} {P : State → Prop}
    (hcounted : P (st.counting op.code))
    (hact : (op.code.isCounted = true → st.opCount + 1 ≤ ctx.budget) →
      P (finalState (act ctx op rest st.isExecuting (st.counting op.code)))) :
    P (finalState (perform ctx op rest st)) := by
  rw [perform_eq]
  change P (finalState ((enter ctx op.code >>= fun _ => act ctx op rest st.isExecuting >>=
    fun _ => checkDepth) st))
  refine bind_final (by rw [enter_final]; exact hcounted) fun _ t ht => ?_
  obtain ⟨hbudget, -, rfl⟩ := enter_ok.mp ht
  refine bind_final (hact hbudget) fun _ t ht => ?_
  have hlast := hact hbudget
  rw [finalState_of_ok ht] at hlast
  rw [checkDepth_looks t]
  exact hlast

end Effect

namespace Control

variable {ctx : Context}

theorem branch_final (ctx : Context) (on executing : Bool) (st : State) :
    ∃ main branches, main <:+ st.main ∧
      finalState (branch ctx on executing st) = { st with main, branches } := by
  unfold branch
  split
  · split
    · exact ⟨_, _, List.suffix_refl _, rfl⟩
    · next top s hm =>
      rw [hm]
      split
      · exact ⟨s, _, List.suffix_cons top s, rfl⟩
      · exact ⟨s, _, List.suffix_cons top s, rfl⟩
  · exact ⟨_, _, List.suffix_refl _, rfl⟩

theorem otherwise_final (st : State) :
    ∃ branches, finalState (otherwise st) = { st with branches } := by
  unfold otherwise
  split <;> exact ⟨_, rfl⟩

theorem endBranch_final (st : State) :
    ∃ branches, finalState (endBranch st) = { st with branches } := by
  unfold endBranch
  split <;> exact ⟨_, rfl⟩

end Control

namespace Signing

open Effect

/-- How many keys a multisignature takes that runs on a stack. -/
def keyCount (ctx : Context) (s : Stack) : Nat :=
  match Number.operand ctx.minimal (s.headD []) with
  | .ok n => n.toNat
  | .error _ => 0

variable {ctx : Context} {st st' : State} {m : Multisig} {s : Stack}

theorem numberAt_looks (i : Nat) : Looks (numberAt ctx i) := by
  intro st
  let P (t : State) : Prop := t = st
  change P (finalState (numberAt ctx i st))
  refine peek_looks.bind_final rfl fun item _ => ?_
  exact orFail_looks _ st

theorem keyCount_of_top {count : Bytes} {n : Int} (hc : s[0]? = some count)
    (hn : Number.operand ctx.minimal count = .ok n) : keyCount ctx s = n.toNat := by
  have hh : s.headD [] = count := by
    cases s with
    | nil => cases hc
    | cons top s => exact Option.some.inj hc
  rw [keyCount, hh, hn]

theorem Multisig.On.keyCount_eq (hs : m.On ctx s) : keyCount ctx s = m.keys.length := by
  obtain ⟨count, required, below, hs, hn, -⟩ := hs
  rw [keyCount_of_top (by rw [hs]; rfl) hn, Int.toNat_natCast]

/-- Before the keys are counted nothing changes, and after that nothing does but by their number. -/
theorem readMultisig_final (ctx : Context) (st : State) :
    ∃ k, k ≤ keyCount ctx st.main ∧ k ≤ maxKeys ∧
      finalState (readMultisig ctx st) = { st with opCount := st.opCount + k } := by
  let P (t : State) : Prop := ∃ k, k ≤ keyCount ctx st.main ∧ k ≤ maxKeys ∧
    t = { st with opCount := st.opCount + k }
  have h0 : P st := ⟨0, Nat.zero_le _, Nat.zero_le _, rfl⟩
  change P (finalState (readMultisig ctx st))
  refine require_looks.bind_final h0 fun _ _ => ?_
  refine (numberAt_looks 0).bind_final h0 fun n hn => ?_
  obtain ⟨⟨count, hc, hn⟩, -⟩ := numberAt_ok.mp hn
  refine (demand_looks _ _).bind_final h0 fun _ hd => ?_
  obtain ⟨k, rfl, hmax⟩ := natural_iff.mp (demand_ok.mp hd).1
  rw [Int.toNat_natCast]
  have hk : P { st with opCount := st.opCount + k } := by
    refine ⟨k, Nat.le_of_eq ?_, hmax, rfl⟩
    rw [keyCount_of_top hc hn, Int.toNat_natCast]
  refine bind_final (by rw [countOps_final]; exact hk) fun _ t ht => ?_
  obtain ⟨-, rfl⟩ := countOps_ok.mp ht
  refine require_looks.bind_final hk fun _ _ => ?_
  refine (numberAt_looks _).bind_final hk fun _ _ => ?_
  refine (demand_looks _ _).bind_final hk fun _ _ => ?_
  exact require_looks.bind_final hk fun _ _ => hk

theorem checkSig_final (ctx : Context) (verify : Bool) (st : State) :
    ∃ main alt hashTypes n, n ≤ 1 ∧ finalState (checkSig ctx verify st) =
      { st with main, alt, hashTypes, sigChecks := st.sigChecks + n } := by
  let P (t : State) : Prop := ∃ main alt hashTypes n, n ≤ 1 ∧
    t = { st with main, alt, hashTypes, sigChecks := st.sigChecks + n }
  have h0 : P st := ⟨st.main, st.alt, st.hashTypes, 0, Nat.zero_le _, rfl⟩
  change P (finalState (checkSig ctx verify st))
  refine require_looks.bind_final h0 fun _ _ => ?_
  refine peek_looks.bind_final h0 fun key _ => ?_
  refine peek_looks.bind_final h0 fun sig _ => ?_
  have hrest (st' : State) :=
    Commutes.record_kept (e := orFail (checkOne ctx (withoutSignature ⟨st'.code⟩ sig) sig key) >>=
        answer 2 verify .signature)
      (fun f hf => (orFail_framed _).bind fun _ => answer_framed hf _ _ _ _) st'
  refine ⟨_, _, _, if sig = [] then 0 else 1, ?_, hrest _⟩
  split
  · exact Nat.zero_le _
  · exact Nat.le_refl _

theorem checkDataSig_final (ctx : Context) (verify : Bool) (st : State) :
    ∃ main alt n, n ≤ 1 ∧ finalState (checkDataSig ctx verify st) =
      { st with main, alt, sigChecks := st.sigChecks + n } := by
  let P (t : State) : Prop := ∃ main alt n, n ≤ 1 ∧
    t = { st with main, alt, sigChecks := st.sigChecks + n }
  have h0 : P st := ⟨st.main, st.alt, 0, Nat.zero_le _, rfl⟩
  change P (finalState (checkDataSig ctx verify st))
  refine require_looks.bind_final h0 fun _ _ => ?_
  refine peek_looks.bind_final h0 fun key _ => ?_
  refine peek_looks.bind_final h0 fun message _ => ?_
  refine peek_looks.bind_final h0 fun sig _ => ?_
  refine (orFail_looks _).bind_final h0 fun _ _ => ?_
  refine (orFail_looks _).bind_final h0 fun _ _ => ?_
  let success := sig != [] && ctx.checker.digest sig key (Hash.sha256 message)
  have hrest (st' : State) :=
    Commutes.record_kept (e := orFail (nullFail ctx.flags success sig) >>= fun _ =>
        answer 3 verify .dataSignature success)
      (fun f hf => (orFail_framed _).bind fun _ => answer_framed hf _ _ _ _) st'
  refine ⟨_, _, if sig = [] then 0 else 1, ?_, hrest _⟩
  split
  · exact Nat.zero_le _
  · exact Nat.le_refl _

/-- In either mode no more checks are counted than there are keys. -/
theorem Multisig.On.sigChecks_le (hs : m.On ctx s) (flags : Flags) :
    m.sigChecks flags ≤ m.keys.length := by
  obtain ⟨_, _, _, _, _, _, _, hle⟩ := hs
  unfold Multisig.sigChecks
  split
  · exact hle
  · split
    · exact Nat.zero_le _
    · exact Nat.le_refl _

/-- After counting, a multisignature touches nothing but the stacks. -/
theorem checkMultisig_counted (verify : Bool) (hs : m.On ctx st.main)
    (hb : st.opCount + m.keys.length ≤ ctx.budget) :
    ∃ main alt, finalState (checkMultisig ctx verify st) =
      { m.counting ctx.flags st with main, alt } := by
  rw [checkMultisig_read hs hb]
  refine ⟨_, _, Commutes.record_kept (fun f hf => ?_) _⟩
  refine (orFail_framed _).bind fun _ => (onMain_framed hf _).bind fun _ => ?_
  exact .ite (demand_framed _ _) (onMain_framed hf _)

theorem checkMultisig_final (ctx : Context) (verify : Bool) (st : State) :
    ∃ main alt k n, k ≤ keyCount ctx st.main ∧ k ≤ maxKeys ∧ n ≤ k ∧
      finalState (checkMultisig ctx verify st) =
        { st with main, alt, opCount := st.opCount + k, sigChecks := st.sigChecks + n } := by
  cases hr : readMultisig ctx st with
  | ok m t =>
    obtain ⟨hs, hb, -⟩ := readMultisig_ok.mp hr
    obtain ⟨main, alt, hf⟩ := checkMultisig_counted verify hs hb
    have hmax : m.keys.length ≤ maxKeys := by
      obtain ⟨_, _, _, _, _, _, hmax, _⟩ := hs
      exact hmax
    exact ⟨main, alt, m.keys.length, m.sigChecks ctx.flags, Nat.le_of_eq hs.keyCount_eq.symm, hmax,
      hs.sigChecks_le _, hf⟩
  | error fault t =>
    obtain ⟨k, hk, hmax, hf⟩ := readMultisig_final ctx st
    have he : checkMultisig ctx verify st = .error fault t := bind_of_error hr
    rw [hr] at hf
    rw [he]
    exact ⟨st.main, st.alt, k, 0, hk, hmax, Nat.zero_le _, hf⟩

/-- A multisignature that succeeds has counted exactly its keys. -/
theorem checkMultisig_opCount {verify : Bool} {u : Unit}
    (h : checkMultisig ctx verify st = .ok u st') :
    st'.opCount = st.opCount + keyCount ctx st.main ∧ st'.opCount ≤ ctx.budget ∧
      st'.branches = st.branches := by
  obtain ⟨m, t, ht, -⟩ := bind_ok.mp h
  obtain ⟨hs, hb, -⟩ := readMultisig_ok.mp ht
  obtain ⟨main, alt, hf⟩ := checkMultisig_counted verify hs hb
  rw [h] at hf
  change st' = _ at hf
  rw [hf, hs.keyCount_eq]
  exact ⟨rfl, hb, rfl⟩

end Signing

namespace Effect

variable {ctx : Context} {op : Operation} {rest : Bytes} {executing : Bool} {st : State}

/-- How many keys and how many signature checks are counted for the action of an operation, on the
stack that it finds. -/
inductive Charge (ctx : Context) (op : Operation) (executing : Bool) (s : Stack) : Nat → Nat → Prop
  | none : Charge ctx op executing s 0 0
  | checkSig {n : Nat} (verify : Bool) (hc : op.code = Opcode.checkingSig verify) (hn : n ≤ 1) :
      Charge ctx op executing s 0 n
  | checkDataSig {n : Nat} (verify : Bool) (hc : op.code = Opcode.checkingDataSig verify)
      (hn : n ≤ 1) : Charge ctx op executing s 0 n
  | checkMultisig {k n : Nat} (hx : executing = true) (verify : Bool)
      (hc : op.code = Opcode.checkingMultisig verify) (hk : k ≤ Signing.keyCount ctx s)
      (hmax : k ≤ Signing.maxKeys) (hn : n ≤ k) : Charge ctx op executing s k n

theorem Charge.keys_le {s : Stack} {k n : Nat} (h : Charge ctx op executing s k n) :
    k ≤ Signing.maxKeys := by
  cases h with
  | none | checkSig | checkDataSig => exact Nat.zero_le _
  | checkMultisig _ _ _ _ hmax => exact hmax

theorem code_ne_separator (h : (Instruction.ofOpcode op.code).actsOnStacks = true) :
    op.code ≠ Opcode.codeSeparator := by
  intro hc
  rw [hc] at h
  cases h

/-- What is recorded beside the stacks and the branches after the action of an operation, whether or
not it succeeds: the counts have grown by its charge, and only a separator that runs moves the code. -/
theorem act_final (ctx : Context) (op : Operation) (rest : Bytes) (executing : Bool) (st : State) :
    ∃ k n, Charge ctx op executing st.main k n ∧
      (finalState (act ctx op rest executing st)).opCount = st.opCount + k ∧
      (finalState (act ctx op rest executing st)).sigChecks = st.sigChecks + n ∧
      (finalState (act ctx op rest executing st)).code =
        if executing && op.code == Opcode.codeSeparator then rest else st.code := by
  have hkept (hc : op.code ≠ Opcode.codeSeparator) :
      st.code = if executing && op.code == Opcode.codeSeparator then rest else st.code := by
    rw [beq_eq_false_iff_ne.mpr hc, Bool.and_false]
    rfl
  have ha : Action ctx op rest executing (act ctx op rest executing) := act_action
  generalize act ctx op rest executing = e at ha
  cases ha with
  | onStacks framed _ acts =>
    rw [Commutes.record_kept framed st]
    refine ⟨0, 0, .none, rfl, rfl, ?_⟩
    cases executing with
    | false => rfl
    | true => exact hkept (code_ne_separator (acts rfl))
  | opening on hc =>
    obtain ⟨main, branches, -, hf⟩ := Control.branch_final ctx on executing st
    rw [hf]
    exact ⟨0, 0, .none, rfl, rfl, hkept (by rw [hc]; cases on <;> decide)⟩
  | turning hc =>
    obtain ⟨branches, hf⟩ := Control.otherwise_final st
    rw [hf]
    exact ⟨0, 0, .none, rfl, rfl, hkept (by rw [hc]; decide)⟩
  | closing hc =>
    obtain ⟨branches, hf⟩ := Control.endBranch_final st
    rw [hf]
    exact ⟨0, 0, .none, rfl, rfl, hkept (by rw [hc]; decide)⟩
  | separating hx hc =>
    refine ⟨0, 0, .none, rfl, rfl, ?_⟩
    rw [hx, hc]
    rfl
  | checkSig hx verify hc =>
    obtain ⟨main, alt, hashTypes, n, hn, hf⟩ := Signing.checkSig_final ctx verify st
    rw [hf]
    exact ⟨0, n, .checkSig verify hc hn, rfl, rfl, hkept (by rw [hc]; cases verify <;> decide)⟩
  | checkMultisig hx verify hc =>
    obtain ⟨main, alt, k, n, hk, hmax, hn, hf⟩ := Signing.checkMultisig_final ctx verify st
    rw [hf]
    exact ⟨k, n, .checkMultisig hx verify hc hk hmax hn, rfl, rfl,
      hkept (by rw [hc]; cases verify <;> decide)⟩
  | checkDataSig hx verify hc =>
    obtain ⟨main, alt, n, hn, hf⟩ := Signing.checkDataSig_final ctx verify st
    rw [hf]
    exact ⟨0, n, .checkDataSig verify hc hn, rfl, rfl, hkept (by rw [hc]; cases verify <;> decide)⟩

/-- The code that signatures cover is left alone, or begins anew behind a separator that runs. -/
theorem perform_ok_code {st' : State} {u : Unit} (hp : perform ctx op rest st = .ok u st') :
    st'.code = if st.isExecuting && op.code == Opcode.codeSeparator then rest else st.code := by
  obtain ⟨-, -, hact, -⟩ := perform_ok.mp hp
  obtain ⟨k, n, -, -, -, hcode⟩ := act_final ctx op rest st.isExecuting (st.counting op.code)
  rwa [finalState_of_ok hact, State.counting_code] at hcode

end Effect

end CoinScript
