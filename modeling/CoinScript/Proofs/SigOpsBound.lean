import CoinScript.Proofs.Charges
import CoinScript.Proofs.MinimalPushes
import CoinScript.Proofs.Steps
import CoinScript.Script.SigOps

namespace CoinScript

theorem Number.operand_small (minimal : Bool) {n : Nat} (h0 : 0 < n) (h16 : n ≤ 16) :
    Number.operand minimal [UInt8.ofNat n] = .ok (n : Int) := by
  have hall : ∀ n : Fin 17, 0 < n.val →
      isMinimal [UInt8.ofNat n.val] = true ∧ value [UInt8.ofNat n.val] = n.val := by decide
  obtain ⟨hmin, hvalue⟩ := hall ⟨n, Nat.lt_succ_of_le h16⟩ h0
  dsimp only at hmin hvalue
  simp [operand, decode, operandLimit, hmin, hvalue]

namespace Script

variable {flags : Flags} {accurate : Bool} {before : Opcode}

theorem sigOpsOf_checkingSig (verify : Bool) :
    sigOpsOf flags accurate before (Opcode.checkingSig verify) = 1 := by
  cases verify <;> rfl

theorem sigOpsOf_checkingMultisig (verify : Bool) :
    sigOpsOf flags accurate before (Opcode.checkingMultisig verify) =
      if accurate && Opcode.isOneToSixteen before then before.toNat - 80 else maxMultisigKeys := by
  cases verify <;> rfl

theorem sigOpsOf_checkingDataSig (hd : flags.has .dataSignatures = true) (verify : Bool) :
    sigOpsOf flags accurate before (Opcode.checkingDataSig verify) = 1 := by
  unfold sigOpsOf
  rw [if_neg (by cases verify <;> decide), if_neg (by cases verify <;> decide)]
  exact if_pos ⟨by cases verify <;> decide, hd⟩

/-- A known number of keys is at most the largest one. -/
theorem sigOpsOf_accurate_le (flags : Flags) (before op : Opcode) :
    sigOpsOf flags true before op ≤ sigOpsOf flags false before op := by
  have hkeys : (if true && Opcode.isOneToSixteen before then before.toNat - 80 else maxMultisigKeys) ≤
      if false && Opcode.isOneToSixteen before then before.toNat - 80 else maxMultisigKeys := by
    rw [Bool.true_and, Bool.false_and, if_neg Bool.false_ne_true]
    split
    · next h =>
      simp only [Opcode.isOneToSixteen, Bool.and_eq_true, decide_eq_true_eq, UInt8.le_iff_toNat_le] at h
      change _ ∧ before.toNat ≤ 96 at h
      change _ ≤ 20
      omega
    · exact Nat.le_refl _
  unfold sigOpsOf
  split
  · exact Nat.le_refl _
  · split
    · exact hkeys
    · exact Nat.le_refl _

/-- By induction on the operations. -/
theorem countSigOps_accurate_le (flags : Flags) (before : Opcode) (ops : List Operation) :
    countSigOps flags true before ops ≤ countSigOps flags false before ops := by
  induction ops generalizing before with
  | nil => exact Nat.le_refl _
  | cons op ops ih => exact Nat.add_le_add (sigOpsOf_accurate_le flags before op.code) (ih op.code)

end Script

namespace Effect

variable {ctx : Context} {op : Operation} {before : Opcode} {rest : Bytes} {st st' : State}
  {flags : Flags} {u : Unit}

/-- A number of keys that the code before tells is the one on the stack. -/
def Announces (ctx : Context) (before : Opcode) (st : State) : Prop :=
  Opcode.isOneToSixteen before = true → st.isExecuting = true →
    Signing.keyCount ctx st.main = before.toNat - 80

/-- No more checks are counted for an operation than its code asks for. -/
theorem Charge.sigChecks_le {k n : Nat} (h : Charge ctx op st.isExecuting st.main k n)
    (hd : flags.has .dataSignatures = true) (hb : Announces ctx before st) :
    n ≤ Script.sigOpsOf flags true before op.code := by
  cases h with
  | none => exact Nat.zero_le _
  | checkSig verify hc hn =>
    rw [hc, Script.sigOpsOf_checkingSig]
    exact hn
  | checkDataSig verify hc hn =>
    rw [hc, Script.sigOpsOf_checkingDataSig hd]
    exact hn
  | checkMultisig hx verify hc hk hmax hn =>
    rw [hc, Script.sigOpsOf_checkingMultisig, Bool.true_and]
    split
    · next hs =>
      rw [hb hs hx] at hk
      exact Nat.le_trans hn hk
    · exact Nat.le_trans hn hmax

theorem perform_sigChecks (op : Operation) (rest : Bytes) (hd : flags.has .dataSignatures = true)
    (hb : Announces ctx before st) :
    ∃ n, n ≤ Script.sigOpsOf flags true before op.code ∧
      (finalState (perform ctx op rest st)).sigChecks = st.sigChecks + n := by
  refine perform_final (P := fun t => ∃ n, n ≤ Script.sigOpsOf flags true before op.code ∧
    t.sigChecks = st.sigChecks + n) ?_ fun _ => ?_
  · exact ⟨0, Nat.zero_le _, State.counting_sigChecks⟩
  · obtain ⟨k, n, hcharge, -, hf, -⟩ := act_final ctx op rest st.isExecuting (st.counting op.code)
    rw [State.counting_main] at hcharge
    rw [State.counting_sigChecks] at hf
    exact ⟨n, hcharge.sigChecks_le hd hb, hf⟩

/-- A small number that is in a branch that is taken lies on top. -/
theorem announces_of_perform_ok (h : perform ctx op rest st = .ok u st') :
    Announces ctx op.code st' := by
  intro hs hx'
  have hrange := Opcode.isOneToSixteen_iff.mp hs
  cases hx : st.isExecuting with
  | false =>
    -- a number does not touch the branches, so what comes next is not in a taken one either
    have hplain : op.code.isConditional = false := by
      simp only [Opcode.isConditional, Bool.and_eq_false_iff, decide_eq_false_iff_not,
        UInt8.le_iff_toNat_le]
      change ¬ 99 ≤ op.code.toNat ∨ _
      omega
    obtain ⟨-, -, hact, -⟩ := perform_ok.mp h
    rw [hx, act_skipped hplain] at hact
    cases hact
    rw [State.counting_isExecuting, hx] at hx'
    cases hx'
  | true =>
    have hle : op.code ≤ Opcode.sixteen := UInt8.le_iff_toNat_le.mpr hrange.2
    have hpush : op.isPush = false := by
      simp only [Operation.isPush, decide_eq_false_iff_not, UInt8.le_iff_toNat_le]
      change ¬ op.code.toNat ≤ 78
      omega
    have hitem : op.item = [UInt8.ofNat (op.code.toNat - 80)] := by
      rw [Operation.item_of_code hpush, Opcode.encode_smallNumber hs]
    have hnumber : Number.operand ctx.minimal op.item = .ok ((op.code.toNat - 80 : Nat) : Int) := by
      rw [hitem]
      exact Number.operand_small _ (by omega) (by omega)
    obtain ⟨-, -, rfl, -⟩ := (perform_pushOnly_ok hle hx).mp h
    rw [Signing.keyCount_of_top rfl hnumber, Int.toNat_natCast]

end Effect

namespace Machine

variable {ctx : Context} {before : Opcode} {flags : Flags}

/-- By induction on the run: what its steps count is asked for by the operations that they read. -/
theorem run_sigChecks (hd : flags.has .dataSignatures = true) (m : Machine)
    (hb : Effect.Announces ctx before m.state) :
    ∃ n, n ≤ Script.countSigOps flags true before (Script.parse m.unread).1 ∧
      (finalState (run ctx m)).state.sigChecks = m.state.sigChecks + n := by
  induction m using run.induct ctx generalizing before with
  | case1 m hf =>
    rw [run_done (List.isEmpty_iff.mp hf)]
    exact ⟨0, Nat.zero_le _, rfl⟩
  | case2 m hf t hs ih =>
    obtain ⟨op, rest, hn, hp, ht⟩ := step_ok.mp hs
    obtain ⟨k, hk, hfirst⟩ := Effect.perform_sigChecks op rest hd hb
    rw [finalState_of_ok hp] at hfirst
    obtain ⟨n, hle, hrest⟩ := ih (Effect.announces_of_perform_ok hp)
    have hunread : t.unread = rest := by rw [ht]
    rw [hunread] at hle
    rw [run_step_ok hs, Script.parse_of_some (read_of_next hn).1]
    exact ⟨k + n, Nat.add_le_add hk hle, by rw [hrest, hfirst, Nat.add_assoc]⟩
  | case3 m hf fault t hs =>
    rw [run_step_error (by simpa using hf) hs]
    rcases step_error hs with rfl | ⟨op, rest, hn, hp⟩
    · exact ⟨0, Nat.zero_le _, rfl⟩
    · obtain ⟨k, hk, hfirst⟩ := Effect.perform_sigChecks op rest hd hb
      rw [finalState_of_error hp] at hfirst
      rw [Script.parse_of_some (read_of_next hn).1]
      exact ⟨k, Nat.le_trans hk (Nat.le_add_right _ _), hfirst⟩

/-- Whatever an evaluation comes to, it makes no more signature checks than the script asks for,
told accurately and with checks on plain data; and an accurate count is never the larger one. -/
theorem sigOps_bound_sigChecks (ctx : Context) (script : Script) (m : Machine) (flags : Flags) :
    (∃ added, (finalState (eval ctx script m)).state.sigChecks = m.state.sigChecks + added ∧
      added ≤ script.sigOps (flags.union (.only .dataSignatures)) true) ∧
    script.sigOps flags true ≤ script.sigOps flags false := by
  refine ⟨?_, Script.countSigOps_accurate_le _ _ _⟩
  have hd : (flags.union (.only .dataSignatures)).has .dataSignatures = true := by
    rw [Flags.has_union, Flags.has_only, decide_eq_true rfl, Bool.or_true]
  by_cases hl : script.length ≤ Script.maxLength
  · have hstart : Effect.Announces ctx 0xff (m.started script).state := fun h => by cases h
    obtain ⟨added, hle, hrun⟩ := run_sigChecks hd (m.started script) hstart
    refine ⟨added, ?_, hle⟩
    rw [eval_final hl]
    exact hrun
  · refine ⟨0, ?_, Nat.zero_le _⟩
    rw [eval_of_too_long hl]
    rfl

end Machine

end CoinScript
