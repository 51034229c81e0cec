import CoinScript.Proofs.SpendComposition
import CoinScript.Proofs.TemplateShapes

namespace CoinScript

namespace Script

variable {s : Script}

/-- Why a script that cannot be spent stops, given how many operations it may have. -/
def refusal (budget : Nat) (s : Script) : Fault :=
  if maxLength < s.length then .scriptSize s.length
  else if budget = 0 then .opBudget 0
  else .aborted

theorem isUnspendable_iff :
    s.isUnspendable = true ↔ (∃ rest, s.bytes = Opcode.abort :: rest) ∨ maxLength < s.length := by
  have hfirst : s.bytes.head? = some Opcode.abort ↔ ∃ rest, s.bytes = Opcode.abort :: rest := by
    cases s.bytes <;> simp
  simp [isUnspendable, hfirst]

end Script

namespace Effect

variable {ctx : Context} {rest : Bytes} {st : State}

/-- `OP_RETURN` in a branch that is taken. It is counted before it acts. -/
theorem perform_abort (hx : st.isExecuting = true) :
    ∃ st', perform ctx ⟨Opcode.abort, []⟩ rest st =
      .error (if st.opCount + 1 ≤ ctx.budget then .aborted else .opBudget ctx.budget) st' := by
  have hget : (get : Effect State) st = .ok st st := rfl
  rw [perform_eq, bind_of_ok hget]
  by_cases hb : st.opCount + 1 ≤ ctx.budget
  · have henter : enter ctx (Operation.mk Opcode.abort []).code st = .ok () (st.counting Opcode.abort) :=
      enter_ok.mpr ⟨fun _ => hb, rfl, rfl⟩
    have hact : act ctx ⟨Opcode.abort, []⟩ rest true (st.counting Opcode.abort) =
        .error .aborted (st.counting Opcode.abort) := rfl
    rw [bind_of_ok henter, hx, bind_of_error hact, if_pos hb]
    exact ⟨_, rfl⟩
  · have hcount : countOps ctx 1 st = .error (.opBudget ctx.budget) { st with opCount := st.opCount + 1 } :=
      if_neg hb
    have henter : enter ctx Opcode.abort st = .error (.opBudget ctx.budget) { st with opCount := st.opCount + 1 } :=
      bind_of_error hcount
    rw [bind_of_error henter, if_neg hb]
    exact ⟨_, rfl⟩

end Effect

namespace Spend

variable {ctx : Context} {s unlocking locking : Script} {saved : Stack}

/-- The machine that is given does not matter: every script begins executing, with nothing counted. -/
theorem eval_unspendable (h : s.isUnspendable = true) (m : Machine) :
    ∃ m', Machine.eval ctx s m = .error (s.refusal ctx.budget) m' := by
  by_cases hl : s.length ≤ Script.maxLength
  · have hfits : ¬ Script.maxLength < s.length := Nat.not_lt_of_le hl
    obtain ⟨rest, hs⟩ := (Script.isUnspendable_iff.mp h).resolve_right hfits
    have hread : Operation.read? s.bytes = some (⟨Opcode.abort, []⟩, rest) := by
      rw [hs]
      exact Operation.read?_code (by decide)
    obtain ⟨st, hst⟩ := @Effect.perform_abort ctx rest (m.started s).state rfl
    have hrun : Machine.run ctx (m.started s) = .error (s.refusal ctx.budget) ⟨st, s, rest⟩ := by
      have hfault : (if (m.started s).state.opCount + 1 ≤ ctx.budget then Fault.aborted
          else .opBudget ctx.budget) = s.refusal ctx.budget := by
        have hcount : (m.started s).state.opCount = 0 := rfl
        rw [Script.refusal, if_neg hfits, hcount]
        rcases Nat.eq_zero_or_pos ctx.budget with hb | hb
        · simp [hb]
        · simp [Nat.one_le_iff_ne_zero.mpr hb.ne', hb.ne']
      exact Machine.run_of_perform_error hread (Nat.zero_le _) (hst.trans (by rw [hfault]))
    rw [Machine.eval_of_length hl]
    exact ⟨_, Effect.bind_of_error hrun⟩
  · have hrefusal : s.refusal ctx.budget = .scriptSize s.length := if_pos (Nat.lt_of_not_le hl)
    rw [Machine.eval_of_too_long hl, hrefusal]
    exact ⟨_, rfl⟩

theorem leaves_unspendable (h : s.isUnspendable = true) (main : Stack) :
    leaves ctx s main = .error (s.refusal ctx.budget) := by
  obtain ⟨m, hm⟩ := @eval_unspendable ctx s h (.ofStack main)
  simp [leaves, evalScript, hm]

/-- A spend gets as far as its unlocking script does, and no further. -/
theorem composed_unspendable (h : locking.isUnspendable = true) :
    composed ctx unlocking locking = (do
      if ctx.flags.has .sigPushOnly then requirePushOnly unlocking
      let _ ← leaves ctx unlocking []
      throw (locking.refusal ctx.budget)) := by
  have hstop (saved : Stack) : leaves ctx locking saved = .error (locking.refusal ctx.budget) :=
    leaves_unspendable h saved
  simp only [composed, hstop]
  rfl

theorem verifySpend_unspendable (h : locking.isUnspendable = true)
    (hp : ctx.flags.has .sigPushOnly = true → unlocking.isPushOnly = true)
    (hs : evalScript ctx unlocking [] = .ok () saved) :
    verifySpend ctx unlocking locking = .error (locking.refusal ctx.budget) := by
  have hmap : (verifySpend ctx unlocking locking).map (fun _ => ()) = .error (locking.refusal ctx.budget) := by
    rw [verifySpend_composed, composed_unspendable h, leaves_ok.mpr hs]
    cases hflag : ctx.flags.has .sigPushOnly with
    | false => rfl
    | true =>
      have hpush : requirePushOnly unlocking = .ok () := if_pos (hp hflag)
      rw [hpush]
      rfl
  cases hv : verifySpend ctx unlocking locking with
  | ok cost => simp [hv, Except.map] at hmap
  | error fault => simpa [hv, Except.map] using hmap

theorem not_accepts_unspendable (h : locking.isUnspendable = true) : ¬ Accepts ctx unlocking locking := by
  intro haccepts
  obtain ⟨-, saved, top, below, -, he, -⟩ := accepts_iff.mp haccepts
  have hstop : leaves ctx locking saved = .error (locking.refusal ctx.budget) := leaves_unspendable h saved
  rw [leaves_ok.mpr he] at hstop
  cases hstop

theorem exists_fault_iff :
    (∃ fault, verifySpend ctx unlocking locking = .error fault) ↔ ¬ Accepts ctx unlocking locking := by
  unfold Accepts
  cases verifySpend ctx unlocking locking <;> simp

end Spend

namespace Template

variable {flags : Flags} {s : Script}

/-- What publishes data begins with `OP_RETURN`. -/
theorem isUnspendable_of_public
    (h : ofScript flags s = .data ∨ ∃ length text, ofScript flags s = .label length text) :
    s.isUnspendable = true := by
  apply Script.isUnspendable_iff.mpr
  left
  rcases h with h | ⟨length, text, h⟩
  · obtain ⟨ops, hops⟩ := data?_shape (recognizer_of_ofScript h)
    exact hops.first
  · exact label_shape h

end Template

open Spend in
/-- No unlocking script spends an unspendable script, under any flags, with any budget, and whatever the checker
answers. Where the unlocking script itself succeeds, the spend stops because the locking script is too long, or
at its first operation. In particular nobody can spend an output that publishes data or a label. -/
theorem unspendable_outputs_refused (locking : Script) :
    (locking.isUnspendable = true → ∀ ctx unlocking,
      (∃ fault, verifySpend ctx unlocking locking = .error fault) ∧
      ∀ saved, (ctx.flags.has .sigPushOnly = true → unlocking.isPushOnly = true) →
        evalScript ctx unlocking [] = .ok () saved →
        verifySpend ctx unlocking locking = .error (locking.refusal ctx.budget)) ∧
    ∀ flags, (Template.ofScript flags locking = .data ∨
        ∃ length text, Template.ofScript flags locking = .label length text) →
      ∀ ctx unlocking, ∃ fault, verifySpend ctx unlocking locking = .error fault := by
  refine ⟨fun h ctx unlocking => ⟨?_, ?_⟩, fun flags h ctx unlocking => ?_⟩
  · exact exists_fault_iff.mpr (not_accepts_unspendable h)
  · intro saved hp hs
    exact verifySpend_unspendable h hp hs
  · exact exists_fault_iff.mpr (not_accepts_unspendable (Template.isUnspendable_of_public h))

/-- A true item on the stack and a checker that accepts every signature do not help. -/
theorem unspendable_outputs_refused_label :
    let locking : Script := ⟨[Opcode.abort, 0x52, 0x02, 0x68, 0x69]⟩
    let ctx : Context := ⟨.none, .lenient, 201⟩
    locking.isUnspendable = true ∧ Template.ofScript .none locking = .label [] [0x68, 0x69] ∧
      evalScript ctx ⟨[0x51]⟩ [] = .ok () [[1]] ∧ verifySpend ctx ⟨[0x51]⟩ locking = .error .aborted := by
  intro locking ctx
  have hl : locking.isUnspendable = true := by decide
  have ht : Template.ofScript .none locking = .label [] [0x68, 0x69] := by decide +kernel
  have he : evalScript ctx ⟨[0x51]⟩ [] = .ok () [[1]] := by decide +kernel
  have hflag : ctx.flags.has .sigPushOnly = true → Script.isPushOnly ⟨[0x51]⟩ = true := by decide
  have hstop := ((unspendable_outputs_refused locking).1 hl ctx ⟨[0x51]⟩).2 [[1]] hflag he
  exact ⟨hl, ht, he, hstop⟩

end CoinScript
