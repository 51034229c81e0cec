import CoinScript.Proofs.SigningEasing
import CoinScript.Proofs.SpendComposition

namespace CoinScript

variable {ctx ctx' : Context}

/-- An instruction that succeeds does the same in a context that demands less. -/
theorem Instruction.run_eases (h : ctx.Eases ctx') (op : Opcode) (executing : Bool) (rest : Bytes)
    (i : Instruction) : Allows (i.run ctx op executing rest) (i.run ctx' op executing rest) := by
  have hm := h.minimal
  cases i with
  | reservedNop =>
    apply Effect.demand_eases
    intro hn
    rw [Bool.not_eq_true', Bool.eq_false_iff] at hn ⊢
    exact fun hn' => hn (h.flags.fewer _ hn')
  | checkLockTime => exact Control.checkLockTime_eases h
  | checkSequence => exact Control.checkSequence_eases h
  | branch on => exact Control.branch_eases h on executing
  | pick => exact Effect.onMain_eases (Data.pickOrRoll_eases hm false)
  | roll => exact Effect.onMain_eases (Data.pickOrRoll_eases hm true)
  | split => exact Effect.onMain_eases (Data.split_eases hm)
  | reverse => exact Effect.onMain_eases (Data.reverse_eases h.flags)
  | toWidth => exact Effect.onMain_eases (Data.toWidth_eases hm)
  | unary u => exact Effect.onMain_eases (Data.unary_eases hm u)
  | binary b insist =>
    apply (Effect.onMain_eases (Data.binary_eases hm b)).bind
    intro _
    exact .refl _
  | within => exact Effect.onMain_eases (Data.within_eases hm)
  | checkSig insist => exact Signing.checkSig_eases h insist
  | checkMultisig insist => exact Signing.checkMultisig_eases h insist
  | checkDataSig insist => exact Signing.checkDataSig_eases h insist
  | _ => exact .refl _

namespace Effect

theorem pushData_eases (h : ctx.Eases ctx') (op : Operation) :
    Allows (pushData ctx op) (pushData ctx' op) := by
  intro st u st' hs
  obtain ⟨hm, hs⟩ := pushData_ok.mp hs
  exact pushData_ok.mpr ⟨fun hm' => hm (h.minimal hm'), hs⟩

theorem act_eases (h : ctx.Eases ctx') (op : Operation) (rest : Bytes) (executing : Bool) :
    Allows (act ctx op rest executing) (act ctx' op rest executing) := by
  unfold act
  split
  · exact pushData_eases h op
  · split
    · exact Instruction.run_eases h op.code executing rest _
    · exact .refl _

theorem perform_eases (h : ctx.Eases ctx') (op : Operation) (rest : Bytes) :
    Allows (perform ctx op rest) (perform ctx' op rest) := by
  intro st u st' hs
  obtain ⟨hb, hd, ha, hl⟩ := perform_ok.mp hs
  refine perform_ok.mpr ⟨?_, hd, act_eases h op rest _ _ _ _ ha, hl⟩
  intro hc
  exact Nat.le_trans (hb hc) h.budget

end Effect

namespace Machine

theorem step_eases (h : ctx.Eases ctx') : Allows (step ctx) (step ctx') := by
  intro m u m' hs
  cases hn : m.next with
  | error fault => simp [step, hn] at hs
  | ok found =>
    obtain ⟨op, rest⟩ := found
    obtain ⟨st, hp, rfl⟩ := (step_next_ok hn).mp hs
    exact (step_next_ok hn).mpr ⟨st, Effect.perform_eases h op rest _ _ _ hp, rfl⟩

/-- By induction on the stricter run, which the other follows step by step. -/
theorem run_eases (h : ctx.Eases ctx') (m m' : Machine) (hr : run ctx m = .ok () m') :
    run ctx' m = .ok () m' := by
  induction m using run.induct ctx with
  | case1 m hf =>
    have hu : m.unread = [] := List.isEmpty_iff.mp hf
    rw [run_done hu] at hr ⊢
    exact hr
  | case2 m hf t hs ih =>
    rw [run_step_ok hs] at hr
    rw [run_step_ok (step_eases h _ _ _ hs)]
    exact ih hr
  | case3 m hf fault t hs =>
    rw [run_step_error (by simpa using hf) hs] at hr
    cases hr

end Machine

theorem evalScript_eases (h : ctx.Eases ctx') (script : Script) :
    Allows (evalScript ctx script) (evalScript ctx' script) := by
  intro s u t he
  obtain ⟨hl, m, hr, hb, hm⟩ := evalScript_ok.mp he
  exact evalScript_ok.mpr ⟨hl, m, Machine.run_eases h _ m hr, hb, hm⟩

namespace Spend

theorem clean_eases {F F' : Flags} {below : Stack} (h : F.Eases F') (hc : Clean F below) :
    Clean F' below := by
  intro hf
  obtain ⟨hp, hb⟩ := hc (h.fewer _ hf)
  refine ⟨?_, hb⟩
  rw [h.others .p2sh (by decide)]
  exact hp

/-- A script that had to succeed may now be let through without being run, which also accepts. -/
theorem reveals_eases (h : ctx.Eases ctx') {redeem : Script} {below : Stack}
    (hr : Reveals ctx redeem below) : Reveals ctx' redeem below := by
  rcases hr with hr | ⟨top, rest, he, ht, hc⟩
  · refine .inl ?_
    simp only [isSegwitRecovery, Bool.and_eq_true, Bool.not_eq_true'] at hr ⊢
    refine ⟨⟨?_, hr.1.2⟩, hr.2⟩
    rw [Bool.eq_false_iff]
    intro hf
    rw [h.flags.fewer _ hf] at hr
    cases hr.1.1
  · exact .inr ⟨top, rest, evalScript_eases h redeem below () _ he, ht, clean_eases h.flags hc⟩

theorem settles_eases (h : ctx.Eases ctx') {unlocking locking : Script} {saved below : Stack}
    (hs : Settles ctx unlocking locking saved below) :
    Settles ctx' unlocking locking saved below := by
  have hp : ctx'.flags.has .p2sh = ctx.flags.has .p2sh := h.flags.others _ (by decide)
  have hl : locking.isP2sh ctx'.flags = locking.isP2sh ctx.flags := by
    simp only [Script.isP2sh, h.flags.others .p2sh32 (by decide)]
  unfold Settles at hs ⊢
  rw [hp, hl]
  split
  · next hc =>
    rw [if_pos hc] at hs
    exact ⟨hs.1, reveals_eases h hs.2⟩
  · next hc =>
    rw [if_neg hc] at hs
    exact clean_eases h.flags hs

theorem accepts_eases (h : ctx.Eases ctx') {unlocking locking : Script}
    (ha : Accepts ctx unlocking locking) : Accepts ctx' unlocking locking := by
  obtain ⟨hp, saved, top, below, hu, hl, ht, hs⟩ := accepts_iff.mp ha
  refine accepts_iff.mpr ⟨fun hf => hp (h.flags.fewer _ hf), saved, top, below, ?_, ?_, ht, ?_⟩
  · exact evalScript_eases h unlocking _ _ _ hu
  · exact evalScript_eases h locking _ _ _ hl
  · exact settles_eases h hs

end Spend

namespace Flags

variable {F G : Flags}

theorem without_eases (hG : ∀ f, G.has f = true → f ∈ Flag.restrictive) :
    F.Eases (F.without G) where
  fewer f hf := by
    rw [has_without, Bool.and_eq_true] at hf
    exact hf.1
  others f hf := by
    have hg : G.has f = false := by
      rw [Bool.eq_false_iff]
      exact fun hg => hf (hG f hg)
    rw [has_without, hg, Bool.not_false, Bool.and_true]

theorem union_eases (hG : ∀ f, G.has f = true → f ∈ Flag.restrictive) : (F.union G).Eases F where
  fewer f hf := by
    rw [has_union, hf, Bool.true_or]
  others f hf := by
    have hg : G.has f = false := by
      rw [Bool.eq_false_iff]
      exact fun hg => hf (hG f hg)
    rw [has_union, hg, Bool.or_false]

end Flags

/-- Dropping flags that only forbid keeps a spend accepted, and adding them never makes one
acceptable that was not. -/
theorem restrictive_flags_monotone (ctx : Context) (unlocking locking : Script) (G : Flags)
    (hG : ∀ f, G.has f = true → f ∈ Flag.restrictive) :
    (Accepts ctx unlocking locking →
        Accepts { ctx with flags := ctx.flags.without G } unlocking locking) ∧
      (¬ Accepts ctx unlocking locking →
        ¬ Accepts { ctx with flags := ctx.flags.union G } unlocking locking) := by
  have hwithout : ctx.Eases { ctx with flags := ctx.flags.without G } :=
    ⟨rfl, Nat.le_refl _, Flags.without_eases hG⟩
  have hunion : Context.Eases { ctx with flags := ctx.flags.union G } ctx :=
    ⟨rfl, Nat.le_refl _, Flags.union_eases hG⟩
  constructor
  · intro ha
    exact Spend.accepts_eases hwithout ha
  · intro hn ha
    exact hn (Spend.accepts_eases hunion ha)

/-- A spend that is clean and minimal, and one that fails for another reason. -/
theorem restrictive_flags_monotone_nop :
    Accepts ⟨(Flags.ofList [.p2sh, .minimalData, .cleanStack]).without
        (.ofList [.minimalData, .cleanStack]), .none, 201⟩ ⟨[0x51]⟩ ⟨[0x61]⟩ ∧
      ¬ Accepts ⟨(Flags.ofList [.p2sh]).union (.ofList [.minimalData, .cleanStack]), .none, 201⟩
        ⟨[0x00]⟩ ⟨[0x61]⟩ := by
  have hG : ∀ f, (Flags.ofList [.minimalData, .cleanStack]).has f = true →
      f ∈ Flag.restrictive := by
    intro f
    cases f <;> decide
  have hspend : Accepts ⟨.ofList [.p2sh, .minimalData, .cleanStack], .none, 201⟩ ⟨[0x51]⟩
      ⟨[0x61]⟩ := by decide +kernel
  have hfail : ¬ Accepts ⟨.ofList [.p2sh], .none, 201⟩ ⟨[0x00]⟩ ⟨[0x61]⟩ := by decide +kernel
  constructor
  · exact (restrictive_flags_monotone ⟨.ofList [.p2sh, .minimalData, .cleanStack], .none, 201⟩
      ⟨[0x51]⟩ ⟨[0x61]⟩ (.ofList [.minimalData, .cleanStack]) hG).1 hspend
  · exact (restrictive_flags_monotone ⟨.ofList [.p2sh], .none, 201⟩
      ⟨[0x00]⟩ ⟨[0x61]⟩ (.ofList [.minimalData, .cleanStack]) hG).2 hfail

end CoinScript
