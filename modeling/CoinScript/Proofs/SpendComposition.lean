import CoinScript.Engine.Spend
import CoinScript.Proofs.SigCheckCount
import CoinScript.Proofs.TemplateRuns

namespace CoinScript

namespace Spend

/-- The stack that a script leaves when it runs by itself on a new machine. -/
def leaves (ctx : Context) (script : Script) (main : Stack) : Except Fault Stack :=
  match evalScript ctx script main with
  | .ok () main => .ok main
  | .error fault _ => .error fault

/-- What lies below a true item. -/
def belowTrue : Stack → Except Fault Stack
  | [] => .error .emptyStack
  | top :: below => if Number.isTrue top then .ok below else .error .falseTop

/-- The rule on what lies below the true item at the end. -/
def requireNothing (flags : Flags) (below : Stack) : Except Fault Unit :=
  if flags.has .cleanStack then
    if flags.has .p2sh then
      if below = [] then .ok () else .error (.leftOverItems below.length)
    else .error .cleanStackWithoutP2sh
  else .ok ()

/-- The end of a spend that has revealed a script, `below` being what was left with it. -/
def revealed (ctx : Context) (redeem : Script) (below : Stack) : Except Fault Unit := do
  if isSegwitRecovery ctx.flags redeem below then return
  let rest ← belowTrue (← leaves ctx redeem below)
  requireNothing ctx.flags rest

/-- A spend in which every script runs by itself, on the stack that another has left. -/
def composed (ctx : Context) (unlocking locking : Script) : Except Fault Unit := do
  if ctx.flags.has .sigPushOnly then requirePushOnly unlocking
  let saved ← leaves ctx unlocking []
  let below ← belowTrue (← leaves ctx locking saved)
  if ctx.flags.has .p2sh && locking.isP2sh ctx.flags then
    requirePushOnly unlocking
    revealed ctx ⟨saved.headD []⟩ saved.tail
  else requireNothing ctx.flags below

variable {ctx : Context} {unlocking locking script : Script} {s t : Stack} {m : Machine}

theorem leaves_ok : leaves ctx script s = .ok t ↔ evalScript ctx script s = .ok () t := by
  unfold leaves
  cases evalScript ctx script s <;> simp

/-- Of the machine that goes on to the next script, only the main stack matters. -/
theorem runScript_main (script : Script) (m : Machine) :
    (runScript ctx script m).map (fun m => m.state.main) = leaves ctx script m.state.main := by
  unfold runScript leaves evalScript
  rw [Machine.eval_fresh script { m with state := { m.state with alt := [] } }]
  cases h : Machine.eval ctx script (.ofStack m.state.main) with
  | ok u m' =>
    have he : Machine.eval ctx script { state := { main := m.state.main, alt := [] } } =
        .ok u m' := h
    rw [he]
    rfl
  | error fault m' =>
    have he : Machine.eval ctx script { state := { main := m.state.main, alt := [] } } =
        .error fault m' := h
    rw [he]
    rfl

theorem map_bind_runScript {α β : Type} {f : α → β} {next : Machine → Except Fault α}
    {next' : Stack → Except Fault β}
    (h : ∀ m', runScript ctx script m = .ok m' → (next m').map f = next' m'.state.main) :
    (runScript ctx script m >>= next).map f = leaves ctx script m.state.main >>= next' := by
  rw [← runScript_main]
  cases hr : runScript ctx script m with
  | error fault => rfl
  | ok m' => exact h m' hr

theorem map_bind_requireTrueTop {α β : Type} {f : α → β} {next : Except Fault α}
    {next' : Stack → Except Fault β}
    (h : ∀ top below, m.state.main = top :: below → next.map f = next' below) :
    (requireTrueTop m >>= fun _ => next).map f = belowTrue m.state.main >>= next' := by
  unfold requireTrueTop belowTrue
  cases hm : m.state.main with
  | nil => rfl
  | cons top below =>
    cases ht : Number.isTrue top with
    | false => simp [ht, bind, Except.bind, Except.map]
    | true => simpa [ht, bind, Except.bind] using h top below hm

/-- Under a true item there is one item less than in all, which the message counts. -/
theorem requireCleanStack_cons {flags : Flags} {top : Bytes} (h : m.state.main = top :: s) :
    requireCleanStack flags m = requireNothing flags s := by
  simp [requireCleanStack, requireNothing, h]

theorem ending_map {flags : Flags} :
    (do requireTrueTop m
        requireCleanStack flags m
        return cost m : Except Fault SpendCost).map (fun _ => ()) =
      (belowTrue m.state.main >>= requireNothing flags) := by
  apply map_bind_requireTrueTop
  intro top below hm
  rw [requireCleanStack_cons hm]
  cases requireNothing flags below <;> rfl

/-- A script hash fails on the empty stack, so a spend that gets past it has a script to reveal. -/
theorem leaves_scriptHash_nonempty {flags : Flags} (hl : locking.isP2sh flags = true)
    (h : leaves ctx locking s = .ok t) : ∃ item below, s = item :: below := by
  obtain ⟨id, rfl⟩ := Script.eq_payTo_of_isP2sh hl
  obtain ⟨-, item, below, hs, -⟩ := evalScript_scriptHash_ok.mp (leaves_ok.mp h)
  exact ⟨item, below, hs⟩

theorem verifySpend_composed (ctx : Context) (unlocking locking : Script) :
    (verifySpend ctx unlocking locking).map (fun _ => ()) = composed ctx unlocking locking := by
  unfold verifySpend composed
  extract_lets run run'
  have hrun : (run ()).map (fun _ => ()) = run' () := by
    apply map_bind_runScript
    intro m hm
    apply map_bind_runScript
    intro m' hm'
    split
    · next hp =>
      have hl : locking.isP2sh ctx.flags = true := (Bool.and_eq_true_iff.mp hp).2
      have hs : leaves ctx locking m.state.main = .ok m'.state.main := by
        rw [← runScript_main, hm']
        rfl
      obtain ⟨item, below, hi⟩ := leaves_scriptHash_nonempty hl hs
      apply map_bind_requireTrueTop
      intro top below' hm'
      rw [hi]
      cases requirePushOnly unlocking with
      | error fault => rfl
      | ok u =>
        dsimp only [revealed, List.headD, List.tail, bind, Except.bind]
        split
        · rfl
        · apply map_bind_runScript
          intro m hm
          exact ending_map
    · exact ending_map
  split
  · cases requirePushOnly unlocking with
    | error fault => rfl
    | ok u => exact hrun
  · exact hrun

theorem below_of_requireTrueTop (h : requireTrueTop m = .ok ()) :
    ∃ top below, m.state.main = top :: below ∧ Number.isTrue top = true := by
  unfold requireTrueTop at h
  split at h
  · cases h
  · next top below hm =>
    split at h
    · next ht => exact ⟨top, below, hm, ht⟩
    · cases h

/-- A spend is the composition of the evaluations of its scripts, with the same fault where it
fails. No script sees more of an earlier one than its main stack, whatever else the machine holds;
there is always a script to reveal after a script hash; and the items that a clean stack must not
have are counted on a stack that has one more. -/
theorem spend_is_composition (ctx : Context) (unlocking locking : Script) :
    (verifySpend ctx unlocking locking).map (fun _ => ()) = composed ctx unlocking locking ∧
      (∀ script m, (runScript ctx script m).map (fun m => m.state.main) =
        leaves ctx script m.state.main) ∧
      (∀ saved left, locking.isP2sh ctx.flags = true → leaves ctx locking saved = .ok left →
        saved = saved.headD [] :: saved.tail) ∧
      (∀ m, requireTrueTop m = .ok () →
        ∃ below, requireCleanStack ctx.flags m = requireNothing ctx.flags below ∧
          m.state.main.length = below.length + 1) := by
  refine ⟨verifySpend_composed ctx unlocking locking, runScript_main, ?_, ?_⟩
  · intro saved left hl h
    obtain ⟨item, below, rfl⟩ := leaves_scriptHash_nonempty hl h
    rfl
  · intro m h
    obtain ⟨top, below, hm, -⟩ := below_of_requireTrueTop h
    refine ⟨below, requireCleanStack_cons hm, ?_⟩
    rw [hm, List.length_cons]

end Spend

/-- Whether an unlocking script spends a locking script, at whatever cost. -/
def Accepts (ctx : Context) (unlocking locking : Script) : Prop :=
  ∃ cost, verifySpend ctx unlocking locking = .ok cost

instance (ctx : Context) (unlocking locking : Script) : Decidable (Accepts ctx unlocking locking) :=
  decidable_of_iff ((verifySpend ctx unlocking locking).isOk = true) (by
    unfold Accepts
    cases verifySpend ctx unlocking locking <;> simp [Except.isOk, Except.toBool])

namespace Spend

/-- What the rule on a clean stack demands of the items below the true one. -/
def Clean (flags : Flags) (below : Stack) : Prop :=
  flags.has .cleanStack = true → flags.has .p2sh = true ∧ below = []

/-- A revealed script succeeds on what was left with it, or is one that may be recovered. -/
def Reveals (ctx : Context) (redeem : Script) (below : Stack) : Prop :=
  isSegwitRecovery ctx.flags redeem below = true ∨
    ∃ top rest, evalScript ctx redeem below = .ok () (top :: rest) ∧ Number.isTrue top = true ∧
      Clean ctx.flags rest

variable {ctx : Context} {unlocking locking script redeem : Script} {s t below : Stack}

theorem requirePushOnly_bind_ok {next : Except Fault Unit} :
    (requirePushOnly script >>= fun _ => next) = .ok () ↔
      script.isPushOnly = true ∧ next = .ok () := by
  cases h : script.isPushOnly <;> simp [requirePushOnly, h, bind, Except.bind]

theorem requireNothing_ok {flags : Flags} :
    requireNothing flags below = .ok () ↔ Clean flags below := by
  unfold requireNothing Clean
  cases flags.has .cleanStack <;> cases flags.has .p2sh <;> by_cases h : below = [] <;> simp [h]

theorem belowTrue_ok :
    belowTrue s = .ok t ↔ ∃ top, s = top :: t ∧ Number.isTrue top = true := by
  constructor
  · intro h
    unfold belowTrue at h
    split at h
    · cases h
    · next top below =>
      split at h
      · next ht =>
        cases h
        exact ⟨top, rfl, ht⟩
      · cases h
  · intro h
    obtain ⟨top, rfl, ht⟩ := h
    exact if_pos ht

theorem evaluation_ok {next : Stack → Except Fault Unit} :
    (leaves ctx script s >>= fun t => belowTrue t >>= next) = .ok () ↔
      ∃ top below, evalScript ctx script s = .ok () (top :: below) ∧ Number.isTrue top = true ∧
        next below = .ok () := by
  simp only [except_bind_ok, leaves_ok, belowTrue_ok]
  constructor
  · intro h
    obtain ⟨_, he, below, ⟨top, rfl, ht⟩, hn⟩ := h
    exact ⟨top, below, he, ht, hn⟩
  · intro h
    obtain ⟨top, below, he, ht, hn⟩ := h
    exact ⟨_, he, below, ⟨top, rfl, ht⟩, hn⟩

theorem revealed_ok : revealed ctx redeem below = .ok () ↔ Reveals ctx redeem below := by
  unfold revealed Reveals
  split
  · next h => simp [h, except_pure_ok]
  · next h =>
    rw [evaluation_ok]
    simp only [requireNothing_ok, h, Bool.false_eq_true, false_or]

/-- What a spend still depends on when the locking script has left a true item above `below`. -/
def Settles (ctx : Context) (unlocking locking : Script) (saved below : Stack) : Prop :=
  if ctx.flags.has .p2sh && locking.isP2sh ctx.flags then
    unlocking.isPushOnly = true ∧ Reveals ctx ⟨saved.headD []⟩ saved.tail
  else Clean ctx.flags below

/-- A spend is accepted if its scripts succeed, each on what the one before has left. -/
theorem accepts_iff :
    Accepts ctx unlocking locking ↔
      (ctx.flags.has .sigPushOnly = true → unlocking.isPushOnly = true) ∧
        ∃ saved top below, evalScript ctx unlocking [] = .ok () saved ∧
          evalScript ctx locking saved = .ok () (top :: below) ∧ Number.isTrue top = true ∧
          Settles ctx unlocking locking saved below := by
  have hc : Accepts ctx unlocking locking ↔ composed ctx unlocking locking = .ok () := by
    rw [← verifySpend_composed]
    unfold Accepts
    cases verifySpend ctx unlocking locking <;> simp [Except.map]
  rw [hc]
  unfold composed Settles
  extract_lets run
  have hrun : run () = .ok () ↔
      ∃ saved top below, evalScript ctx unlocking [] = .ok () saved ∧
        evalScript ctx locking saved = .ok () (top :: below) ∧ Number.isTrue top = true ∧
        if ctx.flags.has .p2sh && locking.isP2sh ctx.flags then
          unlocking.isPushOnly = true ∧ Reveals ctx ⟨saved.headD []⟩ saved.tail
        else Clean ctx.flags below := by
    refine except_bind_ok.trans ?_
    simp only [leaves_ok, evaluation_ok]
    split
    · simp only [requirePushOnly_bind_ok, revealed_ok, exists_and_left]
    · simp only [requireNothing_ok, exists_and_left]
  cases hp : ctx.flags.has .sigPushOnly with
  | false => simpa [hp] using hrun
  | true =>
    rw [← hrun, forall_prop_of_true rfl]
    exact requirePushOnly_bind_ok

/-- Why a spend is refused: one of its scripts fails by itself, or a rule on the scripts and on what they leave is
broken. -/
inductive Refused (ctx : Context) (unlocking : Script) (fault : Fault) : Prop
  | script {script : Script} {main : Stack} (h : leaves ctx script main = .error fault)
  | pushes (h : unlocking.isPushOnly = false) (hcode : fault.code = .sigPushOnly)
  | top (hcode : fault.code = .evalFalse)
  | rest (h : ctx.flags.has .cleanStack = true)
      (hcode : fault.code = if ctx.flags.has .p2sh then .cleanStack else .unknownError)

section Refusals

variable {fault : Fault}

theorem requirePushOnly_refused (h : requirePushOnly unlocking = .error fault) : Refused ctx unlocking fault := by
  unfold requirePushOnly at h
  split at h
  · cases h
  · next hpush =>
    cases h
    exact .pushes (Bool.of_not_eq_true hpush) rfl

theorem belowTrue_refused (h : belowTrue s = .error fault) : Refused ctx unlocking fault := by
  unfold belowTrue at h
  split at h
  · cases h
    exact .top rfl
  · split at h
    · cases h
    · cases h
      exact .top rfl

theorem requireNothing_refused (h : requireNothing ctx.flags below = .error fault) : Refused ctx unlocking fault := by
  unfold requireNothing at h
  split at h
  · next hclean =>
    split at h
    · next hp2sh =>
      split at h
      · cases h
      · cases h
        exact .rest hclean (if_pos hp2sh).symm
    · next hp2sh =>
      cases h
      exact .rest hclean (if_neg hp2sh).symm
  · cases h

theorem evaluation_refused {next : Stack → Except Fault Unit}
    (h : (leaves ctx script s >>= fun t => belowTrue t >>= next) = .error fault)
    (hnext : ∀ below, next below = .error fault → Refused ctx unlocking fault) : Refused ctx unlocking fault := by
  rcases except_bind_error.mp h with hscript | ⟨t, -, h⟩
  · exact .script hscript
  · rcases except_bind_error.mp h with htop | ⟨below, -, h⟩
    · exact belowTrue_refused htop
    · exact hnext below h

theorem revealed_refused (h : revealed ctx redeem below = .error fault) : Refused ctx unlocking fault := by
  unfold revealed at h
  split at h
  · cases h
  · exact evaluation_refused h fun _ => requireNothing_refused

/-- A spend that is refused fails in a script, or with the code of the rule that it breaks. -/
theorem verifySpend_refused (h : verifySpend ctx unlocking locking = .error fault) : Refused ctx unlocking fault := by
  have hcomposed : composed ctx unlocking locking = .error fault := by
    rw [← verifySpend_composed, h]
    rfl
  unfold composed at hcomposed
  extract_lets run at hcomposed
  have hrun (h : run () = .error fault) : Refused ctx unlocking fault := by
    rcases except_bind_error.mp h with hscript | ⟨saved, -, h⟩
    · exact .script hscript
    · refine evaluation_refused h fun below h => ?_
      split at h
      · rcases except_bind_error.mp h with hpush | ⟨_, -, h⟩
        · exact requirePushOnly_refused hpush
        · exact revealed_refused h
      · exact requireNothing_refused h
  split at hcomposed
  · rcases except_bind_error.mp hcomposed with hpush | ⟨_, -, h⟩
    · exact requirePushOnly_refused hpush
    · exact hrun h
  · exact hrun hcomposed

end Refusals

end Spend

end CoinScript
