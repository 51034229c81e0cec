import CoinScript.Proofs.Instructions
import CoinScript.Proofs.Running

namespace CoinScript

/-- The flags that only make spends fail. -/
def Flag.restrictive : List Flag :=
  [.strictEncoding, .strictDer, .nullDummy, .sigPushOnly, .minimalData, .discourageNops, .cleanStack,
   .minimalIf, .nullFail, .compressedKeys, .checkLockTime, .checkSequence, .noSegwitRecovery]

/-- The second set may lack restrictive flags of the first; in the others they agree. -/
structure Flags.Eases (F F' : Flags) : Prop where
  fewer : ∀ f, F'.has f = true → F.has f = true
  others : ∀ f, f ∉ Flag.restrictive → F'.has f = F.has f

/-- The second context gives the same answers and demands no more. -/
structure Context.Eases (ctx ctx' : Context) : Prop where
  checker : ctx'.checker = ctx.checker
  budget : ctx.budget ≤ ctx'.budget
  flags : ctx.flags.Eases ctx'.flags

/-- What the first step succeeds with, the second succeeds with, too. -/
def Allows {ε σ α : Type} (e e' : EStateM ε σ α) : Prop :=
  ∀ s a t, e s = .ok a t → e' s = .ok a t

namespace Allows

variable {ε σ α β : Type} {e e' : EStateM ε σ α}

theorem refl (e : EStateM ε σ α) : Allows e e := fun _ _ _ h => h

theorem bind {next next' : α → EStateM ε σ β} (he : Allows e e')
    (hn : ∀ a, Allows (next a) (next' a)) : Allows (e >>= next) (e' >>= next') := by
  intro s b t h
  obtain ⟨a, u, ha, hb⟩ := Effect.bind_ok.mp h
  exact Effect.bind_ok.mpr ⟨a, u, he s a u ha, hn a u b t hb⟩

/-- What comes after a common step. -/
theorem after {next next' : α → EStateM ε σ β} (hn : ∀ a, Allows (next a) (next' a)) :
    Allows (e >>= next) (e >>= next') := bind (refl e) hn

end Allows

namespace Effect

variable {α : Type} {ctx ctx' : Context}

theorem onMain_eases {step step' : StackStep α} (h : Allows step step') :
    Allows (onMain step) (onMain step') := by
  intro st a st' hs
  obtain ⟨s, hm, rfl⟩ := onMain_ok.mp hs
  exact onMain_ok.mpr ⟨s, h st.main a s hm, rfl⟩

theorem orFail_eases {x x' : Except Fault α} (h : ∀ a, x = .ok a → x' = .ok a) :
    Allows (orFail x) (orFail x') := by
  intro st a st' hs
  obtain ⟨hx, rfl⟩ := orFail_ok.mp hs
  exact orFail_ok.mpr ⟨h a hx, rfl⟩

theorem demand_eases {c c' : Bool} {fault fault' : Fault} (h : c = true → c' = true) :
    Allows (demand c fault) (demand c' fault') := by
  intro st u st' hs
  obtain ⟨hc, rfl⟩ := demand_ok.mp hs
  exact demand_ok.mpr ⟨h hc, rfl⟩

/-- A check that leaves the state alone may be dropped with its flag. -/
theorem checked_eases {F F' : Flags} {f : Flag} {e e' : Effect Unit} (h : F.Eases F')
    (he : Allows e e') (hk : ∀ st u st', e st = .ok u st' → st = st') :
    Allows (if F.has f then e else pure ()) (if F'.has f then e' else pure ()) := by
  intro st u st' hs
  cases hf' : F'.has f with
  | true =>
    rw [h.fewer f hf'] at hs
    exact he st u st' hs
  | false =>
    cases hf : F.has f with
    | true =>
      rw [hf] at hs
      exact pure_ok.mpr ⟨rfl, hk st u st' hs⟩
    | false =>
      rw [hf] at hs
      exact hs

theorem countOps_eases (h : ctx.Eases ctx') (n : Nat) : Allows (countOps ctx n) (countOps ctx' n) := by
  intro st u st' hs
  obtain ⟨hb, rfl⟩ := countOps_ok.mp hs
  exact countOps_ok.mpr ⟨Nat.le_trans hb h.budget, rfl⟩

end Effect

theorem Context.Eases.minimal {ctx ctx' : Context} (h : ctx.Eases ctx') :
    ctx'.minimal = true → ctx.minimal = true := h.flags.fewer .minimalData

namespace Number

variable {minimal minimal' : Bool} {limit : Nat} {item : Bytes} {n : Int}

/-- A number that is read as shortest form only is read the same without that demand. -/
theorem decode_eases (hm : minimal' = true → minimal = true)
    (h : decode minimal limit item = .ok n) : decode minimal' limit item = .ok n := by
  unfold decode at h ⊢
  split
  · next hl => simp [hl] at h
  · next hl =>
    rw [if_neg hl] at h
    split at h
    · cases h
    · next hi =>
      rw [if_neg]
      · exact h
      · intro hi'
        rw [Bool.and_eq_true] at hi hi'
        exact hi ⟨hm hi'.1, hi'.2⟩

theorem operand_eases (hm : minimal' = true → minimal = true) (item : Bytes) :
    (∃ fault, operand minimal item = .error fault) ∨
      ∃ n, operand minimal item = .ok n ∧ operand minimal' item = .ok n := by
  cases h : operand minimal item with
  | error fault => exact .inl ⟨fault, rfl⟩
  | ok n => exact .inr ⟨n, rfl, decode_eases hm h⟩

end Number

namespace Data

variable {minimal minimal' : Bool}

theorem onTwo_eases {f f' : Bytes → Bytes → Except Fault (List Bytes)}
    (h : ∀ a b items, f a b = .ok items → f' a b = .ok items) : Allows (onTwo f) (onTwo f') := by
  intro s u t hs
  obtain ⟨b, a, below, items, rfl, hf, rfl⟩ := onTwo_ok.mp hs
  exact onTwo_ok.mpr ⟨b, a, below, items, rfl, h a b items hf, rfl⟩

theorem split_eases (hm : minimal' = true → minimal = true) :
    Allows (split minimal) (split minimal') := by
  apply onTwo_eases
  intro a n items h
  obtain ⟨position, hp, h⟩ := except_bind_ok.mp h
  exact except_bind_ok.mpr ⟨position, Number.decode_eases hm hp, h⟩

theorem toWidth_eases (hm : minimal' = true → minimal = true) :
    Allows (toWidth minimal) (toWidth minimal') := by
  intro s u t h
  match s with
  | [] => exact h
  | [_] => exact h
  | n :: x :: s =>
    rcases Number.operand_eases hm n with ⟨fault, ho⟩ | ⟨size, ho, ho'⟩
    · simp [toWidth, ho] at h
    · simp only [toWidth, ho] at h
      simp only [toWidth, ho']
      exact h

theorem pickOrRoll_eases (hm : minimal' = true → minimal = true) (move : Bool) :
    Allows (pickOrRoll minimal move) (pickOrRoll minimal' move) := by
  intro s u t h
  match s with
  | [] => exact h
  | [_] => exact h
  | n :: x :: s =>
    rcases Number.operand_eases hm n with ⟨fault, ho⟩ | ⟨index, ho, ho'⟩
    · simp [pickOrRoll, ho] at h
    · simp only [pickOrRoll, ho] at h
      simp only [pickOrRoll, ho']
      exact h

theorem unary_eases (hm : minimal' = true → minimal = true) (op : Unary) :
    Allows (unary minimal op) (unary minimal' op) := by
  intro s u t h
  match s with
  | [] => exact h
  | n :: s =>
    rcases Number.operand_eases hm n with ⟨fault, ho⟩ | ⟨a, ho, ho'⟩
    · simp [unary, ho] at h
    · simp only [unary, ho] at h
      simp only [unary, ho']
      exact h

theorem binary_eases (hm : minimal' = true → minimal = true) (op : Binary) :
    Allows (binary minimal op) (binary minimal' op) := by
  apply onTwo_eases
  intro a b items h
  obtain ⟨x, hx, h⟩ := except_bind_ok.mp h
  obtain ⟨y, hy, h⟩ := except_bind_ok.mp h
  have hx' : Number.operand minimal' a = .ok x := Number.decode_eases hm hx
  have hy' : Number.operand minimal' b = .ok y := Number.decode_eases hm hy
  exact except_bind_ok.mpr ⟨x, hx', except_bind_ok.mpr ⟨y, hy', h⟩⟩

theorem within_eases (hm : minimal' = true → minimal = true) :
    Allows (within minimal) (within minimal') := by
  intro s u t h
  match s with
  | [] => exact h
  | [_] => exact h
  | [_, _] => exact h
  | high :: low :: n :: s =>
    simp only [within] at h ⊢
    split at h
    · next item hi =>
      obtain ⟨x, hx, hi⟩ := except_bind_ok.mp hi
      obtain ⟨lo, hlo, hi⟩ := except_bind_ok.mp hi
      obtain ⟨up, hup, hi⟩ := except_bind_ok.mp hi
      have hx' : Number.operand minimal' n = .ok x := Number.decode_eases hm hx
      have hlo' : Number.operand minimal' low = .ok lo := Number.decode_eases hm hlo
      have hup' : Number.operand minimal' high = .ok up := Number.decode_eases hm hup
      cases hi
      simp only [hx', hlo', hup']
      exact h
    · cases h

theorem reverse_eases {F F' : Flags} (h : F.Eases F') : Allows (reverse F) (reverse F') := by
  unfold reverse
  rw [h.others .reverseBytes (by decide)]
  exact .refl _

end Data

namespace Control

open Effect

variable {ctx ctx' : Context}

theorem branch_eases (h : ctx.Eases ctx') (on executing : Bool) :
    Allows (branch ctx on executing) (branch ctx' on executing) := by
  intro st u st' hs
  cases executing with
  | false => exact hs
  | true =>
    unfold branch at hs ⊢
    cases hm : st.main with
    | nil => simp [hm] at hs
    | cons top s =>
      simp only [hm, if_true] at hs ⊢
      split at hs
      · cases hs
      · next hc =>
        rw [if_neg]
        · exact hs
        · intro hc'
          rw [Bool.and_eq_true] at hc hc'
          exact hc ⟨h.flags.fewer .minimalIf hc'.1, hc'.2⟩

theorem lockTimeOperand_eases (h : ctx.Eases ctx') :
    Allows (lockTimeOperand ctx) (lockTimeOperand ctx') := by
  apply Allows.after
  intro _
  apply Allows.after
  intro st
  apply Allows.bind
  · apply orFail_eases
    intro n hn
    exact Number.decode_eases h.minimal hn
  · intro n
    exact .refl _

theorem lockTimeOperand_ok {st st' : State} {n : Int} (h : lockTimeOperand ctx st = .ok n st') :
    st = st' := by
  obtain ⟨_, _, hr, h⟩ := bind_ok.mp h
  obtain ⟨-, rfl⟩ := require_ok.mp hr
  obtain ⟨_, _, hg, h⟩ := bind_ok.mp h
  obtain ⟨rfl, rfl⟩ := get_ok.mp hg
  obtain ⟨_, _, ho, h⟩ := bind_ok.mp h
  obtain ⟨-, rfl⟩ := orFail_ok.mp ho
  obtain ⟨_, _, hd, h⟩ := bind_ok.mp h
  obtain ⟨-, rfl⟩ := demand_ok.mp hd
  exact (pure_ok.mp h).2

theorem lockTime_kept {c : Int → Bool} {fault : Int → Fault} {st st' : State} {u : Unit}
    (h : (lockTimeOperand ctx >>= fun n => demand (c n) (fault n)) st = .ok u st') : st = st' := by
  obtain ⟨n, _, hn, h⟩ := bind_ok.mp h
  cases lockTimeOperand_ok hn
  exact (demand_ok.mp h).2

theorem checkLockTime_eases (h : ctx.Eases ctx') :
    Allows (checkLockTime ctx) (checkLockTime ctx') := by
  apply checked_eases h.flags
  · rw [h.checker]
    exact (lockTimeOperand_eases h).bind fun n => .refl _
  · intro st u st' hs
    exact lockTime_kept hs

theorem checkSequence_eases (h : ctx.Eases ctx') :
    Allows (checkSequence ctx) (checkSequence ctx') := by
  apply checked_eases h.flags
  · rw [h.checker]
    exact (lockTimeOperand_eases h).bind fun n => .refl _
  · intro st u st' hs
    exact lockTime_kept hs

end Control

end CoinScript
