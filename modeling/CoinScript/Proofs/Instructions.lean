import CoinScript.Proofs.Outcome
import CoinScript.Engine.Perform

namespace CoinScript

theorem Number.isTrue_ofBool (b : Bool) : Number.isTrue (Number.ofBool b) = b := by
  cases b <;> rfl

variable {ctx : Context} {op : Opcode} {rest : Bytes} {executing : Bool} {st st' : State} {u : Unit}

open Effect

namespace Data

variable {s t : Stack}

theorem onTop_ok {f : Bytes → Except Fault Bytes} :
    onTop f s = .ok u t ↔ ∃ top below item, s = top :: below ∧ f top = .ok item ∧ item :: below = t := by
  cases s with
  | nil => simp [onTop]
  | cons top below => cases h : f top <;> simp [onTop, h, and_assoc]

theorem onTwo_ok {f : Bytes → Bytes → Except Fault (List Bytes)} :
    onTwo f s = .ok u t ↔
      ∃ b a below items, s = b :: a :: below ∧ f a b = .ok items ∧ items ++ below = t := by
  match s with
  | [] => simp [onTwo]
  | [_] => simp [onTwo]
  | b :: a :: below => cases h : f a b <;> simp [onTwo, h, and_assoc]

theorem onTwo_error {f : Bytes → Bytes → Except Fault (List Bytes)} {fault : Fault} :
    onTwo f s = .error fault t ↔
      s = t ∧ ((s.length < 2 ∧ .tooFewItems 2 s.length = fault) ∨
        ∃ b a below, s = b :: a :: below ∧ f a b = .error fault) := by
  match s with
  | [] => simp [onTwo, and_comm]
  | [_] => simp [onTwo, and_comm]
  | b :: a :: below =>
    have hl : ¬ below.length + 1 + 1 < 2 := by omega
    cases h : f a b <;> simp [onTwo, h, hl, and_assoc, and_comm (a := b :: a :: below = t)]

theorem hash_ok {kind : HashKind} :
    hash kind s = .ok u t ↔ ∃ top below, s = top :: below ∧ kind.digest top :: below = t :=
  onTop_ok.trans (by simp)

theorem equal_ok :
    equal s = .ok u t ↔
      ∃ b a below, s = b :: a :: below ∧ Number.ofBool (a == b) :: below = t :=
  onTwo_ok.trans (by simp)

end Data

namespace Signing

theorem nullFail_ok {flags : Flags} {success : Bool} {sig : Bytes} :
    nullFail flags success sig = .ok u ↔
      (success = false → sig ≠ [] → flags.has .nullFail = false) := by
  unfold nullFail
  rw [Encoding.demand_ok]
  cases success <;> by_cases h : sig = [] <;> simp [h]

/-- A check gives an answer only on spellings that the flags admit. -/
theorem checkOne_ok {code : Script} {sig key : Bytes} {success : Bool} :
    checkOne ctx code sig key = .ok success ↔
      Encoding.checkSignature ctx.flags sig = .ok () ∧ Encoding.checkKey ctx.flags key = .ok () ∧
        (sig != [] && ctx.checker.signature sig key code) = success ∧
        (success = false → sig ≠ [] → ctx.flags.has .nullFail = false) := by
  simp only [checkOne, except_bind_ok, except_pure_ok, nullFail_ok]
  constructor
  · intro h
    obtain ⟨_, hs, _, hk, _, hn, rfl⟩ := h
    exact ⟨hs, hk, rfl, hn⟩
  · intro h
    obtain ⟨hs, hk, rfl, hn⟩ := h
    exact ⟨(), hs, (), hk, (), hn, rfl⟩

theorem answer_ok {n : Nat} {assertion : Assertion} {success : Bool} :
    answer n false assertion success st = .ok u st' ↔
      n ≤ st.main.length ∧
        { st with main := Number.ofBool success :: List.drop n st.main } = st' := by
  constructor
  · intro h
    obtain ⟨_, _, hd, h⟩ := bind_ok.mp h
    obtain ⟨_, _, hb, hp⟩ := bind_ok.mp h
    obtain ⟨_, hs, rfl⟩ := onMain_ok.mp hd
    obtain ⟨hl, rfl⟩ := Stack.needing_ok.mp hs
    obtain ⟨_, hs, rfl⟩ := onMain_ok.mp hb
    cases hs
    exact ⟨hl, (pure_ok.mp hp).2⟩
  · intro h
    obtain ⟨hl, rfl⟩ := h
    have hd : onMain (Stack.drop n) st = .ok () { st with main := List.drop n st.main } :=
      onMain_ok.mpr ⟨_, Stack.needing_ok.mpr ⟨hl, rfl⟩, rfl⟩
    exact bind_ok.mpr ⟨(), _, hd, rfl⟩

/-- The state in which the answer to a signature check is given. -/
def noting (sig : Bytes) (st : State) : State :=
  { st with
    hashTypes := st.hashTypes ||| sig.getLast?.getD 0
    sigChecks := st.sigChecks + if sig = [] then 0 else 1 }

theorem eq_of_top_two {s : List Bytes} {key sig : Bytes} (hk : s[0]? = some key)
    (hs : s[1]? = some sig) : s = key :: sig :: s.drop 2 := by
  match s with
  | [] => simp at hk
  | [_] => simp at hs
  | a :: b :: below =>
    simp only [List.getElem?_cons_zero, List.getElem?_cons_succ, Option.some.injEq] at hk hs
    rw [hk, hs]
    rfl

/-- A signature check after its operands have been read. -/
theorem checkSig_top {verify : Bool} {key sig : Bytes} {below : Stack}
    (hm : st.main = key :: sig :: below) :
    checkSig ctx verify st = (do
      let success ← orFail (checkOne ctx (withoutSignature ⟨st.code⟩ sig) sig key)
      answer 2 verify .signature success) (noting sig st) := by
  have hr : onMain (Stack.require 2) st = .ok () st := require_ok.mpr ⟨by simp [hm], rfl⟩
  have hk : onMain (Stack.peek 0) st = .ok key st := peek_ok.mpr ⟨by simp [hm], rfl⟩
  have hs : onMain (Stack.peek 1) st = .ok sig st := peek_ok.mpr ⟨by simp [hm], rfl⟩
  refine (bind_of_ok hr).trans ?_
  refine (bind_of_ok hk).trans ?_
  exact bind_of_ok hs

/-- The key is on top and the signature below it. -/
theorem checkSig_ok :
    checkSig ctx false st = .ok u st' ↔
      ∃ key sig below success, st.main = key :: sig :: below ∧
        checkOne ctx (withoutSignature ⟨st.code⟩ sig) sig key = .ok success ∧
        { noting sig st with main := Number.ofBool success :: below } = st' := by
  constructor
  · intro h
    obtain ⟨_, _, hr, h⟩ := bind_ok.mp h
    obtain ⟨-, rfl⟩ := require_ok.mp hr
    obtain ⟨key, _, hp, h⟩ := bind_ok.mp h
    obtain ⟨hk, rfl⟩ := peek_ok.mp hp
    obtain ⟨sig, _, hp, h⟩ := bind_ok.mp h
    obtain ⟨hs, rfl⟩ := peek_ok.mp hp
    obtain ⟨_, _, hn, h⟩ := bind_ok.mp h
    cases modify_ok.mp hn
    obtain ⟨_, _, hn, h⟩ := bind_ok.mp h
    cases countSigChecks_ok.mp hn
    obtain ⟨_, _, hg, h⟩ := bind_ok.mp h
    obtain ⟨rfl, rfl⟩ := get_ok.mp hg
    obtain ⟨success, _, hf, h⟩ := bind_ok.mp h
    obtain ⟨hc, rfl⟩ := orFail_ok.mp hf
    obtain ⟨-, rfl⟩ := answer_ok.mp h
    exact ⟨key, sig, _, success, eq_of_top_two hk hs, hc, rfl⟩
  · intro h
    obtain ⟨key, sig, below, success, hm, hc, rfl⟩ := h
    have ha : answer 2 false .signature success (noting sig st) =
        .ok () { noting sig st with main := Number.ofBool success :: below } :=
      answer_ok.mpr ⟨by simp [noting, hm], by simp [noting, hm]⟩
    rw [checkSig_top hm]
    exact bind_ok.mpr ⟨success, _, orFail_ok.mpr ⟨hc, rfl⟩, ha⟩

end Signing

namespace Instruction

theorem hash_ok {kind : HashKind} :
    (hash kind).run ctx op executing rest st = .ok u st' ↔
      ∃ top below, st.main = top :: below ∧
        { st with main := kind.digest top :: below } = st' := by
  refine onMain_ok.trans ?_
  constructor
  · intro h
    obtain ⟨_, hs, rfl⟩ := h
    obtain ⟨top, below, hm, rfl⟩ := Data.hash_ok.mp hs
    exact ⟨top, below, hm, rfl⟩
  · intro h
    obtain ⟨top, below, hm, rfl⟩ := h
    exact ⟨_, Data.hash_ok.mpr ⟨top, below, hm, rfl⟩, rfl⟩

theorem equal_ok :
    (equal false).run ctx op executing rest st = .ok u st' ↔
      ∃ b a below, st.main = b :: a :: below ∧
        { st with main := Number.ofBool (a == b) :: below } = st' := by
  constructor
  · intro h
    obtain ⟨_, _, h, hp⟩ := bind_ok.mp h
    obtain ⟨_, hs, rfl⟩ := onMain_ok.mp h
    obtain ⟨b, a, below, hm, rfl⟩ := Data.equal_ok.mp hs
    exact ⟨b, a, below, hm, (pure_ok.mp hp).2⟩
  · intro h
    obtain ⟨b, a, below, hm, rfl⟩ := h
    have hs : Data.equal st.main = .ok () _ := Data.equal_ok.mpr ⟨b, a, below, hm, rfl⟩
    exact bind_ok.mpr ⟨(), _, onMain_ok.mpr ⟨_, hs, rfl⟩, pure_ok.mpr ⟨rfl, rfl⟩⟩

theorem equalVerify_ok :
    (equal true).run ctx op executing rest st = .ok u st' ↔
      ∃ a below, st.main = a :: a :: below ∧ { st with main := below } = st' := by
  constructor
  · intro h
    obtain ⟨_, _, h, ha⟩ := bind_ok.mp h
    obtain ⟨_, hs, rfl⟩ := onMain_ok.mp h
    obtain ⟨b, a, below, hm, rfl⟩ := Data.equal_ok.mp hs
    obtain ⟨top, s, hc, ht, rfl⟩ := assertTop_ok.mp ha
    cases hc
    rw [Number.isTrue_ofBool, beq_iff_eq] at ht
    subst ht
    exact ⟨a, below, hm, rfl⟩
  · intro h
    obtain ⟨a, below, hm, rfl⟩ := h
    have hs : Data.equal st.main = .ok () _ := Data.equal_ok.mpr ⟨a, a, below, hm, rfl⟩
    have ht : Number.isTrue (Number.ofBool (a == a)) = true := by simp [Number.isTrue_ofBool]
    exact bind_ok.mpr ⟨(), _, onMain_ok.mpr ⟨_, hs, rfl⟩, assertTop_ok.mpr ⟨_, below, rfl, ht, rfl⟩⟩

theorem dup_ok :
    (arrange (.dup 1)).run ctx op executing rest st = .ok u st' ↔
      ∃ top below, st.main = top :: below ∧ { st with main := top :: top :: below } = st' := by
  refine onMain_ok.trans ?_
  constructor
  · intro h
    obtain ⟨_, hs, rfl⟩ := h
    obtain ⟨hl, rfl⟩ := Stack.needing_ok.mp hs
    cases hm : st.main with
    | nil => simp [hm] at hl
    | cons top below => exact ⟨top, below, rfl, rfl⟩
  · intro h
    obtain ⟨top, below, hm, rfl⟩ := h
    refine ⟨_, Stack.needing_ok.mpr ⟨?_, rfl⟩, ?_⟩
    · simp [hm]
    · simp [hm]

end Instruction

end CoinScript
