import CoinScript.Proofs.Instructions

namespace CoinScript

namespace Signing

open Effect

namespace Multisig

/-- The operands as they lie on a stack, from the top: how many keys, the keys, how many signatures,
the signatures, and the dummy. -/
def On (ctx : Context) (m : Multisig) (s : Stack) : Prop :=
  ∃ count required below,
    s = count :: (m.keys ++ required :: (m.signatures ++ m.dummy :: below)) ∧
    Number.operand ctx.minimal count = .ok m.keys.length ∧
    Number.operand ctx.minimal required = .ok m.signatures.length ∧
    m.keys.length ≤ maxKeys ∧ m.signatures.length ≤ m.keys.length

/-- The state in which the answer is given: keys and checks have been counted. -/
def counting (m : Multisig) (flags : Flags) (st : State) : State :=
  { st with
    opCount := st.opCount + m.keys.length
    sigChecks := st.sigChecks + m.sigChecks flags }

/-- The state after an answer: it stands in place of all operands. -/
def answering (m : Multisig) (flags : Flags) (success : Bool) (st : State) : State :=
  { m.counting flags st with
    main := Number.ofBool success ::
      List.drop (m.keys.length + m.signatures.length + 3) st.main }

end Multisig

variable {ctx : Context} {st st' : State} {m : Multisig} {s : Stack}

theorem numberAt_ok {i : Nat} {n : Int} :
    numberAt ctx i st = .ok n st' ↔
      (∃ item, st.main[i]? = some item ∧ Number.operand ctx.minimal item = .ok n) ∧ st = st' := by
  simp only [numberAt, bind_ok, peek_ok, orFail_ok]
  constructor
  · intro h
    obtain ⟨item, _, ⟨hi, rfl⟩, hn, rfl⟩ := h
    exact ⟨⟨item, hi, hn⟩, rfl⟩
  · intro h
    obtain ⟨⟨item, hi, hn⟩, rfl⟩ := h
    exact ⟨item, st, ⟨hi, rfl⟩, hn, rfl⟩

/-- The list from a place on, when the item there is known. -/
theorem drop_of_getElem? {α : Type} {s : List α} {i : Nat} {a : α} (h : s[i]? = some a) :
    s.drop i = a :: s.drop (i + 1) := by
  obtain ⟨hi, rfl⟩ := List.getElem?_eq_some_iff.mp h
  exact List.drop_eq_getElem_cons hi

/-- A stack cut at the places that two counts determine. -/
theorem eq_operands {s : List Bytes} {count required : Bytes} {n k : Nat}
    (hc : s[0]? = some count) (hr : s[n + 1]? = some required) (hl : n + k + 3 ≤ s.length) :
    s = count :: ((s.drop 1).take n ++ required ::
      ((s.drop (n + 2)).take k ++ s.getD (n + k + 2) [] :: s.drop (n + k + 3))) := by
  have hd : s[n + k + 2]? = some (s.getD (n + k + 2) []) := by
    rw [List.getD_eq_getElem?_getD, List.getElem?_eq_getElem hl, Option.getD_some]
  have h2 : (s.drop (n + 2)).drop k = s.drop (n + k + 2) := by
    rw [List.drop_drop, Nat.add_right_comm]
  have h1 : (s.drop 1).drop n = s.drop (n + 1) := by
    rw [List.drop_drop, Nat.add_comm]
  calc s = count :: s.drop 1 := drop_of_getElem? hc
    _ = count :: ((s.drop 1).take n ++ s.drop (n + 1)) := by rw [← h1, List.take_append_drop]
    _ = count :: ((s.drop 1).take n ++ required :: s.drop (n + 2)) := by rw [drop_of_getElem? hr]
    _ = _ := by rw [← drop_of_getElem? hd, ← h2, List.take_append_drop]

/-- The operands found again at these places. -/
theorem operands_found {s keys sigs below : List Bytes} {count required dummy : Bytes}
    (hs : s = count :: (keys ++ required :: (sigs ++ dummy :: below))) :
    s[0]? = some count ∧ (s.drop 1).take keys.length = keys ∧
      s[keys.length + 1]? = some required ∧
      (s.drop (keys.length + 2)).take sigs.length = sigs ∧
      s.getD (keys.length + sigs.length + 2) [] = dummy ∧
      s.drop (keys.length + sigs.length + 3) = below := by
  have h2 : s.drop (keys.length + 2) = sigs ++ dummy :: below := by
    rw [hs, List.drop_succ_cons, List.drop_append]
    simp
  have h3 : s.drop (keys.length + sigs.length + 2) = dummy :: below := by
    rw [Nat.add_right_comm, ← List.drop_drop, h2, List.drop_left]
  refine ⟨?_, ?_, ?_, ?_, ?_, ?_⟩
  · rw [hs, List.getElem?_cons_zero]
  · rw [hs, List.drop_one, List.tail_cons, List.take_left]
  · simp [hs]
  · rw [h2, List.take_left]
  · rw [List.getD_eq_getElem?_getD, ← Nat.add_zero (_ + 2), ← List.getElem?_drop, h3]
    rfl
  · have h4 : s.drop (keys.length + sigs.length + 3) =
        (s.drop (keys.length + sigs.length + 2)).drop 1 := by rw [List.drop_drop]
    rw [h4, h3, List.drop_one, List.tail_cons]

theorem natural_iff {n : Int} {limit : Nat} :
    (decide (0 ≤ n) && decide (n ≤ limit)) = true ↔ ∃ k : Nat, n = k ∧ k ≤ limit := by
  rw [Bool.and_eq_true, decide_eq_true_eq, decide_eq_true_eq]
  constructor
  · intro h
    exact ⟨n.toNat, by omega, by omega⟩
  · intro h
    obtain ⟨k, rfl, hk⟩ := h
    omega

/-- Reading succeeds exactly where the operands lie on the stack and the budget allows for the
keys. -/
theorem readMultisig_ok :
    readMultisig ctx st = .ok m st' ↔
      m.On ctx st.main ∧ st.opCount + m.keys.length ≤ ctx.budget ∧
        { st with opCount := st.opCount + m.keys.length } = st' := by
  constructor
  · intro h
    obtain ⟨_, _, hs, h⟩ := bind_ok.mp h
    obtain ⟨-, rfl⟩ := require_ok.mp hs
    obtain ⟨_, _, hs, h⟩ := bind_ok.mp h
    obtain ⟨⟨count, hc, hn⟩, rfl⟩ := numberAt_ok.mp hs
    obtain ⟨_, _, hs, h⟩ := bind_ok.mp h
    obtain ⟨hd, rfl⟩ := demand_ok.mp hs
    obtain ⟨n, rfl, hmax⟩ := natural_iff.mp hd
    obtain ⟨_, _, hs, h⟩ := bind_ok.mp h
    obtain ⟨hb, rfl⟩ := countOps_ok.mp hs
    obtain ⟨_, _, hs, h⟩ := bind_ok.mp h
    obtain ⟨-, rfl⟩ := require_ok.mp hs
    obtain ⟨_, _, hs, h⟩ := bind_ok.mp h
    obtain ⟨⟨required, hq, hk⟩, rfl⟩ := numberAt_ok.mp hs
    obtain ⟨_, _, hs, h⟩ := bind_ok.mp h
    obtain ⟨hd, rfl⟩ := demand_ok.mp hs
    obtain ⟨k, rfl, hle⟩ := natural_iff.mp hd
    obtain ⟨_, _, hs, h⟩ := bind_ok.mp h
    obtain ⟨hl, rfl⟩ := require_ok.mp hs
    obtain ⟨_, _, hs, h⟩ := bind_ok.mp h
    obtain ⟨rfl, rfl⟩ := get_ok.mp hs
    obtain ⟨rfl, rfl⟩ := pure_ok.mp h
    simp only [Int.toNat_natCast] at hq hb hl hle ⊢
    have hkeys : ((List.drop 1 st.main).take n).length = n := by
      rw [List.length_take, List.length_drop]
      omega
    have hsigs : ((List.drop (n + 2) st.main).take k).length = k := by
      rw [List.length_take, List.length_drop]
      omega
    unfold Multisig.On
    simp only [hkeys, hsigs]
    exact ⟨⟨count, required, _, eq_operands hc hq hl, hn, hk, hmax, hle⟩, hb, trivial⟩
  · intro h
    obtain ⟨⟨count, required, below, hs, hn, hk, hmax, hle⟩, hb, rfl⟩ := h
    obtain ⟨hc, hkeys, hq, hsigs, hdummy, -⟩ := operands_found hs
    have hl : m.keys.length + m.signatures.length + 3 ≤ st.main.length := by
      simp only [hs, List.length_cons, List.length_append]
      omega
    refine bind_ok.mpr ⟨(), st, require_ok.mpr ⟨by omega, rfl⟩, ?_⟩
    refine bind_ok.mpr ⟨_, st, numberAt_ok.mpr ⟨⟨count, hc, hn⟩, rfl⟩, ?_⟩
    refine bind_ok.mpr ⟨(), st, demand_ok.mpr ⟨natural_iff.mpr ⟨_, rfl, hmax⟩, rfl⟩, ?_⟩
    rw [Int.toNat_natCast]
    refine bind_ok.mpr ⟨(), _, countOps_ok.mpr ⟨hb, rfl⟩, ?_⟩
    refine bind_ok.mpr ⟨(), _, require_ok.mpr ⟨by dsimp only; omega, rfl⟩, ?_⟩
    refine bind_ok.mpr ⟨_, _, numberAt_ok.mpr ⟨⟨required, hq, hk⟩, rfl⟩, ?_⟩
    refine bind_ok.mpr ⟨(), _, demand_ok.mpr ⟨natural_iff.mpr ⟨_, rfl, hle⟩, rfl⟩, ?_⟩
    rw [Int.toNat_natCast]
    refine bind_ok.mpr ⟨(), _, require_ok.mpr ⟨hl, rfl⟩, ?_⟩
    refine bind_ok.mpr ⟨_, _, get_ok.mpr ⟨rfl, rfl⟩, ?_⟩
    exact pure_ok.mpr ⟨by simp only [hkeys, hsigs, hdummy], rfl⟩

theorem Multisig.On.width_le (hs : m.On ctx s) : m.width ≤ s.length := by
  obtain ⟨count, required, below, rfl, -⟩ := hs
  simp only [Multisig.width, List.length_cons, List.length_append]
  omega

/-- The part of the operation that comes after reading and counting. -/
theorem checkMultisig_read {verify : Bool} (hs : m.On ctx st.main)
    (hb : st.opCount + m.keys.length ≤ ctx.budget) :
    checkMultisig ctx verify st = (do
      let success ← orFail (m.run ctx ⟨st.code⟩)
      onMain (Stack.drop m.width)
      if verify then demand success .multisigFailed else onMain (Stack.pushBool success))
      (m.counting ctx.flags st) := by
  have hread := readMultisig_ok.mpr ⟨hs, hb, rfl⟩
  exact bind_of_ok hread

/-- Where the operands are no good, nothing is popped. -/
theorem checkMultisig_of_run_error {verify : Bool} {fault : Fault} (hs : m.On ctx st.main)
    (hb : st.opCount + m.keys.length ≤ ctx.budget) (hr : m.run ctx ⟨st.code⟩ = .error fault) :
    checkMultisig ctx verify st = .error fault (m.counting ctx.flags st) := by
  rw [checkMultisig_read hs hb, hr]
  rfl

/-- An answer about the operands takes their place. -/
theorem checkMultisig_of_run_ok {success : Bool} (hs : m.On ctx st.main)
    (hb : st.opCount + m.keys.length ≤ ctx.budget) (hr : m.run ctx ⟨st.code⟩ = .ok success) :
    checkMultisig ctx false st = .ok () (m.answering ctx.flags success st) := by
  have hdrop : onMain (Stack.drop m.width) (m.counting ctx.flags st) =
      .ok () { m.counting ctx.flags st with main := List.drop m.width st.main } :=
    onMain_ok.mpr ⟨_, Stack.needing_ok.mpr ⟨hs.width_le, rfl⟩, rfl⟩
  rw [checkMultisig_read hs hb]
  refine bind_ok.mpr ⟨success, _, orFail_ok.mpr ⟨hr, rfl⟩, ?_⟩
  exact bind_ok.mpr ⟨(), _, hdrop, rfl⟩

end Signing

end CoinScript
