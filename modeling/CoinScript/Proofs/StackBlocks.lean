import CoinScript.Proofs.CheckedSteps
import Mathlib.Data.List.Induction

namespace CoinScript

namespace Stack

variable {s above below : List Bytes} {item : Bytes} {i n depth : Nat}

/-- A place that is there divides a stack into what is above it and what is below. -/
theorem exists_above (h : i < s.length) :
    ∃ above item below, s = above ++ item :: below ∧ above.length = i :=
  ⟨s.take i, s[i], s.drop (i + 1), by rw [← List.drop_eq_getElem_cons h, List.take_append_drop],
    List.length_take_of_le (Nat.le_of_lt h)⟩

theorem getElem?_above (above below : List Bytes) (item : Bytes) :
    (above ++ item :: below)[above.length]? = some item := by
  rw [List.getElem?_append_right (Nat.le_refl _), Nat.sub_self]
  rfl

theorem eraseIdx_above (above below : List Bytes) (item : Bytes) :
    (above ++ item :: below).eraseIdx above.length = above ++ below := by
  rw [List.eraseIdx_append_of_length_le (Nat.le_refl _), Nat.sub_self]
  rfl

theorem peek_above : peek above.length (above ++ item :: below) = .ok item (above ++ item :: below) := by
  rw [peek, getElem?_above]

theorem takeOut_above : takeOut above.length (above ++ item :: below) = .ok item (above ++ below) := by
  rw [takeOut, getElem?_above]
  exact congrArg _ (eraseIdx_above above below item)

theorem pick_above :
    pick above.length (above ++ item :: below) = .ok () (item :: (above ++ item :: below)) := by
  rw [pick, getElem?_above]

theorem roll_above : roll above.length (above ++ item :: below) = .ok () (item :: (above ++ below)) := by
  rw [roll, getElem?_above]
  exact congrArg (fun rest => EStateM.Result.ok () (item :: rest)) (eraseIdx_above above below item)

theorem peek_of_le (h : s.length ≤ i) : peek i s = .error (.badIndex i s.length) s := by
  rw [peek, List.getElem?_eq_none h]

theorem takeOut_of_le (h : s.length ≤ i) : takeOut i s = .error (.badIndex i s.length) s := by
  rw [takeOut, List.getElem?_eq_none h]

theorem pick_of_le (h : s.length ≤ i) : pick i s = .error (.badIndex i s.length) s := by
  rw [pick, List.getElem?_eq_none h]

theorem roll_of_le (h : s.length ≤ i) : roll i s = .error (.badIndex i s.length) s := by
  rw [roll, List.getElem?_eq_none h]

theorem pick_eq (i : Nat) : pick i = (do push (← peek i)) := by
  funext s
  rcases Nat.lt_or_ge i s.length with h | h
  · obtain ⟨above, item, below, rfl, rfl⟩ := exists_above h
    rw [pick_above, Effect.bind_of_ok peek_above]
    rfl
  · rw [Effect.bind_of_error (peek_of_le h), pick_of_le h]

theorem roll_eq (i : Nat) : roll i = (do push (← takeOut i)) := by
  funext s
  rcases Nat.lt_or_ge i s.length with h | h
  · obtain ⟨above, item, below, rfl, rfl⟩ := exists_above h
    rw [roll_above, Effect.bind_of_ok takeOut_above]
    rfl
  · rw [Effect.bind_of_error (takeOut_of_le h), roll_of_le h]

/-- The lowest item of a window comes to the top as often as its lower block has items: the window is
the same size all the time, and the items that have come up are in their order again. -/
theorem repeated_roll (upper lower below : List Bytes) (h : upper.length + lower.length - 1 = depth) :
    repeated (roll depth) lower.length (upper ++ (lower ++ below)) = .ok () (lower ++ (upper ++ below)) := by
  induction lower using List.reverseRecOn generalizing upper with
  | nil => rfl
  | append_singleton lower item ih =>
    rw [List.length_append, List.length_singleton] at h ⊢
    have hdepth : (upper ++ lower).length = depth := by
      rw [List.length_append]
      omega
    have hstack : upper ++ (lower ++ [item] ++ below) = (upper ++ lower) ++ item :: below := by simp
    have hroll : roll depth (upper ++ (lower ++ [item] ++ below)) =
        .ok () (item :: (upper ++ lower ++ below)) := by
      rw [hstack, ← hdepth, roll_above]
    have hrest := ih (item :: upper) (by rw [List.length_cons]; omega)
    rw [repeated, Effect.bind_of_ok hroll, List.append_assoc upper, ← List.cons_append, hrest]
    simp

/-- The same with copies, where the window goes up by one item each time. -/
theorem repeated_pick (upper lower below : List Bytes) (h : upper.length + lower.length - 1 = depth) :
    repeated (pick depth) lower.length (upper ++ (lower ++ below)) =
      .ok () (lower ++ (upper ++ (lower ++ below))) := by
  induction lower using List.reverseRecOn generalizing upper below with
  | nil => rfl
  | append_singleton lower item ih =>
    rw [List.length_append, List.length_singleton] at h ⊢
    have hdepth : (upper ++ lower).length = depth := by
      rw [List.length_append]
      omega
    have hstack : upper ++ (lower ++ [item] ++ below) = (upper ++ lower) ++ item :: below := by simp
    have hpick : pick depth (upper ++ (lower ++ [item] ++ below)) =
        .ok () (item :: upper ++ (lower ++ item :: below)) := by
      rw [hstack, ← hdepth, pick_above]
      simp
    have hrest := ih (item :: upper) (item :: below) (by rw [List.length_cons]; omega)
    rw [repeated, Effect.bind_of_ok hpick, hrest]
    simp

/-- A stack with enough items, divided into two blocks and what is below them. -/
theorem exists_blocks {k : Nat} (h : k + n ≤ s.length) :
    ∃ upper lower below, s = upper ++ (lower ++ below) ∧ upper.length = k ∧ lower.length = n := by
  refine ⟨s.take k, (s.drop k).take n, (s.drop k).drop n, ?_, ?_, ?_⟩
  · rw [List.take_append_drop, List.take_append_drop]
  · exact List.length_take_of_le (by omega)
  · rw [List.length_take_of_le]
    rw [List.length_drop]
    omega

theorem needing_of_le {next : List Bytes → List Bytes} (h : n ≤ s.length) :
    needing n next s = .ok () (next s) := if_pos h

theorem needing_of_lt {next : List Bytes → List Bytes} (h : s.length < n) :
    needing n next s = .error (.tooFewItems n s.length) s := if_neg (Nat.not_le_of_lt h)

theorem require_of_le (h : n ≤ s.length) : require n s = .ok () s := needing_of_le h

theorem require_of_lt (h : s.length < n) : require n s = .error (.tooFewItems n s.length) s :=
  needing_of_lt h

/-- Brings `n` items from below `k` others to the top. -/
def moving (k n : Nat) : StackStep Unit :=
  needing (k + n) fun s => (s.drop k).take n ++ s.take k ++ s.drop (k + n)

/-- Copies `n` items from below `k` others to the top. -/
def copying (k n : Nat) : StackStep Unit := needing (k + n) fun s => (s.drop k).take n ++ s

theorem rotate_eq (n : Nat) : rotate n = moving (2 * n) n := by
  rw [moving, ← Nat.succ_mul]
  rfl

theorem swap_eq (n : Nat) : swap n = moving n n := by
  rw [moving, ← Nat.two_mul]
  rfl

theorem copySecond_eq (n : Nat) : copySecond n = copying n n := by
  rw [copying, ← Nat.two_mul]
  rfl

theorem dup_eq (n : Nat) : dup n = copying 0 n := by
  rw [copying, Nat.zero_add]
  rfl

theorem moving_blocks (upper lower below : List Bytes) :
    moving upper.length lower.length (upper ++ (lower ++ below)) = .ok () (lower ++ (upper ++ below)) := by
  have h : upper.length + lower.length ≤ (upper ++ (lower ++ below)).length := by simp
  rw [moving, needing_of_le h, ← List.drop_drop, List.drop_left, List.drop_left, List.take_left,
    List.take_left, List.append_assoc]

theorem copying_blocks (upper lower below : List Bytes) :
    copying upper.length lower.length (upper ++ (lower ++ below)) =
      .ok () (lower ++ (upper ++ (lower ++ below))) := by
  have h : upper.length + lower.length ≤ (upper ++ (lower ++ below)).length := by simp
  rw [copying, needing_of_le h, List.drop_left, List.take_left]

/-- A block is moved item by item. -/
theorem moving_eq_repeated (k n : Nat) :
    moving k n = (do require (k + n); repeated (roll (k + n - 1)) n) := by
  funext s
  rcases Nat.lt_or_ge s.length (k + n) with h | h
  · rw [moving, needing_of_lt h, Effect.bind_of_error (require_of_lt h)]
  · rw [Effect.bind_of_ok (require_of_le h)]
    obtain ⟨upper, lower, below, rfl, rfl, rfl⟩ := exists_blocks h
    rw [moving_blocks, repeated_roll upper lower below rfl]

theorem copying_eq_repeated (k n : Nat) :
    copying k n = (do require (k + n); repeated (pick (k + n - 1)) n) := by
  funext s
  rcases Nat.lt_or_ge s.length (k + n) with h | h
  · rw [copying, needing_of_lt h, Effect.bind_of_error (require_of_lt h)]
  · rw [Effect.bind_of_ok (require_of_le h)]
    obtain ⟨upper, lower, below, rfl, rfl, rfl⟩ := exists_blocks h
    rw [copying_blocks, repeated_pick upper lower below rfl]

end Stack

end CoinScript
