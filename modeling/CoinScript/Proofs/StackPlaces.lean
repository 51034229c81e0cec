import CoinScript.Proofs.StackBlocks

namespace CoinScript

namespace Stack

variable {i n : Nat}

/-- A checked step on the items of a stack as they lie in memory, bottom first. -/
abbrev PlaceStep (α : Type) := EStateM (Stop Fault) (List Bytes) α

/-- The items that lie in memory are those of the stack. -/
def Lies (s : Stack) (items : List Bytes) : Prop := s.bottomFirst = items

namespace Places

open Checked

def push (item : Bytes) : PlaceStep Unit := modify (· ++ [item])

def require (n : Nat) : PlaceStep Unit := do
  let depth := (← get).length
  demand (n ≤ depth) (.fault (.tooFewItems n depth))

/-- The place of the item that is `i` places below the top. -/
def placeOf (i : Nat) : PlaceStep Nat := do
  let depth := (← get).length
  demand (i < depth) (.fault (.badIndex i depth))
  less (← less depth i) 1

def peek (i : Nat) : PlaceStep Bytes := do
  let place ← placeOf i
  found (← get)[place]?

def takeOut (i : Nat) : PlaceStep Bytes := do
  let place ← placeOf i
  let item ← found (← get)[place]?
  modify (·.eraseIdx place)
  return item

/-- Puts an item at a place, which is not beyond the top. -/
def insert (place : Nat) (item : Bytes) : PlaceStep Unit := do
  demand (place ≤ (← get).length) .broken
  modify fun items => items.take place ++ item :: items.drop place

def tuck : PlaceStep Unit := do
  require 2
  let top ← peek 0
  insert (← less (← get).length 2) top

def drop (n : Nat) : PlaceStep Unit := do
  require n
  let keep ← less (← get).length n
  modify (·.take keep)

def pick (i : Nat) : PlaceStep Unit := do push (← peek i)

def roll (i : Nat) : PlaceStep Unit := do push (← takeOut i)

/-- The item that is copied is always as deep, which is looked up each time. -/
def dup (n : Nat) : PlaceStep Unit := do
  require n
  repeated (do pick (← less n 1)) n

/-- Does something to the item at the depth of `k` blocks, once for each item of a block. The number
of items in all the blocks has to fit in a word. -/
def blockwise (bits k n : Nat) (act : Nat → PlaceStep Unit) : PlaceStep Unit := do
  let size ← word bits (k * n)
  require size
  let entry ← less size 1
  repeated (act entry) n

def copySecond (bits n : Nat) : PlaceStep Unit := blockwise bits 2 n pick

def swap (bits n : Nat) : PlaceStep Unit := blockwise bits 2 n roll

def rotate (bits n : Nat) : PlaceStep Unit := blockwise bits 3 n roll

variable {α : Type} {items : List Bytes}

/-- The outcome of a step, as it lies in memory. -/
def laid : EStateM.Result Fault Stack α → EStateM.Result (Stop Fault) (List Bytes) α
  | .ok a s => .ok a s.bottomFirst
  | .error fault s => .error (.fault fault) s.bottomFirst

theorem simulates_of_laid {checked : PlaceStep α} {step : StackStep α}
    (h : ∀ s : Stack, checked s.bottomFirst = laid (step s)) : Simulates Lies checked step where
  ok := by
    intro s t a s' hlies hs
    have hlaid := h s
    rw [hs, show s.bottomFirst = t from hlies] at hlaid
    exact ⟨_, hlaid, rfl⟩
  error := by
    intro s t fault s' hlies hs
    have hlaid := h s
    rw [hs, show s.bottomFirst = t from hlies] at hlaid
    exact ⟨_, hlaid, rfl⟩

theorem bottomFirst_above (above below : List Bytes) (item : Bytes) :
    bottomFirst (above ++ item :: below) = below.reverse ++ item :: above.reverse := by
  simp [bottomFirst]

theorem length_bottomFirst (s : Stack) : s.bottomFirst.length = s.length := List.length_reverse

theorem placeOf_of_lt (h : i < items.length) : placeOf i items = .ok (items.length - i - 1) items := by
  have hone : 1 ≤ items.length - i := by omega
  change (demand _ _ >>= fun _ => less items.length i >>= fun below => less below 1) items = _
  rw [demand_eq (decide_eq_true h), less_eq (Nat.le_of_lt h)]
  change less _ 1 items = _
  rw [less_eq hone]
  rfl

theorem placeOf_of_le (h : items.length ≤ i) :
    placeOf i items = .error (.fault (.badIndex i items.length)) items := by
  change (demand _ _ >>= fun _ => _) items = _
  exact Effect.bind_of_error (demand_stop (by simpa using h))

/-- Counted from the other end, the place of an item is the number of items below it. -/
theorem placeOf_above (above below : List Bytes) (item : Bytes) :
    placeOf above.length (below.reverse ++ item :: above.reverse) =
      .ok below.reverse.length (below.reverse ++ item :: above.reverse) := by
  have hlength : (below.reverse ++ item :: above.reverse).length = below.length + above.length + 1 := by
    simp [Nat.add_assoc]
  rw [placeOf_of_lt (by omega), hlength, List.length_reverse]
  congr 1
  omega

theorem push_simulates (item : Bytes) : Simulates Lies (push item) (Stack.push item) :=
  simulates_of_laid fun s => congrArg _ (@List.reverse_cons Bytes item s).symm

theorem require_laid (n : Nat) (s : Stack) : require n s.bottomFirst = laid (Stack.require n s) := by
  change demand _ (.fault (Fault.tooFewItems n s.bottomFirst.length)) s.bottomFirst = _
  rw [length_bottomFirst]
  rcases Nat.lt_or_ge s.length n with h | h
  · rw [demand_stop (by simpa using h), require_of_lt h]
    rfl
  · rw [demand_eq (decide_eq_true h), require_of_le h]
    rfl

theorem require_simulates (n : Nat) : Simulates Lies (require n) (Stack.require n) :=
  simulates_of_laid (require_laid n)

theorem peek_laid (i : Nat) (s : Stack) : peek i s.bottomFirst = laid (Stack.peek i s) := by
  rcases Nat.lt_or_ge i s.length with h | h
  · obtain ⟨above, item, below, rfl, rfl⟩ := exists_above h
    rw [peek_above, bottomFirst_above, peek, Effect.bind_of_ok (placeOf_above above below item)]
    change found _ _ = _
    rw [getElem?_above, laid, bottomFirst_above]
    rfl
  · have hle : s.bottomFirst.length ≤ i := by rwa [length_bottomFirst]
    rw [peek_of_le h, peek, Effect.bind_of_error (placeOf_of_le hle), length_bottomFirst]
    rfl

theorem peek_simulates (i : Nat) : Simulates Lies (peek i) (Stack.peek i) :=
  simulates_of_laid (peek_laid i)

theorem takeOut_simulates (i : Nat) : Simulates Lies (takeOut i) (Stack.takeOut i) := by
  refine simulates_of_laid fun s => ?_
  rcases Nat.lt_or_ge i s.length with h | h
  · obtain ⟨above, item, below, rfl, rfl⟩ := exists_above h
    rw [takeOut_above, bottomFirst_above, takeOut, Effect.bind_of_ok (placeOf_above above below item)]
    change (found _ >>= fun _ => _) _ = _
    rw [getElem?_above]
    change EStateM.Result.ok item (List.eraseIdx _ _) = _
    rw [eraseIdx_above, laid, bottomFirst, List.reverse_append]
  · have hle : s.bottomFirst.length ≤ i := by rwa [length_bottomFirst]
    rw [takeOut_of_le h, takeOut, Effect.bind_of_error (placeOf_of_le hle), length_bottomFirst]
    rfl

theorem pick_simulates (i : Nat) : Simulates Lies (pick i) (Stack.pick i) := by
  rw [pick_eq]
  exact (peek_simulates i).bind fun item _ => push_simulates item

theorem roll_simulates (i : Nat) : Simulates Lies (roll i) (Stack.roll i) := by
  rw [roll_eq]
  exact (takeOut_simulates i).bind fun item _ => push_simulates item

/-- Goes on where enough items are there, and else leaves them as they lie. -/
theorem require_then {next : List Bytes → List Bytes} {checked : PlaceStep Unit} (n : Nat)
    (h : ∀ s : Stack, n ≤ s.length → checked s.bottomFirst = .ok () (next s).reverse) :
    Simulates Lies (do require n; checked) (needing n next) := by
  refine simulates_of_laid fun s => ?_
  have hrequire := require_laid n s
  rcases Nat.lt_or_ge s.length n with hlt | hle
  · rw [require_of_lt hlt] at hrequire
    rw [Effect.bind_of_error hrequire, needing_of_lt hlt]
    rfl
  · rw [require_of_le hle] at hrequire
    rw [Effect.bind_of_ok hrequire, needing_of_le hle, h s hle]
    rfl

theorem drop_simulates (n : Nat) : Simulates Lies (drop n) (Stack.drop n) := by
  refine require_then n fun s h => ?_
  change (less s.bottomFirst.length n >>= fun keep => modify (·.take keep)) s.bottomFirst = _
  rw [length_bottomFirst, less_eq h]
  change EStateM.Result.ok () (s.bottomFirst.take (s.length - n)) = _
  rw [bottomFirst, List.take_reverse, Nat.sub_sub_self h]

theorem tuck_simulates : Simulates Lies tuck Stack.tuck := by
  refine require_then 2 fun s h => ?_
  match s, h with
  | y :: x :: below, _ =>
    have hitems : bottomFirst (y :: x :: below) = below.reverse ++ [x, y] := by simp [bottomFirst]
    have hlength : (bottomFirst (y :: x :: below)).length = below.reverse.length + 2 := by
      rw [length_bottomFirst, List.length_reverse]
      rfl
    rw [Effect.bind_of_ok (peek_laid 0 _)]
    change (less (bottomFirst _).length 2 >>= fun place => insert place y) _ = _
    rw [hlength, less_eq (Nat.le_add_left 2 _), Nat.add_sub_cancel]
    change (demand _ _ >>= fun _ => modify _) _ = _
    rw [hlength, demand_eq (decide_eq_true (Nat.le_add_right _ 2))]
    change EStateM.Result.ok () (List.take _ _ ++ y :: List.drop _ _) = _
    rw [hitems, List.take_left, List.drop_left]
    simp

theorem dup_simulates (hn : 0 < n) : Simulates Lies (dup n) (Stack.dup n) := by
  rw [dup_eq, copying_eq_repeated, Nat.zero_add, dup, less_eq hn]
  exact (require_simulates n).bind fun _ _ => (pick_simulates (n - 1)).repeated n

/-- The sum that is looked at in the end is the depth of all blocks together. -/
theorem blockwise_simulates {bits k : Nat} {act : Nat → PlaceStep Unit} {step : Nat → StackStep Unit}
    (hact : ∀ i, Simulates Lies (act i) (step i)) (hn : 0 < n) (hword : (k + 1) * n < 2 ^ bits) :
    Simulates Lies (blockwise bits (k + 1) n act)
      (do Stack.require (k * n + n); repeated (step (k * n + n - 1)) n) := by
  have hsize : 1 ≤ k * n + n := by omega
  rw [Nat.succ_mul] at hword
  rw [blockwise, Nat.succ_mul, word_eq hword]
  refine (require_simulates (k * n + n)).bind fun _ _ => ?_
  rw [less_eq hsize]
  exact (hact _).repeated n

theorem copySecond_simulates {bits : Nat} (hn : 0 < n) (hword : 2 * n < 2 ^ bits) :
    Simulates Lies (copySecond bits n) (Stack.copySecond n) := by
  have h := blockwise_simulates (k := 1) pick_simulates hn hword
  rw [Nat.one_mul, ← copying_eq_repeated, ← copySecond_eq] at h
  exact h

theorem swap_simulates {bits : Nat} (hn : 0 < n) (hword : 2 * n < 2 ^ bits) :
    Simulates Lies (swap bits n) (Stack.swap n) := by
  have h := blockwise_simulates (k := 1) roll_simulates hn hword
  rw [Nat.one_mul, ← moving_eq_repeated, ← swap_eq] at h
  exact h

theorem rotate_simulates {bits : Nat} (hn : 0 < n) (hword : 3 * n < 2 ^ bits) :
    Simulates Lies (rotate bits n) (Stack.rotate n) := by
  have h := blockwise_simulates (k := 2) roll_simulates hn hword
  rw [← moving_eq_repeated, ← rotate_eq] at h
  exact h

end Places

/-- What becomes of blocks of `n` items, with the top of the stack on the right. -/
structure MovesBlocks (n : Nat) : Prop where
  rotate (xs a b c : List Bytes) (ha : a.length = n) (hb : b.length = n) (hc : c.length = n) :
    Stack.rotate n (ofBottomFirst (xs ++ a ++ b ++ c)) = .ok () (ofBottomFirst (xs ++ b ++ c ++ a))
  swap (xs a b : List Bytes) (ha : a.length = n) (hb : b.length = n) :
    Stack.swap n (ofBottomFirst (xs ++ a ++ b)) = .ok () (ofBottomFirst (xs ++ b ++ a))
  copySecond (xs a b : List Bytes) (ha : a.length = n) (hb : b.length = n) :
    Stack.copySecond n (ofBottomFirst (xs ++ a ++ b)) = .ok () (ofBottomFirst (xs ++ a ++ b ++ a))
  dup (xs a : List Bytes) (ha : a.length = n) :
    Stack.dup n (ofBottomFirst (xs ++ a)) = .ok () (ofBottomFirst (xs ++ a ++ a))
  drop (xs a : List Bytes) (ha : a.length = n) :
    Stack.drop n (ofBottomFirst (xs ++ a)) = .ok () (ofBottomFirst xs)

/-- What becomes of the item that has `above` on it. -/
structure MovesItem (xs : List Bytes) (item : Bytes) (above : List Bytes) : Prop where
  roll : Stack.roll above.length (ofBottomFirst (xs ++ [item] ++ above)) =
    .ok () (ofBottomFirst (xs ++ above ++ [item]))
  pick : Stack.pick above.length (ofBottomFirst (xs ++ [item] ++ above)) =
    .ok () (ofBottomFirst (xs ++ [item] ++ above ++ [item]))
  takeOut : Stack.takeOut above.length (ofBottomFirst (xs ++ [item] ++ above)) =
    .ok item (ofBottomFirst (xs ++ above))

/-- The step succeeds on every stack with as many items as it needs. On any other it fails as an
invalid operation and leaves the stack as it was. -/
def Needs {α : Type} (step : StackStep α) (needed : Nat) : Prop :=
  ∀ s : Stack, if needed ≤ s.length then ∃ a s', step s = .ok a s'
    else ∃ fault, fault.code = .invalidStackOperation ∧ step s = .error fault s

/-- For blocks of `n` items, and for one item at any depth. -/
structure AllOrNothing (n : Nat) : Prop where
  rotate : Needs (Stack.rotate n) (3 * n)
  swap : Needs (Stack.swap n) (2 * n)
  copySecond : Needs (Stack.copySecond n) (2 * n)
  dup : Needs (Stack.dup n) n
  drop : Needs (Stack.drop n) n
  roll (i : Nat) : Needs (Stack.roll i) (i + 1)
  pick (i : Nat) : Needs (Stack.pick i) (i + 1)
  takeOut (i : Nat) : Needs (Stack.takeOut i) (i + 1)
  tuck : Needs Stack.tuck 2

/-- Item by item and place by place, in words of `bits` bits, the same is done. -/
structure DoneByPlaces (bits n : Nat) : Prop where
  rotate : Simulates Lies (Places.rotate bits n) (Stack.rotate n)
  swap : Simulates Lies (Places.swap bits n) (Stack.swap n)
  copySecond : Simulates Lies (Places.copySecond bits n) (Stack.copySecond n)
  dup : Simulates Lies (Places.dup n) (Stack.dup n)
  drop : Simulates Lies (Places.drop n) (Stack.drop n)
  roll (i : Nat) : Simulates Lies (Places.roll i) (Stack.roll i)
  pick (i : Nat) : Simulates Lies (Places.pick i) (Stack.pick i)
  takeOut (i : Nat) : Simulates Lies (Places.takeOut i) (Stack.takeOut i)
  tuck : Simulates Lies Places.tuck Stack.tuck

theorem ofBottomFirst_append (xs ys : List Bytes) :
    ofBottomFirst (xs ++ ys) = ofBottomFirst ys ++ ofBottomFirst xs := List.reverse_append

theorem length_ofBottomFirst (xs : List Bytes) : (ofBottomFirst xs).length = xs.length := List.length_reverse

theorem movesBlocks (n : Nat) : MovesBlocks n where
  rotate xs a b c ha hb hc := by
    have h := moving_blocks (ofBottomFirst (b ++ c)) (ofBottomFirst a) (ofBottomFirst xs)
    have hupper : (ofBottomFirst (b ++ c)).length = 2 * n := by
      rw [length_ofBottomFirst, List.length_append, hb, hc, Nat.two_mul]
    rw [hupper, length_ofBottomFirst, ha, ← rotate_eq] at h
    simpa only [← ofBottomFirst_append, List.append_assoc] using h
  swap xs a b ha hb := by
    have h := moving_blocks (ofBottomFirst b) (ofBottomFirst a) (ofBottomFirst xs)
    rw [length_ofBottomFirst, length_ofBottomFirst, ha, hb, ← swap_eq] at h
    simpa only [← ofBottomFirst_append, List.append_assoc] using h
  copySecond xs a b ha hb := by
    have h := copying_blocks (ofBottomFirst b) (ofBottomFirst a) (ofBottomFirst xs)
    rw [length_ofBottomFirst, length_ofBottomFirst, ha, hb, ← copySecond_eq] at h
    simpa only [← ofBottomFirst_append, List.append_assoc] using h
  dup xs a ha := by
    have h := copying_blocks [] (ofBottomFirst a) (ofBottomFirst xs)
    rw [length_ofBottomFirst, ha, List.length_nil, ← dup_eq] at h
    simpa only [← ofBottomFirst_append, List.append_assoc, List.nil_append] using h
  drop xs a ha := by
    have h : n ≤ (ofBottomFirst a ++ ofBottomFirst xs).length := by
      rw [List.length_append, length_ofBottomFirst, ha]
      exact Nat.le_add_right _ _
    rw [Stack.drop, ofBottomFirst_append, needing_of_le h, ← ha, ← length_ofBottomFirst a, List.drop_left]

theorem movesItem (xs : List Bytes) (item : Bytes) (above : List Bytes) : MovesItem xs item above := by
  have hstack : ofBottomFirst (xs ++ [item] ++ above) = ofBottomFirst above ++ item :: ofBottomFirst xs := by
    rw [ofBottomFirst_append, ofBottomFirst_append]
    rfl
  have hlength := length_ofBottomFirst above
  refine ⟨?_, ?_, ?_⟩
  · rw [hstack, ← hlength, roll_above, ofBottomFirst_append, ofBottomFirst_append]
    rfl
  · rw [ofBottomFirst_append _ [item], hstack, ← hlength, pick_above]
    rfl
  · rw [hstack, ← hlength, takeOut_above, ofBottomFirst_append]

theorem tuck_two (xs : List Bytes) (x y : Bytes) :
    tuck (ofBottomFirst (xs ++ [x, y])) = .ok () (ofBottomFirst (xs ++ [y, x, y])) := by
  have h : 2 ≤ (ofBottomFirst (xs ++ [x, y])).length := by
    rw [length_ofBottomFirst, List.length_append]
    exact Nat.le_add_left 2 _
  rw [tuck, needing_of_le h, ofBottomFirst_append, ofBottomFirst_append]
  rfl

theorem needing_needs (n : Nat) (next : List Bytes → List Bytes) : Needs (needing n next) n := by
  intro s
  split
  · next h => exact ⟨(), next s, needing_of_le h⟩
  · next h => exact ⟨.tooFewItems n s.length, rfl, needing_of_lt (Nat.lt_of_not_le h)⟩

/-- A step that needs the item at a place. -/
theorem needs_place {α : Type} {step : StackStep α} (hlt : ∀ above item below, above.length = i →
      ∃ a s', step (above ++ item :: below) = .ok a s')
    (hle : ∀ s : Stack, s.length ≤ i → step s = .error (.badIndex i s.length) s) :
    Needs step (i + 1) := by
  intro s
  split
  · next h =>
    obtain ⟨above, item, below, rfl, hi⟩ := exists_above h
    exact hlt above item below hi
  · next h => exact ⟨.badIndex i s.length, rfl, hle s (Nat.le_of_not_lt h)⟩

theorem allOrNothing (n : Nat) : AllOrNothing n where
  rotate := needing_needs _ _
  swap := needing_needs _ _
  copySecond := needing_needs _ _
  dup := needing_needs _ _
  drop := needing_needs _ _
  roll _ := needs_place (fun _ _ _ h => ⟨(), _, h ▸ roll_above⟩) fun _ h => roll_of_le h
  pick _ := needs_place (fun _ _ _ h => ⟨(), _, h ▸ pick_above⟩) fun _ h => pick_of_le h
  takeOut _ := needs_place (fun _ _ _ h => ⟨_, _, h ▸ takeOut_above⟩) fun _ h => takeOut_of_le h
  tuck := needing_needs _ _

/-- Every operation on several items is the exchange of blocks that it is meant to be, or takes or
copies the one item it is given and keeps the order of the others. It succeeds if as many items as it
needs are there, and otherwise the stack stays as it was. Going over the places item by item does the
same, if three blocks can be counted in a word. -/
theorem rearrangements_exact {bits n : Nat} (hn : 0 < n) (hword : 3 * n < 2 ^ bits) :
    MovesBlocks n ∧ (∀ xs item above, MovesItem xs item above) ∧
      (∀ xs x y, tuck (ofBottomFirst (xs ++ [x, y])) = .ok () (ofBottomFirst (xs ++ [y, x, y]))) ∧
      AllOrNothing n ∧ DoneByPlaces bits n := by
  have hsmall : 2 * n < 2 ^ bits := by omega
  refine ⟨movesBlocks n, movesItem, tuck_two, allOrNothing n, ?_⟩
  exact {
    rotate := Places.rotate_simulates hn hword
    swap := Places.swap_simulates hn hsmall
    copySecond := Places.copySecond_simulates hn hsmall
    dup := Places.dup_simulates hn
    drop := Places.drop_simulates n
    roll := Places.roll_simulates
    pick := Places.pick_simulates
    takeOut := Places.takeOut_simulates
    tuck := Places.tuck_simulates }

/-- Blocks of two items: six items are rotated, in memory as well, and five are left as they are. -/
theorem rearrangements_exact_pairs :
    let six : List Bytes := [[1], [2], [3], [4], [5], [6]]
    let five : Stack := ofBottomFirst [[1], [2], [3], [4], [5]]
    let rotated : List Bytes := [[3], [4], [5], [6], [1], [2]]
    0 < 2 ∧ 3 * 2 < 2 ^ 64 ∧ rotate 2 (ofBottomFirst six) = .ok () (ofBottomFirst rotated) ∧
      Places.rotate 64 2 six = .ok () rotated ∧
      ∃ fault, fault.code = .invalidStackOperation ∧ rotate 2 five = .error fault five := by
  intro six five rotated
  have hword : 3 * 2 < 2 ^ 64 := by decide
  obtain ⟨hblocks, -, -, hall, hplaces⟩ := @rearrangements_exact 64 2 (by decide) hword
  have hrotate := hblocks.rotate [] [[1], [2]] [[3], [4]] [[5], [6]] rfl rfl rfl
  obtain ⟨items, hitems, hlies⟩ := hplaces.rotate.ok (show Lies (ofBottomFirst six) six from rfl) hrotate
  have hrotated : items = rotated := hlies.symm
  exact ⟨by decide, hword, hrotate, hrotated ▸ hitems, hall.rotate five⟩

end Stack

end CoinScript
