import CoinScript.Proofs.Charges

namespace CoinScript

theorem Bytes.length_digits_le {n k : Nat} (h : n < 256 ^ k) : (digits n).length ≤ k := by
  induction k generalizing n with
  | zero =>
    have hn : n = 0 := by omega
    rw [hn, digits, if_pos rfl]
    exact Nat.le_refl _
  | succ k ih =>
    rw [digits]
    split
    · exact Nat.zero_le _
    · exact Nat.succ_le_succ (ih (Nat.div_lt_of_lt_mul (by rwa [Nat.pow_succ, Nat.mul_comm] at h)))

namespace Number

variable {n a b r : Int} {k : Nat} {bs item : Bytes} {minimal : Bool}

theorem length_signed_le (sign : UInt8) (bs : Bytes) : (signed sign bs).length ≤ bs.length + 1 := by
  cases bs with
  | nil => exact Nat.zero_le _
  | cons top below =>
    rw [signed]
    split <;> simp

theorem length_encode_le (h : n.natAbs < 256 ^ k) : (encode n).length ≤ k + 1 := by
  have hs := length_signed_le (signByte n) (Bytes.digits n.natAbs).reverse
  have hd := Bytes.length_digits_le h
  rw [List.length_reverse] at hs
  rw [encode, List.length_reverse]
  omega

theorem length_ofBool_le (b : Bool) : (ofBool b).length ≤ 1 := by
  cases b <;> decide

theorem natAbs_value_lt (bs : Bytes) : (value bs).natAbs < 256 ^ bs.length := by
  have hlt := Bytes.toNatLE_lt bs
  unfold value
  split
  · exact Nat.pow_pos (by decide)
  · split
    · rw [Int.natAbs_neg, Int.natAbs_natCast]
      exact Nat.lt_of_le_of_lt (Nat.sub_le _ _) hlt
    · exact hlt

theorem length_widen {size : Nat} (h : bs.length ≤ size) : (widen size bs).length = size := by
  unfold widen
  split
  · next hle => exact Nat.le_antisymm h hle
  · next hlt =>
    split
    · exact List.length_replicate
    · next last below hr =>
      have hlength : bs.length = below.length + 1 := by
        rw [← List.length_reverse, hr, List.length_cons]
      simp only [List.length_append, List.length_reverse, List.length_singleton, List.length_replicate]
      omega

/-- Numbers of eight bytes, among which are those that operations take and leave. -/
def IsWord (n : Int) : Prop := n.natAbs < 256 ^ 8

instance (n : Int) : Decidable (IsWord n) := inferInstanceAs (Decidable (_ < _))

theorem IsWord.length_encode_le (h : IsWord n) : (encode n).length ≤ Fault.maxItem :=
  Nat.le_trans (Number.length_encode_le h) (by decide)

theorem isWord_of_operand (h : operand minimal item = .ok n) : IsWord n := by
  unfold operand decode at h
  split at h
  · cases h
  · next hl =>
    split at h
    · cases h
    · cases h
      have hlength : item.length ≤ 8 := by
        have : min operandLimit 8 ≤ 8 := by decide
        omega
      exact Nat.lt_of_lt_of_le (natAbs_value_lt item) (Nat.pow_le_pow_right (by decide) hlength)

theorem isWord_of_inRange (h : inRange n = true) : IsWord n := by
  rw [inRange, Bool.and_eq_true, decide_eq_true_eq, decide_eq_true_eq] at h
  unfold IsWord
  omega

theorem isWord_of_fit {operation : Arithmetic} {result : Int} (h : fit operation a b result = .ok r) :
    IsWord r := by
  unfold fit at h
  split at h
  · next hr =>
    cases h
    exact isWord_of_inRange hr
  · cases h

theorem isWord_of_unary {op : Unary} (ha : IsWord a) (h : Data.unaryResult op a = .ok r) :
    IsWord r := by
  cases op with
  | increment | decrement | negate => exact isWord_of_fit h
  | abs =>
    unfold Data.unaryResult Number.abs at h
    dsimp only at h
    split at h
    · exact isWord_of_fit h
    · cases h
      exact ha
  | not | isNonzero =>
    unfold Data.unaryResult at h
    dsimp only at h
    cases h
    split <;> decide

theorem isWord_of_binary {op : Binary} (ha : IsWord a) (hb : IsWord b)
    (h : Data.binaryResult op a b = .ok r) : IsWord r := by
  have htruth {p : Bool} (h : Data.truth p = .ok r) : IsWord r := by
    cases h
    cases p <;> decide
  cases op with
  | add | sub => exact isWord_of_fit h
  | div =>
    unfold Data.binaryResult at h
    dsimp only at h
    split at h
    · cases h
    · exact isWord_of_fit h
  | mod =>
    unfold Data.binaryResult Number.mod at h
    dsimp only at h
    split at h
    · cases h
    · split at h
      · cases h
        have hle : (a.tmod b).natAbs ≤ a.natAbs := by
          rw [Int.natAbs_tmod]
          exact Nat.mod_le _ _
        exact Nat.lt_of_le_of_lt hle ha
      · cases h
  | boolAnd | boolOr | equal | notEqual | less | greater | lessOrEqual | greaterOrEqual => exact htruth h
  | min =>
    cases h
    rw [Int.min_def]
    split
    · exact ha
    · exact hb
  | max =>
    cases h
    rw [Int.max_def]
    split
    · exact hb
    · exact ha

end Number

namespace Stack

/-- Every item is within the limit. -/
def Fits (s : List Bytes) : Prop := ∀ item ∈ s, item.length ≤ Fault.maxItem

/-- Heights below this one are numbers of two bytes. -/
def tall : Nat := 256 ^ 2

/-- Whatever the step comes to, items stay within their limit, and at most `k` are added. -/
def Grows {α : Type} (k : Nat) (step : StackStep α) : Prop :=
  ∀ s, Fits s → s.length + k < tall →
    Fits (finalState (step s)) ∧ (finalState (step s)).length ≤ s.length + k

variable {α : Type} {item : Bytes} {s t : Stack} {step : StackStep α} {n k : Nat} {minimal : Bool}

theorem Fits.cons (hi : item.length ≤ Fault.maxItem) (h : Fits s) : Fits (item :: s) :=
  List.forall_mem_cons.mpr ⟨hi, h⟩

theorem fits_cons : Fits (item :: s) ↔ item.length ≤ Fault.maxItem ∧ Fits s :=
  List.forall_mem_cons

theorem Fits.append (hs : Fits s) (ht : Fits t) : Fits (s ++ t) :=
  List.forall_mem_append.mpr ⟨hs, ht⟩

theorem Fits.subset (h : Fits s) (ht : t ⊆ s) : Fits t := fun item hi => h item (ht hi)

/-- No item is too long to be pushed. -/
theorem Fits.pushable (h : Fits s) (hi : item ∈ s) : item.length ≤ 0xffffffff :=
  Nat.le_trans (h item hi) (by decide)

/-- A step that only takes items that are there. -/
theorem grows_of_subset
    (h : ∀ s, finalState (step s) ⊆ s ∧ (finalState (step s)).length ≤ s.length + k) :
    Grows k step :=
  fun s hs _ => ⟨hs.subset (h s).1, (h s).2⟩

theorem Grows.ite {c : Prop} [Decidable c] {step' : StackStep α} (h : Grows k step)
    (h' : Grows k step') : Grows k (if c then step else step') := by
  split
  · exact h
  · exact h'

theorem needing_grows {next : List Bytes → List Bytes}
    (h : ∀ s, n ≤ s.length → next s ⊆ s ∧ (next s).length ≤ s.length + k) :
    Grows k (needing n next) := by
  apply grows_of_subset
  intro s
  unfold needing
  split
  · next hn => exact h s hn
  · exact ⟨List.Subset.refl s, Nat.le_add_right _ _⟩

theorem push_grows (hi : item.length ≤ Fault.maxItem) : Grows 1 (push item) :=
  fun _ hs _ => ⟨.cons hi hs, Nat.le_refl _⟩

theorem pushNumber_grows {n : Int} (h : Number.IsWord n) : Grows 1 (pushNumber n) :=
  push_grows h.length_encode_le

theorem pushBool_grows (b : Bool) : Grows 1 (pushBool b) :=
  push_grows (Nat.le_trans (Number.length_ofBool_le b) (by decide))

theorem block_subset (s : List Bytes) (i n : Nat) : (s.drop i).take n ⊆ s :=
  fun _ h => List.mem_of_mem_drop (List.mem_of_mem_take h)

theorem parts_subset {s p q r : List Bytes} (hp : p ⊆ s) (hq : q ⊆ s) (hr : r ⊆ s) :
    p ++ q ++ r ⊆ s :=
  List.append_subset.mpr ⟨List.append_subset.mpr ⟨hp, hq⟩, hr⟩

theorem drop_grows (n : Nat) : Grows 0 (drop n) := by
  refine needing_grows fun s _ => ⟨List.drop_subset n s, ?_⟩
  rw [List.length_drop]
  omega

end Stack

/-- How many items a rearrangement adds. -/
def Arrangement.growth : Arrangement → Nat
  | .dup n | .copySecond n => n
  | .tuck => 1
  | .drop _ | .rotate _ | .swap _ | .nip => 0

theorem Arrangement.run_grows (a : Arrangement) : Stack.Grows a.growth a.run := by
  cases a with
  | drop n => exact Stack.drop_grows n
  | dup n =>
    refine Stack.needing_grows fun s hs => ⟨?_, ?_⟩
    · exact List.append_subset.mpr ⟨List.take_subset n s, List.Subset.refl s⟩
    · simp only [List.length_append, List.length_take, growth]
      omega
  | copySecond n =>
    refine Stack.needing_grows fun s hs => ⟨?_, ?_⟩
    · exact List.append_subset.mpr ⟨Stack.block_subset s n n, List.Subset.refl s⟩
    · simp only [List.length_append, List.length_take, List.length_drop, growth]
      omega
  | rotate n =>
    refine Stack.needing_grows fun s hs => ⟨?_, ?_⟩
    · exact Stack.parts_subset (Stack.block_subset s _ n) (List.take_subset _ s) (List.drop_subset _ s)
    · simp only [List.length_append, List.length_take, List.length_drop, growth]
      omega
  | swap n =>
    refine Stack.needing_grows fun s hs => ⟨?_, ?_⟩
    · exact Stack.parts_subset (Stack.block_subset s n n) (List.take_subset _ s) (List.drop_subset _ s)
    · simp only [List.length_append, List.length_take, List.length_drop, growth]
      omega
  | nip =>
    refine Stack.needing_grows fun s hs => ⟨?_, ?_⟩
    · exact List.append_subset.mpr ⟨List.take_subset 1 s, List.drop_subset 2 s⟩
    · simp only [List.length_append, List.length_take, List.length_drop, growth]
      omega
  | tuck =>
    refine Stack.needing_grows fun s hs => ⟨?_, ?_⟩
    · exact Stack.parts_subset (List.take_subset 2 s) (List.take_subset 1 s) (List.drop_subset 2 s)
    · simp only [List.length_append, List.length_take, List.length_drop, growth]
      omega

namespace Data

open Stack (Fits Grows fits_cons)

variable {minimal : Bool}

theorem onTop_grows {f : Bytes → Except Fault Bytes}
    (h : ∀ item r, item.length ≤ Fault.maxItem → f item = .ok r → r.length ≤ Fault.maxItem) :
    Grows 0 (onTop f) := by
  intro s hs _
  cases s with
  | nil => exact ⟨hs, Nat.le_refl _⟩
  | cons top s =>
    obtain ⟨htop, hs⟩ := fits_cons.mp hs
    rw [onTop]
    cases hf : f top with
    | ok item => exact ⟨hs.cons (h top item htop hf), Nat.le_refl _⟩
    | error fault => exact ⟨hs, Nat.le_succ _⟩

theorem onTwo_grows {f : Bytes → Bytes → Except Fault (List Bytes)}
    (h : ∀ a b items, a.length ≤ Fault.maxItem → b.length ≤ Fault.maxItem → f a b = .ok items →
      Fits items ∧ items.length ≤ 2) :
    Grows 0 (onTwo f) := by
  intro s hs _
  match s with
  | [] => exact ⟨hs, Nat.le_refl _⟩
  | [_] => exact ⟨hs, Nat.le_refl _⟩
  | b :: a :: s =>
    rw [onTwo]
    obtain ⟨hb, hs'⟩ := fits_cons.mp hs
    obtain ⟨ha, hs'⟩ := fits_cons.mp hs'
    cases hf : f a b with
    | ok items =>
      obtain ⟨hi, hl⟩ := h a b items ha hb hf
      refine ⟨hi.append hs', ?_⟩
      change (items ++ s).length ≤ s.length + 2
      rw [List.length_append]
      omega
    | error fault => exact ⟨hs, Nat.le_refl _⟩

theorem fits_result {item : Bytes} (h : item.length ≤ Fault.maxItem) :
    Fits [item] ∧ [item].length ≤ 2 :=
  ⟨fits_cons.mpr ⟨h, List.forall_mem_nil _⟩, Nat.le_succ 1⟩

theorem concatenate_grows : Grows 0 concatenate := by
  refine onTwo_grows fun a b items ha hb h => ?_
  dsimp only at h
  split at h
  · next hl =>
    cases h
    apply fits_result
    rw [List.length_append, Nat.add_comm]
    exact hl
  · cases h

theorem split_grows : Grows 0 (split minimal) := by
  refine onTwo_grows fun a n items ha hn h => ?_
  obtain ⟨position, -, h⟩ := except_bind_ok.mp h
  split at h
  · cases h
    refine ⟨fits_cons.mpr ⟨?_, fits_cons.mpr ⟨?_, List.forall_mem_nil _⟩⟩, Nat.le_refl _⟩
    · rw [List.length_drop]
      omega
    · rw [List.length_take]
      omega
  · cases h

theorem reverse_grows (flags : Flags) : Grows 0 (reverse flags) := by
  refine Stack.Grows.ite (onTop_grows fun item r hi h => ?_) fun s hs _ => ⟨hs, Nat.le_refl _⟩
  cases h
  rw [List.length_reverse]
  exact hi

theorem toWidth_grows : Grows 0 (toWidth minimal) := by
  intro s hs _
  match s with
  | [] => exact ⟨hs, Nat.le_refl _⟩
  | [_] => exact ⟨hs, Nat.le_refl _⟩
  | n :: x :: s =>
    have hbelow : Fits s := (fits_cons.mp (fits_cons.mp hs).2).2
    rw [toWidth]
    split
    · exact ⟨hs, Nat.le_refl _⟩
    · next size _ =>
      split
      -- a width in range is popped with its number, also where the number does not fit it
      · next hsize =>
        dsimp only
        split
        · next hl =>
          refine ⟨hbelow.cons ?_, Nat.le_succ _⟩
          rw [Number.length_widen hl]
          exact hsize.2
        · exact ⟨hbelow, Nat.le_add_right s.length 2⟩
      · exact ⟨hs, Nat.le_refl _⟩

theorem toNumber_grows : Grows 0 toNumber := by
  refine onTop_grows fun item r hi h => ?_
  dsimp only at h
  split at h
  · next hm =>
    cases h
    rw [Number.isMinimalWithin, Bool.and_eq_true, decide_eq_true_eq] at hm
    exact Nat.le_trans hm.1 (by decide)
  · cases h

theorem bitwise_grows (op : Bitwise) : Grows 0 (bitwise op) := by
  refine onTwo_grows fun a b items ha hb h => ?_
  split at h
  · cases h
    apply fits_result
    rw [List.length_zipWith]
    omega
  · cases h

theorem equal_grows : Grows 0 equal := by
  refine onTwo_grows fun a b items _ _ h => ?_
  cases h
  exact fits_result (Nat.le_trans (Number.length_ofBool_le _) (by decide))

theorem hash_grows (kind : HashKind) : Grows 0 (hash kind) := by
  refine onTop_grows fun item r _ h => ?_
  cases h
  rcases kind.length_digest item with h | h <;> rw [h] <;> decide

theorem size_grows : Grows 1 size := by
  intro s hs _
  cases s with
  | nil => exact ⟨hs, Nat.zero_le _⟩
  | cons top s =>
    have htop := (fits_cons.mp hs).1
    have hlength : (Number.encode top.length).length ≤ 3 := by
      apply Number.length_encode_le
      rw [Int.natAbs_natCast]
      exact Nat.lt_of_le_of_lt htop (by decide)
    exact ⟨hs.cons (Nat.le_trans hlength (by decide)), Nat.le_refl _⟩

theorem dupIfTrue_grows : Grows 1 dupIfTrue := by
  apply Stack.grows_of_subset
  intro s
  cases s with
  | nil => exact ⟨List.Subset.refl _, Nat.zero_le _⟩
  | cons top s =>
    cases ht : Number.isTrue top with
    | true =>
      rw [dupIfTrue, ht]
      exact ⟨List.cons_subset.mpr ⟨List.mem_cons_self, List.Subset.refl _⟩, Nat.le_refl _⟩
    | false =>
      rw [dupIfTrue, ht]
      exact ⟨List.Subset.refl _, Nat.le_succ _⟩

/-- Here the height of the stack is what is pushed. -/
theorem depth_grows : Grows 1 depth := by
  intro s hs htall
  have hlength : (Number.encode s.length).length ≤ 3 := by
    apply Number.length_encode_le
    rw [Int.natAbs_natCast]
    exact Nat.lt_of_le_of_lt (Nat.le_succ _) htall
  exact ⟨hs.cons (Nat.le_trans hlength (by decide)), Nat.le_refl _⟩

theorem pickOrRoll_grows (move : Bool) : Grows 0 (pickOrRoll minimal move) := by
  apply Stack.grows_of_subset
  intro s
  match s with
  | [] => exact ⟨List.Subset.refl _, Nat.le_refl _⟩
  | [_] => exact ⟨List.Subset.refl _, Nat.le_refl _⟩
  | n :: x :: s =>
    -- the index is popped before its range is looked at, so it may be gone in the end
    have hbelow : x :: s ⊆ n :: x :: s := List.subset_cons_self _ _
    rw [pickOrRoll]
    split
    · exact ⟨List.Subset.refl _, Nat.le_refl _⟩
    · next index _ =>
      split
      · split
        · unfold Stack.roll
          split
          · next item hi =>
            have hmem := List.mem_of_getElem? hi
            refine ⟨List.cons_subset.mpr ⟨hbelow hmem, fun _ h => hbelow (List.eraseIdx_subset h)⟩, ?_⟩
            have hle := List.length_eraseIdx_le (x :: s) index.toNat
            exact Nat.succ_le_succ hle
          · exact ⟨hbelow, Nat.le_succ _⟩
        · unfold Stack.pick
          split
          · next item hi =>
            have hmem := List.mem_of_getElem? hi
            exact ⟨List.cons_subset.mpr ⟨hbelow hmem, hbelow⟩, Nat.le_refl _⟩
          · exact ⟨hbelow, Nat.le_succ _⟩
      · exact ⟨hbelow, Nat.le_succ _⟩

theorem unary_grows (op : Unary) : Grows 0 (unary minimal op) := by
  intro s hs _
  cases s with
  | nil => exact ⟨hs, Nat.le_refl _⟩
  | cons n s =>
    have hbelow : Fits s := (fits_cons.mp hs).2
    rw [unary]
    split
    · exact ⟨hs, Nat.le_refl _⟩
    · next a ha =>
      split
      · next r hr =>
        have hword := Number.isWord_of_unary (Number.isWord_of_operand ha) hr
        exact ⟨hbelow.cons hword.length_encode_le, Nat.le_refl _⟩
      · exact ⟨hbelow, Nat.le_succ _⟩

theorem binary_grows (op : Binary) : Grows 0 (binary minimal op) := by
  refine onTwo_grows fun a b items _ _ h => ?_
  obtain ⟨x, hx, h⟩ := except_bind_ok.mp h
  obtain ⟨y, hy, h⟩ := except_bind_ok.mp h
  obtain ⟨r, hr, h⟩ := except_bind_ok.mp h
  cases h
  have hword := Number.isWord_of_binary (Number.isWord_of_operand hx) (Number.isWord_of_operand hy) hr
  exact fits_result hword.length_encode_le

theorem within_grows : Grows 0 (within minimal) := by
  intro s hs _
  match s with
  | [] => exact ⟨hs, Nat.le_refl _⟩
  | [_] => exact ⟨hs, Nat.le_refl _⟩
  | [_, _] => exact ⟨hs, Nat.le_refl _⟩
  | high :: low :: n :: s =>
    have hbelow : Fits s := (fits_cons.mp (fits_cons.mp (fits_cons.mp hs).2).2).2
    rw [within]
    split
    · next item hi =>
      obtain ⟨x, -, hi⟩ := except_bind_ok.mp hi
      obtain ⟨lo, -, hi⟩ := except_bind_ok.mp hi
      obtain ⟨hi', -, hi⟩ := except_bind_ok.mp hi
      cases hi
      refine ⟨hbelow.cons (Nat.le_trans (Number.length_ofBool_le _) (by decide)), ?_⟩
      change s.length + 1 ≤ s.length + 3
      omega
    · exact ⟨hs, Nat.le_refl _⟩

end Data

end CoinScript
