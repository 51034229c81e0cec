import Mathlib.Algebra.Ring.Nat
import Mathlib.Data.List.Basic
import CoinScript.Proofs.Instructions
import CoinScript.Proofs.Performing
import CoinScript.Proofs.SignMagnitude

namespace CoinScript

/-- The integer that an operation on one number results in. -/
def Unary.exact (op : Unary) (a : Int) : Int :=
  match op with
  | .increment => a + 1
  | .decrement => a - 1
  | .negate => -a
  | .abs => a.natAbs
  | .not => if a = 0 then 1 else 0
  | .isNonzero => if a = 0 then 0 else 1

/-- The integer that an operation on two numbers results in. Quotients are rounded toward zero, and
a remainder has the sign of the dividend. -/
def Binary.exact (op : Binary) (a b : Int) : Int :=
  match op with
  | .add => a + b
  | .sub => a - b
  | .div => a.sign * b.sign * (a.natAbs / b.natAbs : Nat)
  | .mod => a.sign * (a.natAbs % b.natAbs : Nat)
  | .boolAnd => if a ≠ 0 ∧ b ≠ 0 then 1 else 0
  | .boolOr => if a ≠ 0 ∨ b ≠ 0 then 1 else 0
  | .equal => if a = b then 1 else 0
  | .notEqual => if a ≠ b then 1 else 0
  | .less => if a < b then 1 else 0
  | .greater => if b < a then 1 else 0
  | .lessOrEqual => if a ≤ b then 1 else 0
  | .greaterOrEqual => if b ≤ a then 1 else 0
  | .min => if a ≤ b then a else b
  | .max => if a ≤ b then b else a

/-- The operations on numbers. One of them insists that its operands are equal, and leaves nothing
behind. -/
inductive Numeric
  | unary (op : Unary)
  | binary (op : Binary)
  | equalVerify
  | within
deriving DecidableEq

namespace Numeric

def code : Numeric → Opcode
  | .unary .increment => 0x8b
  | .unary .decrement => 0x8c
  | .unary .negate => 0x8f
  | .unary .abs => 0x90
  | .unary .not => 0x91
  | .unary .isNonzero => 0x92
  | .binary .add => 0x93
  | .binary .sub => 0x94
  | .binary .div => 0x96
  | .binary .mod => 0x97
  | .binary .boolAnd => 0x9a
  | .binary .boolOr => 0x9b
  | .binary .equal => 0x9c
  | .equalVerify => 0x9d
  | .binary .notEqual => 0x9e
  | .binary .less => 0x9f
  | .binary .greater => 0xa0
  | .binary .lessOrEqual => 0xa1
  | .binary .greaterOrEqual => 0xa2
  | .binary .min => 0xa3
  | .binary .max => 0xa4
  | .within => 0xa5

def arity : Numeric → Nat
  | .unary _ => 1
  | .binary _ | .equalVerify => 2
  | .within => 3

/-- What is asked of the numbers themselves, deepest first. -/
def Admits : Numeric → List Int → Prop
  | .binary op, [_, b] => op = .div ∨ op = .mod → b ≠ 0
  | .equalVerify, [a, b] => a = b
  | _, _ => True

/-- The result for numbers that are given deepest first. -/
def exact : Numeric → List Int → Int
  | .unary op, [a] => op.exact a
  | .binary op, [a, b] => op.exact a b
  | .within, [n, low, high] => if low ≤ n ∧ n < high then 1 else 0
  | _, _ => 0

/-- The items that stand in place of the operands. -/
def left (op : Numeric) (values : List Int) : List Bytes :=
  if op = .equalVerify then [] else [Number.encode (op.exact values)]

/-- Operands, deepest first, that an operation succeeds on. -/
structure Takes (op : Numeric) (minimal : Bool) (operands : List Bytes) : Prop where
  count : operands.length = op.arity
  short : ∀ item ∈ operands, item.length ≤ 4
  shortest : minimal = true → ∀ item ∈ operands, Number.isMinimal item = true
  admitted : op.Admits (operands.map Number.signMagnitude)

end Numeric

/-- The fault names one of these items, which is longer than a number may be. -/
def Fault.IsOverlong (limit : Nat) (items : List Bytes) (fault : Fault) : Prop :=
  ∃ item ∈ items, limit < item.length ∧ fault = .numberTooLong item limit

namespace Number

variable {minimal : Bool} {item : Bytes} {n : Int}

/-- An item that an operation takes for a number. -/
def IsOperand (minimal : Bool) (item : Bytes) : Prop :=
  item.length ≤ 4 ∧ (minimal = true → isMinimal item = true)

theorem operand_ok : operand minimal item = .ok n ↔ IsOperand minimal item ∧ signMagnitude item = n := by
  have hlimit : min operandLimit 8 = 4 := rfl
  unfold operand decode IsOperand
  rw [hlimit, value_eq]
  by_cases hl : 4 < item.length
  · simp [hl]
  · cases minimal <;> cases isMinimal item <;> simp [hl, Nat.le_of_not_lt hl]

theorem ofBool_eq_encode (b : Bool) : ofBool b = encode (if b then 1 else 0) := by
  cases b with
  | false => exact encode_zero.symm
  | true =>
    have hone : isMinimal [1] = true := rfl
    exact isMinimal_iff.mp hone

/-- Reading a number overflows only where the item is too long. -/
theorem decode_overflow {limit : Nat} {fault : Fault} (h8 : limit ≤ 8)
    (h : decode minimal limit item = .error fault) (hc : fault.code = .numberOverflow) :
    limit < item.length ∧ fault = .numberTooLong item limit := by
  unfold decode at h
  rw [Nat.min_eq_left h8] at h
  split at h
  · next hl =>
    cases h
    exact ⟨hl, rfl⟩
  · split at h
    · cases h
      cases hc
    · cases h

theorem operand_overflow {fault : Fault} (h : operand minimal item = .error fault)
    (hc : fault.code = .numberOverflow) : 4 < item.length ∧ fault = .numberTooLong item 4 :=
  decode_overflow (by decide) h hc

theorem IsOperand.bound (h : IsOperand minimal item) : (signMagnitude item).natAbs < 2 ^ 31 := by
  have hlt := two_mul_magnitude_lt item
  have hle : 256 ^ item.length ≤ 256 ^ 4 := Nat.pow_le_pow_right (by decide) h.1
  rw [natAbs_signMagnitude]
  omega

end Number

theorem tdiv_eq_sign (a b : Int) : a.tdiv b = a.sign * b.sign * (a.natAbs / b.natAbs : Nat) := by
  rw [← Int.sign_mul_natAbs (a.tdiv b), Int.sign_tdiv, Int.natAbs_tdiv]
  split
  · next h =>
    have hzero : a.natAbs.div b.natAbs = 0 := Nat.div_eq_of_lt h
    have hquot : a.natAbs / b.natAbs = 0 := hzero
    simp [hzero, hquot]
  · rfl

theorem tmod_eq_sign (a b : Int) : a.tmod b = a.sign * (a.natAbs % b.natAbs : Nat) := by
  rw [← Int.sign_mul_natAbs (a.tmod b), Int.sign_tmod, Int.natAbs_tmod]
  split
  · next h =>
    have hzero : a.natAbs % b.natAbs = 0 := Nat.mod_eq_zero_of_dvd (Int.natAbs_dvd_natAbs.mpr h)
    simp [hzero]
  · rfl

/-- No result on operands is longer than the widest operand by more than a bit. -/
theorem Unary.natAbs_exact_le (op : Unary) {a : Int} (ha : a.natAbs < 2 ^ 31) :
    (op.exact a).natAbs ≤ 2 ^ 32 := by
  cases op with
  | not | isNonzero => rw [exact]; split <;> decide
  | _ => rw [exact]; omega

theorem Binary.natAbs_exact_le (op : Binary) {a b : Int} (ha : a.natAbs < 2 ^ 31) (hb : b.natAbs < 2 ^ 31) :
    (op.exact a b).natAbs ≤ 2 ^ 32 := by
  cases op with
  | div =>
    have hle : a.natAbs.div b.natAbs ≤ a.natAbs := Nat.div_le_self _ _
    rw [exact, ← tdiv_eq_sign, Int.natAbs_tdiv]
    omega
  | mod =>
    have hle : a.natAbs % b.natAbs ≤ a.natAbs := Nat.mod_le _ _
    rw [exact, ← tmod_eq_sign, Int.natAbs_tmod]
    omega
  | add | sub => rw [exact]; omega
  | _ => rw [exact]; split <;> omega

namespace Number

theorem inRange_of_natAbs_le {n : Int} (h : n.natAbs ≤ 2 ^ 32) : inRange n = true := by
  rw [inRange, Bool.and_eq_true, decide_eq_true_eq, decide_eq_true_eq]
  omega

theorem fit_of_natAbs_le {operation : Arithmetic} {a b n : Int} (h : n.natAbs ≤ 2 ^ 32) :
    fit operation a b n = .ok n :=
  if_pos (inRange_of_natAbs_le h)

end Number

namespace Data

variable {a b : Int}

theorem unaryResult_eq (op : Unary) (ha : a.natAbs < 2 ^ 31) : unaryResult op a = .ok (op.exact a) := by
  have hfit := Unary.natAbs_exact_le op ha
  cases op with
  | abs =>
    rw [unaryResult, Number.abs]
    by_cases hneg : a < 0
    · have habs : -a = Unary.exact .abs a := by rw [Unary.exact, Int.ofNat_natAbs_of_nonpos (Int.le_of_lt hneg)]
      rw [if_pos hneg, Number.neg, habs]
      exact Number.fit_of_natAbs_le hfit
    · have habs : a = Unary.exact .abs a := by rw [Unary.exact, Int.natAbs_of_nonneg (Int.not_lt.mp hneg)]
      rw [if_neg hneg, ← habs]
  | not => rfl
  | isNonzero => rfl
  | _ => exact Number.fit_of_natAbs_le hfit

theorem truth_eq {p : Prop} [Decidable p] {c : Bool} (h : c = true ↔ p) :
    truth c = .ok (if p then 1 else 0) := by
  rw [truth, if_congr h rfl rfl]

/-- Division by zero is all that is refused. -/
theorem binaryResult_eq (op : Binary) (ha : a.natAbs < 2 ^ 31) (hb : b.natAbs < 2 ^ 31)
    (h0 : op = .div ∨ op = .mod → b ≠ 0) : binaryResult op a b = .ok (op.exact a b) := by
  have hfit := Binary.natAbs_exact_le op ha hb
  cases op with
  | add => exact Number.fit_of_natAbs_le hfit
  | sub => exact Number.fit_of_natAbs_le hfit
  | div =>
    have hquot : a.tdiv b = Binary.exact .div a b := tdiv_eq_sign a b
    rw [binaryResult, if_neg (h0 (.inl rfl)), Number.div, hquot]
    exact Number.fit_of_natAbs_le hfit
  | mod =>
    have hquot : (a.tdiv b).natAbs ≤ 2 ^ 32 := by
      rw [tdiv_eq_sign]
      exact Binary.natAbs_exact_le .div ha hb
    rw [binaryResult, if_neg (h0 (.inr rfl)), Number.mod, if_pos (Number.inRange_of_natAbs_le hquot),
      tmod_eq_sign]
    rfl
  | boolAnd => exact truth_eq (by simp)
  | boolOr => exact truth_eq (by simp)
  | equal => exact truth_eq (by simp)
  | notEqual => exact truth_eq (by simp)
  | less => exact truth_eq (by simp)
  | greater => exact truth_eq (by simp)
  | lessOrEqual => exact truth_eq (by simp)
  | greaterOrEqual => exact truth_eq (by simp)
  | min => rw [binaryResult, Int.min_def, Binary.exact]
  | max => rw [binaryResult, Int.max_def, Binary.exact]

theorem binaryResult_of_zero {op : Binary} (h : op = .div ∨ op = .mod) :
    ∃ fault, binaryResult op a 0 = .error fault ∧ fault.code ≠ .numberOverflow := by
  rcases h with rfl | rfl
  · exact ⟨_, rfl, nofun⟩
  · exact ⟨_, rfl, nofun⟩

variable {minimal : Bool} {s t : Stack} {u : Unit}

open Number

theorem unary_ok {op : Unary} :
    unary minimal op s = .ok u t ↔ ∃ n below, s = n :: below ∧ IsOperand minimal n ∧
      encode (op.exact (signMagnitude n)) :: below = t := by
  cases s with
  | nil => simp [unary]
  | cons n below =>
    cases hn : operand minimal n with
    | error fault =>
      have hno : ¬ IsOperand minimal n := fun h => by
        rw [operand_ok.mpr ⟨h, rfl⟩] at hn
        cases hn
      simp [unary, hn, hno]
    | ok a =>
      obtain ⟨h, rfl⟩ := operand_ok.mp hn
      simp [unary, hn, h, unaryResult_eq op h.bound]

theorem binary_ok {op : Binary} :
    binary minimal op s = .ok u t ↔ ∃ b a below, s = b :: a :: below ∧
      IsOperand minimal a ∧ IsOperand minimal b ∧ (op = .div ∨ op = .mod → signMagnitude b ≠ 0) ∧
      encode (op.exact (signMagnitude a) (signMagnitude b)) :: below = t := by
  unfold binary
  simp only [onTwo_ok, except_bind_ok, except_pure_ok, operand_ok]
  constructor
  · intro h
    obtain ⟨b, a, below, _, rfl, ⟨_, ⟨ha, rfl⟩, _, ⟨hb, rfl⟩, r, hr, rfl⟩, rfl⟩ := h
    have hzero : op = .div ∨ op = .mod → signMagnitude b ≠ 0 := by
      intro hop h0
      obtain ⟨fault, hf, -⟩ := binaryResult_of_zero (a := signMagnitude a) hop
      rw [h0, hf] at hr
      cases hr
    rw [binaryResult_eq op ha.bound hb.bound hzero] at hr
    cases hr
    exact ⟨b, a, below, rfl, ha, hb, hzero, rfl⟩
  · intro h
    obtain ⟨b, a, below, rfl, ha, hb, hzero, rfl⟩ := h
    exact ⟨b, a, below, _, rfl,
      ⟨_, ⟨ha, rfl⟩, _, ⟨hb, rfl⟩, _, binaryResult_eq op ha.bound hb.bound hzero, rfl⟩, rfl⟩

theorem within_ok :
    within minimal s = .ok u t ↔ ∃ high low n below, s = high :: low :: n :: below ∧
      IsOperand minimal n ∧ IsOperand minimal low ∧ IsOperand minimal high ∧
      ofBool (signMagnitude low ≤ signMagnitude n && signMagnitude n < signMagnitude high) :: below = t := by
  match s with
  | [] | [_] | [_, _] => simp [within]
  | high :: low :: n :: below =>
    simp only [within]
    split
    · next item hr =>
      simp only [except_bind_ok, except_pure_ok, operand_ok] at hr
      obtain ⟨_, ⟨hn, rfl⟩, _, ⟨hlow, rfl⟩, _, ⟨hhigh, rfl⟩, rfl⟩ := hr
      simp [hn, hlow, hhigh]
    · next fault hr =>
      simp only [reduceCtorEq, false_iff]
      intro h
      obtain ⟨high, low, n, below, hs, hn, hlow, hhigh, -⟩ := h
      cases hs
      rw [operand_ok.mpr ⟨hn, rfl⟩, operand_ok.mpr ⟨hlow, rfl⟩, operand_ok.mpr ⟨hhigh, rfl⟩] at hr
      cases hr

section Overflows

variable {fault : Fault}

/-- An operation that overflows has met an item that is too long, and leaves the stack as it was. -/
def OverflowsOn (n : Nat) (s : Stack) (fault : Fault) (t : Stack) : Prop :=
  fault.code = .numberOverflow → t = s ∧ fault.IsOverlong 4 (s.take n)

theorem unary_overflow {op : Unary} (h : unary minimal op s = .error fault t) : OverflowsOn 1 s fault t := by
  intro hc
  cases s with
  | nil =>
    cases h
    cases hc
  | cons n below =>
    cases hn : operand minimal n with
    | error =>
      simp only [unary, hn] at h
      cases h
      obtain ⟨hl, rfl⟩ := operand_overflow hn hc
      exact ⟨rfl, n, by simp, hl, rfl⟩
    | ok a =>
      obtain ⟨ho, rfl⟩ := operand_ok.mp hn
      simp only [unary, hn, unaryResult_eq op ho.bound] at h
      cases h

theorem binary_overflow {op : Binary} (h : binary minimal op s = .error fault t) : OverflowsOn 2 s fault t := by
  intro hc
  obtain ⟨rfl, ⟨-, rfl⟩ | ⟨b, a, below, rfl, hf⟩⟩ := onTwo_error.mp h
  · cases hc
  · refine ⟨rfl, ?_⟩
    rcases except_bind_error.mp hf with ha | ⟨x, ha, hf⟩
    · obtain ⟨hl, rfl⟩ := operand_overflow ha hc
      exact ⟨a, by simp, hl, rfl⟩
    · rcases except_bind_error.mp hf with hb | ⟨y, hb, hf⟩
      · obtain ⟨hl, rfl⟩ := operand_overflow hb hc
        exact ⟨b, by simp, hl, rfl⟩
      · obtain ⟨hx, rfl⟩ := operand_ok.mp ha
        obtain ⟨hy, rfl⟩ := operand_ok.mp hb
        rcases except_bind_error.mp hf with hr | ⟨r, -, hp⟩
        · by_cases hzero : op = .div ∨ op = .mod → signMagnitude b ≠ 0
          · rw [binaryResult_eq op hx.bound hy.bound hzero] at hr
            cases hr
          · obtain ⟨hop, h0⟩ := Classical.not_imp.mp hzero
            obtain ⟨_, hf, hcode⟩ := binaryResult_of_zero (a := signMagnitude a) hop
            rw [Classical.not_not.mp h0, hf] at hr
            cases hr
            exact absurd hc hcode
        · cases hp

theorem within_overflow (h : within minimal s = .error fault t) : OverflowsOn 3 s fault t := by
  intro hc
  match s with
  | [] | [_] | [_, _] =>
    cases h
    cases hc
  | high :: low :: n :: below =>
    simp only [within] at h
    split at h
    · cases h
    · next fault hf =>
      cases h
      refine ⟨rfl, ?_⟩
      rcases except_bind_error.mp hf with hn | ⟨x, -, hf⟩
      · obtain ⟨hl, rfl⟩ := operand_overflow hn hc
        exact ⟨n, by simp, hl, rfl⟩
      · rcases except_bind_error.mp hf with hlow | ⟨y, -, hf⟩
        · obtain ⟨hl, rfl⟩ := operand_overflow hlow hc
          exact ⟨low, by simp, hl, rfl⟩
        · rcases except_bind_error.mp hf with hhigh | ⟨z, -, hp⟩
          · obtain ⟨hl, rfl⟩ := operand_overflow hhigh hc
            exact ⟨high, by simp, hl, rfl⟩
          · cases hp

end Overflows

end Data

/-- An assertion does not overflow. -/
theorem Effect.code_of_assertTop {assertion : Assertion} {st st' : State} {fault : Fault}
    (h : assertTop assertion st = .error fault st') : fault.code ≠ .numberOverflow := by
  obtain ⟨s, hs, -⟩ := onMain_error.mp h
  split at hs
  · cases hs
    nofun
  · split at hs
    · cases hs
    · cases hs
      cases assertion <;> nofun

namespace Numeric

variable {ctx : Context} {rest : Bytes} {st st' : State} {u : Unit} {minimal : Bool}
  {operands : List Bytes}

open Number

/-- All operations, in the order of their codes. -/
def all : List Numeric :=
  [.unary .increment, .unary .decrement, .unary .negate, .unary .abs, .unary .not, .unary .isNonzero,
   .binary .add, .binary .sub, .binary .div, .binary .mod, .binary .boolAnd, .binary .boolOr,
   .binary .equal, .equalVerify, .binary .notEqual, .binary .less, .binary .greater,
   .binary .lessOrEqual, .binary .greaterOrEqual, .binary .min, .binary .max, .within]

/-- The codes are those from `OP_1ADD` to `OP_WITHIN` that may run. -/
theorem exists_code_iff {code : Opcode} :
    (∃ op : Numeric, op.code = code) ↔ 0x8b ≤ code ∧ code ≤ 0xa5 ∧ code.isDisabled = false := by
  constructor
  · intro h
    obtain ⟨op, rfl⟩ := h
    cases op with
    | unary op => cases op <;> decide
    | binary op => cases op <;> decide
    | equalVerify => decide
    | within => decide
  · intro h
    obtain ⟨first, last, enabled⟩ := h
    have hcodes : ∀ n ∈ List.range' 0x8b 27, Opcode.isDisabled (UInt8.ofNat n) = false →
        UInt8.ofNat n ∈ all.map Numeric.code := by decide +kernel
    have hmem : code.toNat ∈ List.range' 0x8b 27 := by
      have hfirst : 0x8b ≤ code.toNat := UInt8.le_iff_toNat_le.mp first
      have hlast : code.toNat ≤ 0xa5 := UInt8.le_iff_toNat_le.mp last
      rw [List.mem_range'_1]
      omega
    have hcode := hcodes code.toNat hmem
    rw [UInt8.ofNat_toNat] at hcode
    obtain ⟨op, -, hop⟩ := List.mem_map.mp (hcode enabled)
    exact ⟨op, hop⟩

def instruction : Numeric → Instruction
  | .unary op => .unary op
  | .binary op => .binary op false
  | .equalVerify => .binary .equal true
  | .within => .within

theorem ofOpcode_code (op : Numeric) : Instruction.ofOpcode op.code = op.instruction := by
  cases op with
  | unary op => cases op <;> rfl
  | binary op => cases op <;> rfl
  | equalVerify => rfl
  | within => rfl

theorem run_code (op : Numeric) : op.code.run ctx rest = op.instruction.run ctx op.code true rest := by
  rw [Opcode.run, ofOpcode_code]

theorem takes_unary {op : Unary} :
    (unary op).Takes minimal operands ↔ ∃ n, operands = [n] ∧ IsOperand minimal n := by
  constructor
  · intro h
    obtain ⟨n, rfl⟩ := List.length_eq_one_iff.mp h.count
    exact ⟨n, rfl, h.short n (by simp), fun hm => h.shortest hm n (by simp)⟩
  · intro h
    obtain ⟨n, rfl, hn⟩ := h
    exact ⟨rfl, by simpa using hn.1, by simpa using hn.2, trivial⟩

theorem takes_two (op : Numeric) (hop : op.arity = 2) :
    op.Takes minimal operands ↔ ∃ a b, operands = [a, b] ∧ IsOperand minimal a ∧ IsOperand minimal b ∧
      op.Admits [signMagnitude a, signMagnitude b] := by
  constructor
  · intro h
    obtain ⟨a, b, rfl⟩ := List.length_eq_two.mp (h.count.trans hop)
    exact ⟨a, b, rfl, ⟨h.short a (by simp), fun hm => h.shortest hm a (by simp)⟩,
      ⟨h.short b (by simp), fun hm => h.shortest hm b (by simp)⟩, h.admitted⟩
  · intro h
    obtain ⟨a, b, rfl, ha, hb, hadmits⟩ := h
    refine ⟨hop.symm, ?_, fun hm => ?_, hadmits⟩
    · simp [ha.1, hb.1]
    · simp [ha.2 hm, hb.2 hm]

theorem takes_within :
    within.Takes minimal operands ↔ ∃ n low high, operands = [n, low, high] ∧ IsOperand minimal n ∧
      IsOperand minimal low ∧ IsOperand minimal high := by
  constructor
  · intro h
    obtain ⟨n, low, high, rfl⟩ := List.length_eq_three.mp h.count
    exact ⟨n, low, high, rfl, ⟨h.short n (by simp), fun hm => h.shortest hm n (by simp)⟩,
      ⟨h.short low (by simp), fun hm => h.shortest hm low (by simp)⟩,
      ⟨h.short high (by simp), fun hm => h.shortest hm high (by simp)⟩⟩
  · intro h
    obtain ⟨n, low, high, rfl, hn, hlow, hhigh⟩ := h
    refine ⟨rfl, ?_, fun hm => ?_, trivial⟩
    · simp [hn.1, hlow.1, hhigh.1]
    · simp [hn.2 hm, hlow.2 hm, hhigh.2 hm]

theorem isTrue_equal (a b : Int) : isTrue (encode (Binary.exact .equal a b)) = decide (a = b) := by
  have hbool : encode (Binary.exact .equal a b) = ofBool (decide (a = b)) := by
    simp [ofBool_eq_encode, Binary.exact]
  rw [hbool, isTrue_ofBool]

/-- An operation succeeds on the operands that it takes, and leaves the result in their place. -/
theorem run_ok {op : Numeric} :
    op.code.run ctx rest st = .ok u st' ↔
      ∃ operands below, st.main = operands.reverse ++ below ∧ op.Takes ctx.minimal operands ∧
        { st with main := op.left (operands.map signMagnitude) ++ below } = st' := by
  rw [run_code]
  cases op with
  | unary op =>
    change Effect.onMain (Data.unary ctx.minimal op) st = _ ↔ _
    simp only [Effect.onMain_ok, Data.unary_ok, takes_unary]
    constructor
    · intro h
      obtain ⟨_, ⟨n, below, hs, hn, rfl⟩, rfl⟩ := h
      exact ⟨[n], below, hs, ⟨n, rfl, hn⟩, rfl⟩
    · intro h
      obtain ⟨_, below, hs, ⟨n, rfl, hn⟩, rfl⟩ := h
      exact ⟨_, ⟨n, below, hs, hn, rfl⟩, rfl⟩
  | binary op =>
    change (Effect.onMain (Data.binary ctx.minimal op) >>= fun _ => pure ()) st = _ ↔ _
    simp only [Effect.bind_ok, Effect.pure_ok, Effect.onMain_ok, Data.binary_ok, takes_two (.binary op) rfl]
    constructor
    · intro h
      obtain ⟨_, _, ⟨_, ⟨b, a, below, hs, ha, hb, hzero, rfl⟩, rfl⟩, -, rfl⟩ := h
      exact ⟨[a, b], below, hs, ⟨a, b, rfl, ha, hb, hzero⟩, rfl⟩
    · intro h
      obtain ⟨_, below, hs, ⟨a, b, rfl, ha, hb, hzero⟩, rfl⟩ := h
      exact ⟨(), _, ⟨_, ⟨b, a, below, hs, ha, hb, hzero, rfl⟩, rfl⟩, trivial, rfl⟩
  | equalVerify =>
    change (Effect.onMain (Data.binary ctx.minimal .equal) >>= fun _ =>
      Effect.assertTop .numericEquality) st = _ ↔ _
    simp only [Effect.bind_ok, Effect.assertTop_ok, Effect.onMain_ok, Data.binary_ok,
      takes_two .equalVerify rfl]
    constructor
    · intro h
      obtain ⟨_, _, ⟨_, ⟨b, a, below, hs, ha, hb, -, rfl⟩, rfl⟩, top, s, htop, htrue, rfl⟩ := h
      cases htop
      have heq : signMagnitude a = signMagnitude b := by
        rw [isTrue_equal] at htrue
        exact of_decide_eq_true htrue
      exact ⟨[a, b], below, hs, ⟨a, b, rfl, ha, hb, heq⟩, rfl⟩
    · intro h
      obtain ⟨_, below, hs, ⟨a, b, rfl, ha, hb, heq⟩, rfl⟩ := h
      have htrue : isTrue (encode (Binary.exact .equal (signMagnitude a) (signMagnitude b))) = true := by
        rw [isTrue_equal]
        exact decide_eq_true heq
      exact ⟨(), _, ⟨_, ⟨b, a, below, hs, ha, hb, nofun, rfl⟩, rfl⟩, _, below, rfl, htrue, rfl⟩
  | within =>
    change Effect.onMain (Data.within ctx.minimal) st = _ ↔ _
    have hbool (n low high : Int) :
        ofBool (low ≤ n && n < high) = encode (exact .within [n, low, high]) := by
      simp [ofBool_eq_encode, exact]
    simp only [Effect.onMain_ok, Data.within_ok, takes_within, hbool]
    constructor
    · intro h
      obtain ⟨_, ⟨high, low, n, below, hs, hn, hlow, hhigh, rfl⟩, rfl⟩ := h
      exact ⟨[n, low, high], below, hs, ⟨n, low, high, rfl, hn, hlow, hhigh⟩, rfl⟩
    · intro h
      obtain ⟨_, below, hs, ⟨n, low, high, rfl, hn, hlow, hhigh⟩, rfl⟩ := h
      exact ⟨_, ⟨high, low, n, below, hs, hn, hlow, hhigh, rfl⟩, rfl⟩

/-- Every result is written in at most five bytes. -/
theorem left_spec {op : Numeric} (h : op.Takes minimal operands) {item : Bytes}
    (hi : item ∈ op.left (operands.map signMagnitude)) :
    item.length ≤ 5 ∧ isMinimal item = true ∧ signMagnitude item = op.exact (operands.map signMagnitude) := by
  have hbound : (op.exact (operands.map signMagnitude)).natAbs ≤ 2 ^ 32 := by
    cases op with
    | unary op =>
      obtain ⟨n, rfl, hn⟩ := takes_unary.mp h
      exact Unary.natAbs_exact_le op hn.bound
    | binary op =>
      obtain ⟨a, b, rfl, ha, hb, -⟩ := (takes_two _ rfl).mp h
      exact Binary.natAbs_exact_le op ha.bound hb.bound
    | equalVerify => cases hi
    | within =>
      obtain ⟨n, low, high, rfl, -⟩ := takes_within.mp h
      change (if _ then (1 : Int) else 0).natAbs ≤ 2 ^ 32
      split <;> decide
  unfold left at hi
  split at hi
  · cases hi
  · cases List.mem_singleton.mp hi
    refine ⟨length_encode_le_iff.mpr ?_, isMinimal_encode _, signMagnitude_encode _⟩
    omega

/-- An overflow leaves everything in place and names an operand. -/
theorem run_overflow {op : Numeric} {fault : Fault} (h : op.code.run ctx rest st = .error fault st')
    (hc : fault.code = .numberOverflow) :
    st' = st ∧ fault.IsOverlong 4 (st.main.take op.arity) := by
  rw [run_code] at h
  cases op with
  | unary op =>
    obtain ⟨s, hs, rfl⟩ := Effect.onMain_error.mp h
    obtain ⟨rfl, hl⟩ := Data.unary_overflow hs hc
    exact ⟨rfl, hl⟩
  | binary op =>
    rcases Effect.bind_error.mp h with h | ⟨_, _, -, hp⟩
    · obtain ⟨s, hs, rfl⟩ := Effect.onMain_error.mp h
      obtain ⟨rfl, hl⟩ := Data.binary_overflow hs hc
      exact ⟨rfl, hl⟩
    · cases hp
  | equalVerify =>
    rcases Effect.bind_error.mp h with h | ⟨_, _, -, ha⟩
    · obtain ⟨s, hs, rfl⟩ := Effect.onMain_error.mp h
      obtain ⟨rfl, hl⟩ := Data.binary_overflow hs hc
      exact ⟨rfl, hl⟩
    · exact absurd hc (Effect.code_of_assertTop ha)
  | within =>
    obtain ⟨s, hs, rfl⟩ := Effect.onMain_error.mp h
    obtain ⟨rfl, hl⟩ := Data.within_overflow hs hc
    exact ⟨rfl, hl⟩

end Numeric

end CoinScript
