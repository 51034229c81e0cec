import CoinScript.Engine.Instruction
import CoinScript.Script.Basic

namespace CoinScript

namespace Opcode

def branchUnless : Opcode := 0x64
def versionIf : Opcode := 0x65
def versionUnless : Opcode := 0x66
def otherwise : Opcode := 0x67

def opensBranch (op : Opcode) : Bool := op == branchIf || op == branchUnless

def closesBranch (op : Opcode) : Bool := op == branchEnd

def turnsBranch (op : Opcode) : Bool := op == otherwise

/-- Conditionals on a version, which nothing ever opens. -/
def isVersionBranch (op : Opcode) : Bool := op == versionIf || op == versionUnless

theorem eq_of_isConditional {op : Opcode} (h : op.isConditional = true) :
    op = branchIf ∨ op = branchUnless ∨ op.isVersionBranch = true ∨ op = otherwise ∨
      op = branchEnd := by
  simp only [isConditional, Bool.and_eq_true, decide_eq_true_eq, UInt8.le_iff_toNat_le] at h
  change 0x63 ≤ op.toNat ∧ op.toNat ≤ 0x68 at h
  have hcases : op.toNat = 0x63 ∨ op.toNat = 0x64 ∨ op.toNat = 0x65 ∨ op.toNat = 0x66 ∨
      op.toNat = 0x67 ∨ op.toNat = 0x68 := by omega
  rcases hcases with h | h | h | h | h | h
  · exact .inl (UInt8.toNat_inj.mp h)
  · exact .inr (.inl (UInt8.toNat_inj.mp h))
  · have hv : op = versionIf := UInt8.toNat_inj.mp h
    exact .inr (.inr (.inl (by rw [hv]; rfl)))
  · have hv : op = versionUnless := UInt8.toNat_inj.mp h
    exact .inr (.inr (.inl (by rw [hv]; rfl)))
  · exact .inr (.inr (.inr (.inl (UInt8.toNat_inj.mp h))))
  · exact .inr (.inr (.inr (.inr (UInt8.toNat_inj.mp h))))

end Opcode

namespace Operation

/-- How many conditionals a sequence opens. -/
def opened (ops : List Operation) : Nat := ops.countP fun op => op.code.opensBranch

/-- How many conditionals a sequence closes. -/
def closed (ops : List Operation) : Nat := ops.countP fun op => op.code.closesBranch

/-- How many operations of a sequence count against the budget. -/
def counted (ops : List Operation) : Nat := ops.countP fun op => op.code.isCounted

/-- No part at the front closes more than it opens, a conditional is turned or closed only where one
is open, and in the end none is left open. -/
structure Balanced (ops : List Operation) : Prop where
  front : ∀ before after, ops = before ++ after → closed before ≤ opened before
  inside : ∀ before op after, ops = before ++ op :: after →
    op.code.turnsBranch = true ∨ op.code.closesBranch = true → closed before < opened before
  whole : closed ops = opened ops

/-- How many conditionals are open after an operation that finds `depth` of them open. -/
def nest (depth : Nat) (op : Operation) : Option Nat :=
  if op.code.opensBranch then some (depth + 1)
  else if op.code.turnsBranch then (if depth = 0 then none else some depth)
  else if op.code.closesBranch then (if depth = 0 then none else some (depth - 1))
  else some depth

def nesting (depth : Nat) (ops : List Operation) : Option Nat := ops.foldlM nest depth

variable {depth depth' : Nat} {op : Operation} {ops before after : List Operation}

@[simp] theorem opened_cons : opened (op :: ops) = opened ops + if op.code.opensBranch then 1 else 0 :=
  List.countP_cons

@[simp] theorem closed_cons : closed (op :: ops) = closed ops + if op.code.closesBranch then 1 else 0 :=
  List.countP_cons

@[simp] theorem counted_cons : counted (op :: ops) = counted ops + if op.code.isCounted then 1 else 0 :=
  List.countP_cons

@[simp] theorem counted_append : counted (before ++ after) = counted before + counted after :=
  List.countP_append

theorem nesting_cons : nesting depth (op :: ops) = (nest depth op).bind fun d => nesting d ops :=
  List.foldlM_cons

theorem nesting_append :
    nesting depth (before ++ after) = (nesting depth before).bind fun d => nesting d after :=
  List.foldlM_append

/-- An operation is of at most one of the three kinds. -/
theorem nest_eq_some :
    nest depth op = some depth' ↔
      (op.code.turnsBranch = true ∨ op.code.closesBranch = true → 0 < depth) ∧
        (if op.code.closesBranch then 1 else 0) + depth' =
          (if op.code.opensBranch then 1 else 0) + depth := by
  by_cases ho : op.code.opensBranch = true
  · have ht : op.code.turnsBranch = false := by
      rw [Opcode.opensBranch, Bool.or_eq_true, beq_iff_eq, beq_iff_eq] at ho
      rcases ho with h | h <;> rw [h] <;> rfl
    have hc : op.code.closesBranch = false := by
      rw [Opcode.opensBranch, Bool.or_eq_true, beq_iff_eq, beq_iff_eq] at ho
      rcases ho with h | h <;> rw [h] <;> rfl
    simp [nest, ho, ht, hc]
    omega
  · by_cases ht : op.code.turnsBranch = true
    · have hc : op.code.closesBranch = false := by
        rw [Opcode.turnsBranch, beq_iff_eq] at ht
        rw [ht]
        rfl
      simp only [nest, ho, ht, hc]
      by_cases hd : depth = 0 <;> simp [hd]
      omega
    · by_cases hc : op.code.closesBranch = true
      · simp only [nest, ho, ht, hc]
        by_cases hd : depth = 0 <;> simp [hd]
        omega
      · simp [nest, ho, ht, hc, eq_comm]

theorem nesting_counts (h : nesting depth ops = some depth') :
    closed ops + depth' = opened ops + depth := by
  induction ops generalizing depth with
  | nil =>
    cases h
    rfl
  | cons op ops ih =>
    rw [nesting_cons] at h
    obtain ⟨d, hop, h⟩ := Option.bind_eq_some_iff.mp h
    have hrest := ih h
    have hfirst := (nest_eq_some.mp hop).2
    rw [opened_cons, closed_cons]
    omega

/-- By induction on the sequence, `depth` conditionals being open before it. -/
theorem exists_nesting (depth : Nat)
    (h : ∀ before op after, ops = before ++ op :: after →
      op.code.turnsBranch = true ∨ op.code.closesBranch = true →
        closed before < opened before + depth) :
    ∃ depth', nesting depth ops = some depth' := by
  induction ops generalizing depth with
  | nil => exact ⟨depth, rfl⟩
  | cons op ops ih =>
    have hopen (ht : op.code.turnsBranch = true ∨ op.code.closesBranch = true) : 0 < depth := by
      simpa [opened, closed] using h [] op ops rfl ht
    obtain ⟨d, hd⟩ : ∃ d, nest depth op = some d := by
      by_cases hc : op.code.closesBranch = true
      · refine ⟨(if op.code.opensBranch then 1 else 0) + depth - 1, nest_eq_some.mpr ⟨hopen, ?_⟩⟩
        have := hopen (.inr hc)
        rw [if_pos hc]
        omega
      · refine ⟨(if op.code.opensBranch then 1 else 0) + depth, nest_eq_some.mpr ⟨hopen, ?_⟩⟩
        rw [if_neg hc, Nat.zero_add]
    have hcount := (nest_eq_some.mp hd).2
    obtain ⟨depth', hrest⟩ := ih d (by
      intro before op' after hops ht
      have hb := h (op :: before) op' after (by rw [hops, List.cons_append]) ht
      rw [opened_cons, closed_cons] at hb
      omega)
    exact ⟨depth', by rw [nesting_cons, hd, Option.bind_some, hrest]⟩

theorem balanced_iff : Balanced ops ↔ nesting 0 ops = some 0 := by
  constructor
  · intro h
    obtain ⟨depth, hd⟩ := exists_nesting 0 h.inside
    have hc := nesting_counts hd
    have hw := h.whole
    have hz : depth = 0 := by omega
    rw [hd, hz]
  · intro h
    have hfront {before after : List Operation} (hops : ops = before ++ after) :
        ∃ d, closed before + d = opened before ∧ nesting d after = some 0 := by
      rw [hops, nesting_append] at h
      obtain ⟨d, hb, ha⟩ := Option.bind_eq_some_iff.mp h
      exact ⟨d, nesting_counts hb, ha⟩
    refine ⟨?front, ?inside, nesting_counts h⟩
    case front =>
      intro before after hops
      obtain ⟨d, hd, -⟩ := hfront hops
      omega
    case inside =>
      intro before op after hops ht
      obtain ⟨d, hd, ha⟩ := hfront hops
      rw [nesting_cons] at ha
      obtain ⟨_, hop, -⟩ := Option.bind_eq_some_iff.mp ha
      have := (nest_eq_some.mp hop).1 ht
      omega

instance (ops : List Operation) : Decidable (Balanced ops) := decidable_of_iff _ balanced_iff.symm

end Operation

end CoinScript
