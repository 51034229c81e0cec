import CoinScript.Proofs.Framing
import CoinScript.Proofs.Nesting

namespace CoinScript

namespace Opcode

/-- The code that opens a conditional whose first branch is taken if the condition is `on`. -/
def opening (on : Bool) : Opcode := if on then branchIf else branchUnless

/-- The code of a signature check, with or without insisting on the answer. -/
def checkingSig (verify : Bool) : Opcode := if verify then checkSigVerify else checkSig

def checkingMultisig (verify : Bool) : Opcode := if verify then checkMultisigVerify else checkMultisig

def checkingDataSig (verify : Bool) : Opcode := if verify then checkDataSigVerify else checkDataSig

theorem not_opens_or_closes {op : Opcode} (h : op.isConditional = true → op.isVersionBranch = true) :
    op.opensBranch = false ∧ op.turnsBranch = false ∧ op.closesBranch = false := by
  refine ⟨?_, ?_, ?_⟩
  · rw [Bool.eq_false_iff]
    intro ho
    rw [opensBranch, Bool.or_eq_true, beq_iff_eq, beq_iff_eq] at ho
    rcases ho with rfl | rfl
    · exact absurd (h rfl) (by decide)
    · exact absurd (h rfl) (by decide)
  · rw [Bool.eq_false_iff]
    intro ht
    rw [turnsBranch, beq_iff_eq] at ht
    subst ht
    exact absurd (h rfl) (by decide)
  · rw [Bool.eq_false_iff]
    intro hc
    rw [closesBranch, beq_iff_eq] at hc
    subst hc
    exact absurd (h rfl) (by decide)

end Opcode

namespace Operation

variable {depth : Nat} {op : Operation}

theorem nest_opening {on : Bool} (hc : op.code = Opcode.opening on) :
    nest depth op = some (depth + 1) := by
  unfold nest
  rw [hc]
  cases on <;> rfl

theorem nest_otherwise (hc : op.code = Opcode.otherwise) :
    nest (depth + 1) op = some (depth + 1) := by
  unfold nest
  rw [hc]
  rfl

theorem nest_branchEnd (hc : op.code = Opcode.branchEnd) : nest (depth + 1) op = some depth := by
  unfold nest
  rw [hc]
  rfl

theorem nest_of_plain (h : op.code.isConditional = true → op.code.isVersionBranch = true) :
    nest depth op = some depth := by
  obtain ⟨ho, ht, hc⟩ := Opcode.not_opens_or_closes h
  simp [nest, ho, ht, hc]

end Operation

namespace Instruction

variable {op : Opcode} {i : Instruction}

theorem mem_table_of_lookup (h : table.lookup op = some i) : (op, i) ∈ table := by
  obtain ⟨before, after, ht, -⟩ := List.lookup_eq_some_iff.mp h
  rw [ht]
  simp

/-- The codes of the table that do not act on the stacks alone. -/
theorem special_of_mem : ∀ entry ∈ table, entry.2.actsOnStacks = false →
    (∃ on, entry = (Opcode.opening on, .branch on)) ∨ entry = (Opcode.otherwise, .otherwise) ∨
      entry = (Opcode.branchEnd, .endBranch) ∨ entry = (Opcode.codeSeparator, .codeSeparator) ∨
      (∃ verify, entry = (Opcode.checkingSig verify, .checkSig verify)) ∨
      (∃ verify, entry = (Opcode.checkingMultisig verify, .checkMultisig verify)) ∨
      ∃ verify, entry = (Opcode.checkingDataSig verify, .checkDataSig verify) := by
  decide

theorem mem_table_of_not_actsOnStacks (h : (ofOpcode op).actsOnStacks = false) :
    (op, ofOpcode op) ∈ table := by
  unfold ofOpcode at h ⊢
  split at h
  · cases h
  · next hn =>
    rw [if_neg hn]
    cases hl : table.lookup op with
    | none =>
      rw [hl] at h
      cases h
    | some i => exact mem_table_of_lookup hl

theorem actsOnStacks_of_isPush {op : Operation} (h : op.isPush = true) :
    (ofOpcode op.code).actsOnStacks = true := by
  have hle : op.code ≤ Opcode.pushData4 := by simpa [Operation.isPush] using h
  have hbig : ∀ entry ∈ table, ¬ entry.1 ≤ Opcode.pushData4 := by decide
  rw [← Bool.not_eq_false]
  intro hs
  exact hbig _ (mem_table_of_not_actsOnStacks hs) hle

end Instruction

namespace Effect

/-- What an operation does where it stands, `executing` telling whether its branch is taken. -/
inductive Action (ctx : Context) (op : Operation) (rest : Bytes) (executing : Bool) :
    Effect Unit → Prop
  | onStacks {e : Effect Unit} (framed : ∀ f, Framing f → Commutes f e)
      (plain : op.code.isConditional = true → op.code.isVersionBranch = true)
      (acts : executing = true → (Instruction.ofOpcode op.code).actsOnStacks = true) :
      Action ctx op rest executing e
  | opening (on : Bool) (hc : op.code = Opcode.opening on) :
      Action ctx op rest executing (Control.branch ctx on executing)
  | turning (hc : op.code = Opcode.otherwise) : Action ctx op rest executing Control.otherwise
  | closing (hc : op.code = Opcode.branchEnd) : Action ctx op rest executing Control.endBranch
  | separating (hx : executing = true) (hc : op.code = Opcode.codeSeparator) :
      Action ctx op rest executing (modify fun st => { st with code := rest })
  | checkSig (hx : executing = true) (verify : Bool) (hc : op.code = Opcode.checkingSig verify) :
      Action ctx op rest executing (Signing.checkSig ctx verify)
  | checkMultisig (hx : executing = true) (verify : Bool)
      (hc : op.code = Opcode.checkingMultisig verify) :
      Action ctx op rest executing (Signing.checkMultisig ctx verify)
  | checkDataSig (hx : executing = true) (verify : Bool)
      (hc : op.code = Opcode.checkingDataSig verify) :
      Action ctx op rest executing (Signing.checkDataSig ctx verify)

variable {ctx : Context} {op : Operation} {rest : Bytes} {executing : Bool}

/-- In a branch that is not taken only the codes of conditionals act. -/
theorem act_skipped (hc : op.code.isConditional = false) : act ctx op rest false = pure () := by
  simp [act, hc]

theorem act_framed {f : State → State} (hf : Framing f)
    (h : (executing || op.code.isConditional) = true →
      (Instruction.ofOpcode op.code).actsOnStacks = true) :
    Commutes f (act ctx op rest executing) := by
  unfold act
  split
  · exact pushData_framed hf op
  · split
    · next hr => exact Instruction.run_framed hf (h hr)
    · exact .pure ()

/-- Codes that act on more than the stacks are not those of pushes, and run as instructions. -/
theorem act_of_instruction {i : Instruction} (hi : Instruction.ofOpcode op.code = i)
    (hs : i.actsOnStacks = false) (hr : (executing || op.code.isConditional) = true) :
    act ctx op rest executing = i.run ctx op.code executing rest := by
  have hp : op.isPush = false := by
    rw [Bool.eq_false_iff]
    intro hp
    rw [← hi, Instruction.actsOnStacks_of_isPush hp] at hs
    cases hs
  unfold act
  rw [hp, Bool.and_false, if_neg Bool.false_ne_true, if_pos hr, hi]

theorem act_opening {on : Bool} (hc : op.code = Opcode.opening on) :
    act ctx op rest executing = Control.branch ctx on executing := by
  have hi : Instruction.ofOpcode op.code = .branch on := by
    rw [hc]
    cases on <;> rfl
  have hr : (executing || op.code.isConditional) = true := by
    rw [hc]
    cases on <;> cases executing <;> rfl
  exact act_of_instruction hi rfl hr

theorem act_otherwise (hc : op.code = Opcode.otherwise) :
    act ctx op rest executing = Control.otherwise := by
  have hi : Instruction.ofOpcode op.code = .otherwise := by
    rw [hc]
    rfl
  exact act_of_instruction hi rfl (by rw [hc]; cases executing <;> rfl)

theorem act_branchEnd (hc : op.code = Opcode.branchEnd) :
    act ctx op rest executing = Control.endBranch := by
  have hi : Instruction.ofOpcode op.code = .endBranch := by
    rw [hc]
    rfl
  exact act_of_instruction hi rfl (by rw [hc]; cases executing <;> rfl)

theorem act_checkMultisig {verify : Bool} (hc : op.code = Opcode.checkingMultisig verify) :
    act ctx op rest true = Signing.checkMultisig ctx verify := by
  have hi : Instruction.ofOpcode op.code = .checkMultisig verify := by
    rw [hc]
    cases verify <;> rfl
  exact act_of_instruction hi rfl rfl

theorem act_action : Action ctx op rest executing (act ctx op rest executing) := by
  by_cases h : (executing || op.code.isConditional) = true →
      (Instruction.ofOpcode op.code).actsOnStacks = true
  · refine .onStacks (fun f hf => act_framed hf h) ?_ ?_
    · intro hc
      have hs := h (by rw [hc, Bool.or_true])
      rcases Opcode.eq_of_isConditional hc with hc | hc | hc | hc | hc
      · rw [hc] at hs
        cases hs
      · rw [hc] at hs
        cases hs
      · exact hc
      · rw [hc] at hs
        cases hs
      · rw [hc] at hs
        cases hs
    · intro hx
      exact h (by rw [hx, Bool.true_or])
  · rw [Classical.not_imp, Bool.not_eq_true] at h
    obtain ⟨hr, hs⟩ := h
    rw [act_of_instruction rfl hs hr]
    have hmem := Instruction.special_of_mem _ (Instruction.mem_table_of_not_actsOnStacks hs) hs
    simp only [Prod.mk.injEq] at hmem
    -- outside a branch that is taken only the codes of conditionals run
    have hexec (hc : op.code.isConditional = false) : executing = true := by
      rw [hc, Bool.or_false] at hr
      exact hr
    rcases hmem with ⟨on, hc, hi⟩ | ⟨hc, hi⟩ | ⟨hc, hi⟩ | ⟨hc, hi⟩ | ⟨v, hc, hi⟩ | ⟨v, hc, hi⟩ |
      ⟨v, hc, hi⟩
    · rw [hi]
      exact .opening on hc
    · rw [hi]
      exact .turning hc
    · rw [hi]
      exact .closing hc
    · rw [hi]
      exact .separating (hexec (by rw [hc]; rfl)) hc
    · rw [hi]
      exact .checkSig (hexec (by rw [hc]; cases v <;> rfl)) v hc
    · rw [hi]
      exact .checkMultisig (hexec (by rw [hc]; cases v <;> rfl)) v hc
    · rw [hi]
      exact .checkDataSig (hexec (by rw [hc]; cases v <;> rfl)) v hc

end Effect

end CoinScript
