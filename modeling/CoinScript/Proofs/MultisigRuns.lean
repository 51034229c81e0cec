import CoinScript.Proofs.OrderedMultisig
import CoinScript.Proofs.Solving
import Mathlib.Tactic.IntervalCases

namespace CoinScript

namespace Signing

open Effect

variable {ctx : Context} {st st' : State} {u : Unit}

/-- The operands are found, paid for and answered about, and the answer takes their place. -/
theorem checkMultisig_ok :
    checkMultisig ctx false st = .ok u st' ↔
      ∃ (m : Multisig) (success : Bool), m.On ctx st.main ∧ st.opCount + m.keys.length ≤ ctx.budget ∧
        m.run ctx ⟨st.code⟩ = .ok success ∧ m.answering ctx.flags success st = st' := by
  constructor
  · intro h
    obtain ⟨m, _, hread, -⟩ := bind_ok.mp h
    obtain ⟨hs, hb, -⟩ := readMultisig_ok.mp hread
    cases hr : m.run ctx ⟨st.code⟩ with
    | error fault =>
      rw [checkMultisig_of_run_error hs hb hr] at h
      cases h
    | ok success =>
      rw [checkMultisig_of_run_ok hs hb hr] at h
      cases h
      exact ⟨m, success, hs, hb, hr, rfl⟩
  · intro h
    obtain ⟨m, success, hs, hb, hr, rfl⟩ := h
    exact checkMultisig_of_run_ok hs hb hr

theorem operand_number (minimal : Bool) {n : Nat} (h0 : 0 < n) (h : n ≤ 16) :
    Number.operand minimal [UInt8.ofNat n] = .ok n := by
  cases minimal <;> interval_cases n <;> rfl

/-- Two counts determine the operands that lie on a stack. -/
theorem Multisig.on_counted {n k : Nat} {keys : List Bytes} {m : Multisig} {s : Stack}
    (hn : 0 < n ∧ n ≤ 16) (hk : 0 < k ∧ k ≤ n) (hl : keys.length = n) :
    m.On ctx ([UInt8.ofNat n] :: (keys ++ [UInt8.ofNat k] :: s)) ↔
      m.keys = keys ∧ m.signatures.length = k ∧ ∃ below, s = m.signatures ++ m.dummy :: below := by
  have hcount := operand_number ctx.minimal hn.1 hn.2
  have hrequired := operand_number ctx.minimal hk.1 (Nat.le_trans hk.2 hn.2)
  constructor
  · intro h
    obtain ⟨count, required, below, hs, hc, hr, -, -⟩ := h
    obtain ⟨rfl, htail⟩ := List.cons.inj hs
    rw [hcount, Except.ok.injEq, Nat.cast_inj] at hc
    obtain ⟨hkeys, hrest⟩ := List.append_inj htail (hl.trans hc)
    obtain ⟨rfl, hsigs⟩ := List.cons.inj hrest
    rw [hrequired, Except.ok.injEq, Nat.cast_inj] at hr
    exact ⟨hkeys.symm, hr.symm, below, hsigs⟩
  · intro h
    obtain ⟨rfl, rfl, below, rfl⟩ := h
    subst hl
    exact ⟨_, _, below, rfl, hcount, hrequired, Nat.le_trans hn.2 (by decide), hk.2⟩

/-- The answer lies on what was below the operands. -/
theorem Multisig.answering_main {flags : Flags} {m : Multisig} {success : Bool}
    {count required : Bytes} {below : Stack}
    (hm : st.main = count :: (m.keys ++ required :: (m.signatures ++ m.dummy :: below))) :
    (m.answering flags success st).main = Number.ofBool success :: below :=
  congrArg (Number.ofBool success :: ·) (operands_found hm).2.2.2.2.2

theorem Multisig.answering_depth_le {flags : Flags} {m : Multisig} {success : Bool}
    (hs : m.On ctx st.main) : (m.answering flags success st).depth ≤ st.depth := by
  obtain ⟨count, required, below, hm, -⟩ := hs
  have halt : (m.answering flags success st).alt = st.alt := rfl
  simp only [State.depth, answering_main hm, halt, hm, List.length_cons, List.length_append]
  omega

/-- Counted from the other end, later signatures have earlier keys. -/
theorem Multisig.sublistForall₂_reverse {R : Bytes → Bytes → Prop} {sigs keys : List Bytes}
    (h : List.SublistForall₂ R sigs keys) : List.SublistForall₂ R sigs.reverse keys.reverse := by
  obtain ⟨chosen, hr, hs⟩ := List.sublistForall₂_iff.mp h
  exact List.sublistForall₂_iff.mpr ⟨chosen.reverse, List.forall₂_reverse_iff.mpr hr, hs.reverse⟩

theorem Multisig.sublistForall₂_filterMap {R : Bytes → Bytes → Prop} {keys : List Bytes}
    {f : Bytes → Option Bytes} (h : ∀ key sig, f key = some sig → R sig key) :
    List.SublistForall₂ R (keys.filterMap f) keys := by
  induction keys with
  | nil => exact .nil
  | cons key keys ih =>
    cases hf : f key with
    | none =>
      rw [List.filterMap_cons_none hf]
      exact .cons_right ih
    | some sig =>
      rw [List.filterMap_cons_some hf]
      exact .cons (h key sig hf) ih

theorem Multisig.sublistForall₂_take {R : Bytes → Bytes → Prop} {sigs keys : List Bytes}
    (h : List.SublistForall₂ R sigs keys) (n : Nat) :
    List.SublistForall₂ R (sigs.take n) keys := by
  induction h generalizing n with
  | nil => simpa using List.SublistForall₂.nil
  | cons hr _ ih =>
    cases n with
    | zero => exact .nil
    | succ n => exact .cons hr (ih n)
  | cons_right _ ih => exact .cons_right (ih n)

end Signing

open Signing in
/-- A multisignature takes more items off than it puts on, so it never meets the depth limit. -/
theorem Machine.run_checkMultisig_ok {ctx : Context} {st : State} {script : Script} {rest : Bytes}
    {m' : Machine} (hx : st.isExecuting = true) (hd : st.depth ≤ Fault.maxDepth) :
    run ctx ⟨st, script, Opcode.checkMultisig :: rest⟩ = .ok () m' ↔
      st.opCount + 1 ≤ ctx.budget ∧ ∃ (m : Multisig) (success : Bool), m.On ctx st.main ∧
        st.opCount + 1 + m.keys.length ≤ ctx.budget ∧ m.run ctx ⟨st.code⟩ = .ok success ∧
        run ctx ⟨m.answering ctx.flags success { st with opCount := st.opCount + 1 },
          script, rest⟩ = .ok () m' := by
  have hi : Instruction.ofOpcode Opcode.checkMultisig = .checkMultisig false := rfl
  rw [run_instruction_ok (by decide) rfl hx]
  simp only [hi, Instruction.run, checkMultisig_ok]
  constructor
  · intro h
    obtain ⟨hb, _, ⟨m, success, hs, hk, hm, rfl⟩, -, hr⟩ := h
    exact ⟨hb, m, success, hs, hk, hm, hr⟩
  · intro h
    obtain ⟨hb, m, success, hs, hk, hm, hr⟩ := h
    refine ⟨hb, _, ⟨m, success, hs, hk, hm, rfl⟩, ?_, hr⟩
    exact Nat.le_trans (Multisig.answering_depth_le hs) hd

namespace Template.IsMultisig

open List (SublistForall₂)

open Machine Signing

variable {ctx : Context} {s : Script} {required : Nat} {keys : List Bytes} {stack t : Stack}

theorem bytes_eq (h : IsMultisig s required keys) :
    s.bytes = (multisigPushes required keys).flatMap Operation.bytes ++ [Opcode.checkMultisig] := by
  rw [h.eq, Script.ofOperations, List.flatMap_append]
  rfl

/-- The check and the keys it charges for fit in the budget of a script. -/
theorem affordable (h : IsMultisig s required keys) : keys.length + 1 ≤ Spend.maxOps :=
  Nat.le_trans (Nat.succ_le_succ h.keys_le) (by decide)

theorem length_le (h : IsMultisig s required keys) : s.length ≤ Script.maxLength := by
  have hops : ∀ op ∈ multisigPushes required keys ++ [⟨Opcode.checkMultisig, []⟩],
      op.data.length ≤ 65 :=
    List.forall_mem_append.mpr ⟨fun op hop => (h.pushes true op hop).2.2,
      List.forall_mem_singleton.mpr (Nat.zero_le _)⟩
  have hlen := Script.length_ofOperations_le hops
  have hkeys := h.keys_le
  rw [← h.eq] at hlen
  simp only [multisigPushes, List.length_cons, List.length_append, List.length_map,
    List.length_nil] at hlen
  rw [Script.maxLength]
  omega

theorem items_eq (h : IsMultisig s required keys) :
    ((multisigPushes required keys).map Operation.item).reverse ++ stack =
      [UInt8.ofNat keys.length] :: (keys.reverse ++ [UInt8.ofNat required] :: stack) := by
  rw [multisigPushes, List.map_cons, List.map_append, List.map_map, List.map_singleton,
    Operation.item_ofNumber h.required_pos h.required_le_sixteen,
    Operation.item_ofNumber h.keys_pos h.keys_le]
  simp [Function.comp_def]

/-- Enough signatures and a dummy are taken from the stack, and the answer about them is left. -/
theorem evalScript_ok (h : IsMultisig s required keys) :
    evalScript ctx s stack = .ok () t ↔
      keys.length + 1 ≤ ctx.budget ∧ stack.length + keys.length + 2 ≤ Fault.maxDepth ∧
        ∃ sigs dummy below success, sigs.length = required ∧ stack = sigs ++ dummy :: below ∧
          Multisig.run ctx s ⟨keys.reverse, sigs, dummy⟩ = .ok success ∧
          Number.ofBool success :: below = t := by
  have hpushes (st : State) (hx : st.isExecuting = true) (m : Machine) :=
    @run_pushes_ok ctx m s [Opcode.checkMultisig] (multisigPushes required keys) st
      (fun op hop => (h.pushes ctx.minimal op hop).1)
      (fun op hop => (h.pushes ctx.minimal op hop).2.1) hx
  have hon (m : Multisig) := @Multisig.on_counted ctx _ _ keys.reverse m stack
    ⟨h.keys_pos, h.keys_le⟩ ⟨h.required_pos, h.required_le⟩ List.length_reverse
  have hlength : (multisigPushes required keys).length = keys.length + 2 := by simp [multisigPushes]
  simp only [hlength, h.items_eq, ← h.bytes_eq] at hpushes
  rw [CoinScript.evalScript_ok]
  constructor
  · intro he
    obtain ⟨-, m, hr, -, rfl⟩ := he
    obtain ⟨hroom, hr⟩ := (hpushes _ rfl m).mp hr
    have hroom : stack.length + (keys.length + 2) ≤ Fault.maxDepth :=
      hroom.resolve_left (List.cons_ne_nil _ _)
    obtain ⟨-, ⟨_, sigs, dummy⟩, success, hs, hb, hm, hr⟩ :=
      (run_checkMultisig_ok rfl (by simp [State.depth]; omega)).mp hr
    obtain ⟨rfl, hl, below, rfl⟩ := (hon _).mp hs
    rw [run_done rfl] at hr
    cases hr
    rw [List.length_reverse] at hb
    exact ⟨by omega, by omega, sigs, dummy, below, success, hl, rfl, hm,
      (Multisig.answering_main rfl).symm⟩
  · intro he
    obtain ⟨hb, hroom, sigs, dummy, below, success, hl, rfl, hm, rfl⟩ := he
    let m : Multisig := ⟨keys.reverse, sigs, dummy⟩
    have hs : m.On ctx ([UInt8.ofNat keys.length] :: (keys.reverse ++ [UInt8.ofNat required] ::
        (sigs ++ dummy :: below))) := (hon m).mpr ⟨rfl, hl, below, rfl⟩
    have hdepth : (sigs ++ dummy :: below).length + (keys.length + 2) ≤ Fault.maxDepth := hroom
    refine ⟨h.length_le, ?_⟩
    apply Exists.intro
    refine ⟨?run, ?closed, ?left⟩
    case run =>
      apply (hpushes _ rfl _).mpr
      refine ⟨.inr hdepth, (run_checkMultisig_ok rfl ?_).mpr ⟨?_, m, success, hs, ?_, hm, run_done rfl⟩⟩
      · simp only [State.depth, List.length_cons, List.length_append, List.length_reverse,
          List.length_nil] at hdepth ⊢
        omega
      · exact Nat.le_trans (Nat.le_add_left _ _) hb
      · simp only [m, List.length_reverse]
        omega
    case closed => rfl
    case left => exact Multisig.answering_main rfl

/-- The only pushes of data in the script are those of its keys. -/
theorem pushing_mem_iff (h : IsMultisig s required keys) {item : Bytes} :
    Operation.pushing item ∈ s.operations ↔ item ∈ keys := by
  have hnumber {n : Nat} (h0 : 0 < n) (h16 : n ≤ 16) : Operation.pushing item ≠ .ofNumber n := by
    intro he
    have hp := Operation.isPush_of_number (Operation.isOneToSixteen_ofNumber h0 h16)
    rw [← he, Operation.isPush_pushing] at hp
    cases hp
  have hcheck : Operation.pushing item ≠ ⟨Opcode.checkMultisig, []⟩ := by
    intro he
    have hp := Operation.isPush_pushing item
    rw [he] at hp
    exact absurd hp (by decide)
  have hkey (key : Bytes) : Operation.pushing key = Operation.pushing item ↔ key = item := by
    constructor
    · intro he
      exact congrArg Operation.data he
    · intro he
      rw [he]
  simp [h.operations_eq, multisigPushes, hnumber h.required_pos h.required_le_sixteen,
    hnumber h.keys_pos h.keys_le, hcheck, hkey]

/-- Taking out another push leaves the script alone. -/
theorem withoutSignature_eq (h : IsMultisig s required keys) {sig : Bytes} (hsig : sig ∉ keys) :
    withoutSignature s sig = s :=
  withoutSignature_of_absent fun hmem => hsig (h.pushing_mem_iff.mp hmem)

theorem orderedCode_eq (h : IsMultisig s required keys) {flags : Flags} {m : Multisig}
    (hsigs : ∀ sig ∈ m.signatures, sig ∉ keys) : m.orderedCode flags s = s := by
  have hone {sig : Bytes} (hsig : sig ∉ keys) : Multisig.withoutOrdered flags s sig = s := by
    unfold Multisig.withoutOrdered
    split
    · rfl
    · exact h.withoutSignature_eq hsig
  refine List.foldlRecOn (motive := (· = s)) m.signatures _ rfl fun code hcode sig hsig => ?_
  rw [hcode]
  exact hone (hsigs sig hsig)

section Signed

variable {sigs : List Bytes} (hl : sigs.length = required)
include hl

/-- Signatures that lie above an empty dummy in the order of their keys are found good, if their
spellings and those of the keys are admitted. -/
theorem evalScript_of_assigns (h : IsMultisig s required keys) (hb : keys.length + 1 ≤ ctx.budget)
    (hsigs : ∀ sig ∈ sigs, sig ∉ keys ∧ Encoding.checkOrderedSignature ctx.flags sig = .ok ())
    (hkeys : ∀ key ∈ keys, Encoding.checkKey ctx.flags key = .ok ())
    (hassign : SublistForall₂ (fun sig key => ctx.checker.signature sig key s = true) sigs keys) :
    evalScript ctx s (sigs.reverse ++ [[]]) = .ok () [Number.ofBool true] := by
  let m : Multisig := ⟨keys.reverse, sigs.reverse, []⟩
  have hcode : m.orderedCode ctx.flags s = s :=
    h.orderedCode_eq fun sig hsig => (hsigs sig (List.mem_reverse.mp hsig)).1
  obtain ⟨found, hfound, hordered⟩ := Multisig.runOrdered_of_admitted (m := m) s
    (fun sig hsig => (hsigs sig (List.mem_reverse.mp hsig)).2)
    (fun key hkey => hkeys key (List.mem_reverse.mp hkey)) (fun _ => rfl)
  rw [hcode, Multisig.assigns_iff] at hfound
  obtain rfl := hfound.mpr (Multisig.sublistForall₂_reverse hassign)
  have hrun : m.run ctx s = .ok true := by
    rw [Multisig.run, Multisig.isSelected_eq_false (.inr rfl), if_neg Bool.false_ne_true, hordered]
    rfl
  refine h.evalScript_ok.mpr ⟨hb, ?_, sigs.reverse, [], [], true, ?_, rfl, hrun, rfl⟩
  · have hk := h.keys_le
    have hr := h.required_le
    simp only [List.length_append, List.length_reverse, List.length_cons, List.length_nil]
    change _ ≤ 1000
    omega
  · rw [List.length_reverse, hl]

theorem solves_of_assigns (h : IsMultisig s required keys) (hb : keys.length + 1 ≤ ctx.budget)
    (hfit : ∀ sig ∈ sigs, sig.length ≤ Fault.maxItem)
    (hcoded : ctx.minimal = true → ∀ sig ∈ sigs, Operation.isCoded sig = false)
    (hsigs : ∀ sig ∈ sigs, sig ∉ keys ∧ Encoding.checkOrderedSignature ctx.flags sig = .ok ())
    (hkeys : ∀ key ∈ keys, Encoding.checkKey ctx.flags key = .ok ())
    (hassign : SublistForall₂ (fun sig key => ctx.checker.signature sig key s = true) sigs keys) :
    Solves ctx s ([] :: sigs) where
  fit := List.forall_mem_cons.mpr ⟨Nat.zero_le _, hfit⟩
  uncoded hm := List.forall_mem_cons.mpr ⟨rfl, hcoded hm⟩
  few := Nat.succ_le_succ (hl ▸ h.required_le_sixteen)
  succeeds := by
    rw [List.reverse_cons]
    exact h.evalScript_of_assigns hl hb hsigs hkeys hassign

/-- Pushed in the order of their keys, such signatures spend the script. -/
theorem accepts_of_assigns (h : IsMultisig s required keys) (hb : keys.length + 1 ≤ ctx.budget)
    (hplain : (ctx.flags.has .p2sh && s.isP2sh ctx.flags) = false)
    (hclean : ctx.flags.has .cleanStack = true → ctx.flags.has .p2sh = true)
    (hfit : ∀ sig ∈ sigs, sig.length ≤ Fault.maxItem)
    (hcoded : ctx.minimal = true → ∀ sig ∈ sigs, Operation.isCoded sig = false)
    (hsigs : ∀ sig ∈ sigs, sig ∉ keys ∧ Encoding.checkOrderedSignature ctx.flags sig = .ok ())
    (hkeys : ∀ key ∈ keys, Encoding.checkKey ctx.flags key = .ok ())
    (hassign : SublistForall₂ (fun sig key => ctx.checker.signature sig key s = true) sigs keys) :
    Accepts ctx (Script.ofPushes ([] :: sigs)) s :=
  (h.solves_of_assigns hl hb hfit hcoded hsigs hkeys hassign).accepts hplain hclean

end Signed

end Template.IsMultisig

end CoinScript
