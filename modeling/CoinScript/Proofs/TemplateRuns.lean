import CoinScript.Proofs.Instructions
import CoinScript.Proofs.Running
import CoinScript.Script.Pattern
import CoinScript.Template.Build

namespace CoinScript

namespace ScriptId

/-- The digest that names a script. -/
def kind : ScriptId → HashKind
  | .short _ => .hash160
  | .long _ => .hash256

/-- The code that takes that digest. -/
def code : ScriptId → Opcode
  | .short _ => Opcode.hash160
  | .long _ => Opcode.hash256

variable (id : ScriptId)

theorem ofOpcode_code : Instruction.ofOpcode id.code = .hash id.kind := by
  cases id <;> rfl

theorem code_counted : Opcode.sixteen < id.code := by
  cases id with
  | short => change Opcode.sixteen < Opcode.hash160; decide
  | long => change Opcode.sixteen < Opcode.hash256; decide

theorem code_enabled : id.code.isDisabled = false := by
  cases id <;> rfl

theorem length_bytes : id.bytes.length = 20 ∨ id.bytes.length = 32 := by
  cases id <;> simp [bytes]

/-- How the length of the digest is written in front of it. -/
theorem toNat_length : id.bytes.length = (UInt8.ofNat id.bytes.length).toNat := by
  rcases id.length_bytes with h | h <;> rw [h] <;> rfl

theorem payTo_bytes :
    (Script.payTo (.script id)).bytes =
      id.code :: UInt8.ofNat id.bytes.length :: (id.bytes ++ [Opcode.equal]) := by
  cases id <;> simp [Script.payTo, code, bytes]

end ScriptId

theorem FixedBytes.ofBytes?_eq_some {n : Nat} {bs : Bytes} {w : FixedBytes n} :
    ofBytes? bs = some w ↔ bs = w.bytes := by
  constructor
  · intro h
    unfold ofBytes? at h
    split at h
    · cases h; rfl
    · cases h
  · intro h
    subst h
    exact ofBytes?_bytes w

theorem FixedBytes.bytes_inj {n : Nat} {v w : FixedBytes n} (h : v.bytes = w.bytes) : v = w := by
  cases v
  cases w
  cases h
  rfl

theorem FixedBytes.eq_append_of_cut {n : Nat} {bs last : Bytes} {w : FixedBytes n}
    (hd : bs.drop n = last) (ht : ofBytes? (bs.take n) = some w) : bs = w.bytes ++ last := by
  rw [← hd, ← ofBytes?_eq_some.mp ht, List.take_append_drop]

namespace Script

variable {s : Script} {flags : Flags}

/-- A hash of a known length between two codes and a last one. -/
def hashBetween? {n : Nat} (code length : Opcode) : Bytes → Option (FixedBytes n)
  | a :: m :: rest =>
    if a = code ∧ m = length ∧ rest.drop n = [Opcode.equal] then
      FixedBytes.ofBytes? (rest.take n)
    else none
  | _ => none

theorem hashBetween?_eq_some {n : Nat} {code length : Opcode} {bs : Bytes} {hash : FixedBytes n} :
    hashBetween? code length bs = some hash ↔
      bs = code :: length :: (hash.bytes ++ [Opcode.equal]) := by
  constructor
  · intro h
    unfold hashBetween? at h
    split at h
    · next a m rest =>
      split at h
      · next hc =>
        obtain ⟨rfl, rfl, he⟩ := hc
        rw [FixedBytes.eq_append_of_cut he h]
      · cases h
    · cases h
  · intro h
    subst h
    have hd : (hash.bytes ++ [Opcode.equal]).drop n = [Opcode.equal] :=
      List.drop_left' hash.length_eq
    have ht : (hash.bytes ++ [Opcode.equal]).take n = hash.bytes := List.take_left' hash.length_eq
    simp only [hashBetween?, hd, ht, and_self, if_true]
    exact FixedBytes.ofBytes?_bytes hash

theorem eq_iff_bytes {s' : Script} : s = s' ↔ s.bytes = s'.bytes := by
  cases s
  cases s'
  simp

theorem scriptHash20?_eq_some {hash : FixedBytes 20} :
    s.scriptHash20? = some hash ↔ s = payTo (.script (.short hash)) := by
  have hs : s.scriptHash20? = hashBetween? Opcode.hash160 20 s.bytes := rfl
  rw [hs, hashBetween?_eq_some, eq_iff_bytes]
  simp [payTo]

theorem scriptHash32?_eq_some {hash : FixedBytes 32} :
    s.scriptHash32? = some hash ↔ s = payTo (.script (.long hash)) := by
  have hs : s.scriptHash32? = hashBetween? Opcode.hash256 32 s.bytes := rfl
  rw [hs, hashBetween?_eq_some, eq_iff_bytes]
  simp [payTo]

theorem eq_payTo_of_isP2sh (h : s.isP2sh flags = true) :
    ∃ id : ScriptId, s = payTo (.script id) := by
  simp only [isP2sh, isP2sh20, isP2sh32, Bool.or_eq_true, Bool.and_eq_true,
    Option.isSome_iff_exists] at h
  rcases h with ⟨hash, hs⟩ | ⟨-, hash, hs⟩
  · exact ⟨.short hash, scriptHash20?_eq_some.mp hs⟩
  · exact ⟨.long hash, scriptHash32?_eq_some.mp hs⟩

/-- The shapes of the two lengths exclude each other. -/
theorem payTo_script_inj {id id' : ScriptId}
    (h : payTo (.script id) = payTo (.script id')) : id = id' := by
  have hb := congrArg Script.bytes h
  cases id <;> cases id' <;> simp [payTo, Opcode.hash160, Opcode.hash256] at hb
  · rw [FixedBytes.bytes_inj hb]
  · rw [FixedBytes.bytes_inj hb]

/-- Which scripts a locking script commits to. -/
theorem commits_iff {id : ScriptId} {item : Bytes} :
    id.kind.digest item = id.bytes ↔
      (payTo (.script id)).scriptHash20? = some (Hash.hash160 item) ∨
        (payTo (.script id)).scriptHash32? = some (Hash.hash256 item) := by
  rw [scriptHash20?_eq_some, scriptHash32?_eq_some]
  cases id with
  | short hash =>
    constructor
    · intro h
      have hh : Hash.hash160 item = hash := FixedBytes.bytes_inj h
      exact .inl (by rw [hh])
    · intro h
      rcases h with h | h
      · cases payTo_script_inj h
        rfl
      · cases payTo_script_inj h
  | long hash =>
    constructor
    · intro h
      have hh : Hash.hash256 item = hash := FixedBytes.bytes_inj h
      exact .inr (by rw [hh])
    · intro h
      rcases h with h | h
      · cases payTo_script_inj h
      · cases payTo_script_inj h
        rfl

end Script

namespace Machine

variable {ctx : Context} {st : State} {script : Script} {code : Opcode} {rest : Bytes} {m : Machine}

theorem run_hash_ok {kind : HashKind} (hi : Instruction.ofOpcode code = .hash kind)
    (hc : Opcode.sixteen < code) (hd : code.isDisabled = false) (hx : st.isExecuting = true) :
    run ctx ⟨st, script, code :: rest⟩ = .ok () m ↔
      st.opCount + 1 ≤ ctx.budget ∧ ∃ top below, st.main = top :: below ∧
        st.depth ≤ Fault.maxDepth ∧
        run ctx ⟨{ st with main := kind.digest top :: below, opCount := st.opCount + 1 },
          script, rest⟩ = .ok () m := by
  rw [run_instruction_ok hc hd hx]
  simp only [hi, Instruction.hash_ok]
  constructor
  · intro h
    obtain ⟨hb, _, ⟨top, below, hm, rfl⟩, hl, hr⟩ := h
    refine ⟨hb, top, below, hm, ?_, hr⟩
    simpa [State.depth, hm] using hl
  · intro h
    obtain ⟨hb, top, below, hm, hl, hr⟩ := h
    refine ⟨hb, _, ⟨top, below, hm, rfl⟩, ?_, hr⟩
    simpa [State.depth, hm] using hl

theorem run_dup_ok (hx : st.isExecuting = true) :
    run ctx ⟨st, script, Opcode.dup :: rest⟩ = .ok () m ↔
      st.opCount + 1 ≤ ctx.budget ∧ ∃ top below, st.main = top :: below ∧
        st.depth + 1 ≤ Fault.maxDepth ∧
        run ctx ⟨{ st with main := top :: top :: below, opCount := st.opCount + 1 },
          script, rest⟩ = .ok () m := by
  have hl {top below} (hm : st.main = top :: below) :
      State.depth { st with main := top :: top :: below, opCount := st.opCount + 1 } =
        st.depth + 1 := by
    simp only [State.depth, hm, List.length_cons]
    omega
  have hi : Instruction.ofOpcode Opcode.dup = .arrange (.dup 1) := rfl
  rw [run_instruction_ok (by decide) rfl hx]
  simp only [hi, Instruction.dup_ok]
  constructor
  · intro h
    obtain ⟨hb, _, ⟨top, below, hm, rfl⟩, hd, hr⟩ := h
    exact ⟨hb, top, below, hm, hl hm ▸ hd, hr⟩
  · intro h
    obtain ⟨hb, top, below, hm, hd, hr⟩ := h
    exact ⟨hb, _, ⟨top, below, hm, rfl⟩, (hl hm).symm ▸ hd, hr⟩

/-- Comparing takes an item off, so it never meets the depth limit. -/
theorem run_equal_ok (hx : st.isExecuting = true) (hd : st.depth ≤ Fault.maxDepth) :
    run ctx ⟨st, script, Opcode.equal :: rest⟩ = .ok () m ↔
      st.opCount + 1 ≤ ctx.budget ∧ ∃ b a below, st.main = b :: a :: below ∧
        run ctx ⟨{ st with main := Number.ofBool (a == b) :: below, opCount := st.opCount + 1 },
          script, rest⟩ = .ok () m := by
  have hi : Instruction.ofOpcode Opcode.equal = .equal false := rfl
  rw [run_instruction_ok (by decide) rfl hx]
  simp only [hi, Instruction.equal_ok]
  constructor
  · intro h
    obtain ⟨hb, _, ⟨b, a, below, hm, rfl⟩, -, hr⟩ := h
    exact ⟨hb, b, a, below, hm, hr⟩
  · intro h
    obtain ⟨hb, b, a, below, hm, hr⟩ := h
    refine ⟨hb, _, ⟨b, a, below, hm, rfl⟩, ?_, hr⟩
    simp only [State.depth, hm, List.length_cons] at hd ⊢
    omega

theorem run_equalVerify_ok (hx : st.isExecuting = true) (hd : st.depth ≤ Fault.maxDepth) :
    run ctx ⟨st, script, Opcode.equalVerify :: rest⟩ = .ok () m ↔
      st.opCount + 1 ≤ ctx.budget ∧ ∃ a below, st.main = a :: a :: below ∧
        run ctx ⟨{ st with main := below, opCount := st.opCount + 1 }, script, rest⟩ =
          .ok () m := by
  have hi : Instruction.ofOpcode Opcode.equalVerify = .equal true := rfl
  rw [run_instruction_ok (by decide) rfl hx]
  simp only [hi, Instruction.equalVerify_ok]
  constructor
  · intro h
    obtain ⟨hb, _, ⟨a, below, hm, rfl⟩, -, hr⟩ := h
    exact ⟨hb, a, below, hm, hr⟩
  · intro h
    obtain ⟨hb, a, below, hm, hr⟩ := h
    refine ⟨hb, _, ⟨a, below, hm, rfl⟩, ?_, hr⟩
    simp only [State.depth, hm, List.length_cons] at hd ⊢
    omega

open Signing in
theorem run_checkSig_ok (hx : st.isExecuting = true) (hd : st.depth ≤ Fault.maxDepth) :
    run ctx ⟨st, script, Opcode.checkSig :: rest⟩ = .ok () m ↔
      st.opCount + 1 ≤ ctx.budget ∧ ∃ key sig below success, st.main = key :: sig :: below ∧
        checkOne ctx (withoutSignature ⟨st.code⟩ sig) sig key = .ok success ∧
        run ctx ⟨{ noting sig st with
            main := Number.ofBool success :: below, opCount := st.opCount + 1 },
          script, rest⟩ = .ok () m := by
  have hi : Instruction.ofOpcode Opcode.checkSig = .checkSig false := rfl
  rw [run_instruction_ok (by decide) rfl hx]
  simp only [hi, Instruction.run, checkSig_ok]
  constructor
  · intro h
    obtain ⟨hb, _, ⟨key, sig, below, success, hm, hc, rfl⟩, -, hr⟩ := h
    exact ⟨hb, key, sig, below, success, hm, hc, hr⟩
  · intro h
    obtain ⟨hb, key, sig, below, success, hm, hc, hr⟩ := h
    refine ⟨hb, _, ⟨key, sig, below, success, hm, hc, rfl⟩, ?_, hr⟩
    simp only [State.depth, noting, hm, List.length_cons] at hd ⊢
    omega

end Machine

section Runs

variable {ctx : Context} {s t : Stack}

open Machine in
/-- A script hash asks for one item, takes its digest and compares. The digest that the script
pushes needs room for two items above the rest. -/
theorem evalScript_scriptHash_ok {id : ScriptId} :
    evalScript ctx (Script.payTo (.script id)) s = .ok () t ↔
      2 ≤ ctx.budget ∧ ∃ item below, s = item :: below ∧ below.length ≤ 998 ∧
        Number.ofBool (id.kind.digest item == id.bytes) :: below = t := by
  have hlen := id.length_bytes
  have hmax : (Script.payTo (.script id)).length ≤ Script.maxLength := by
    simp only [Script.length, id.payTo_bytes, Script.maxLength, List.length_cons,
      List.length_append, List.length_nil]
    omega
  rw [evalScript_ok, id.payTo_bytes]
  simp only [hmax, true_and]
  constructor
  · intro h
    obtain ⟨m, hr, -, rfl⟩ := h
    obtain ⟨-, item, below, rfl, -, hr⟩ :=
      (run_hash_ok id.ofOpcode_code id.code_counted id.code_enabled rfl).mp hr
    obtain ⟨hroom, hr⟩ := (run_push_ok id.toNat_length (by omega) (by omega) rfl).mp hr
    obtain ⟨hb, b, a, below', hm, hr⟩ := (run_equal_ok rfl hroom).mp hr
    cases hm
    rw [run_done rfl] at hr
    cases hr
    exact ⟨hb, item, below, rfl, Nat.le_of_add_le_add_right (c := 998) (b := 2) hroom, rfl⟩
  · intro h
    obtain ⟨hb, item, below, rfl, hroom, rfl⟩ := h
    have hpush : below.length + 2 ≤ Fault.maxDepth := Nat.add_le_add_right hroom 2
    apply Exists.intro
    refine ⟨?run, ?closed, ?left⟩
    case run =>
      apply (run_hash_ok id.ofOpcode_code id.code_counted id.code_enabled rfl).mpr
      refine ⟨Nat.le_of_succ_le hb, item, below, rfl, Nat.le_of_succ_le hpush, ?_⟩
      apply (run_push_ok id.toNat_length (by omega) (by omega) rfl).mpr
      refine ⟨hpush, ?_⟩
      apply (run_equal_ok rfl (by exact hpush)).mpr
      exact ⟨hb, id.bytes, id.kind.digest item, below, rfl, run_done rfl⟩
    case closed => rfl
    case left => rfl

open Machine Signing in
/-- A key hash asks for a key with that digest and a signature below it, and answers whether the
signature is good. It never sees more than four items above the rest. -/
theorem evalScript_keyHash_ok {hash : FixedBytes 20} :
    evalScript ctx (Script.payTo (.key hash)) s = .ok () t ↔
      4 ≤ ctx.budget ∧ ∃ key sig below success, s = key :: sig :: below ∧ below.length ≤ 996 ∧
        Hash.hash160 key = hash ∧
        checkOne ctx (withoutSignature (Script.payTo (.key hash)) sig) sig key = .ok success ∧
        Number.ofBool success :: below = t := by
  have hlen := hash.length_bytes
  have hmax : (Script.payTo (.key hash)).length ≤ Script.maxLength := by
    simp [Script.length, Script.payTo, Script.maxLength]
  have hbytes : (Script.payTo (.key hash)).bytes = Opcode.dup :: Opcode.hash160 :: 20 ::
      (hash.bytes ++ [Opcode.equalVerify, Opcode.checkSig]) := by
    simp [Script.payTo]
  have hkind : Instruction.ofOpcode Opcode.hash160 = .hash .hash160 := rfl
  rw [evalScript_ok]
  simp only [hmax, true_and]
  constructor
  · intro h
    obtain ⟨m, hr, -, rfl⟩ := h
    rw [hbytes] at hr
    obtain ⟨-, key, rest, rfl, hroom, hr⟩ := (run_dup_ok rfl).mp hr
    obtain ⟨-, top, below, hm, -, hr⟩ := (run_hash_ok hkind (by decide) rfl rfl).mp hr
    cases hm
    obtain ⟨hroom, hr⟩ := (run_push_ok hlen (by omega) (by omega) rfl).mp hr
    obtain ⟨-, a, below, hm, hr⟩ := (run_equalVerify_ok rfl hroom).mp hr
    simp only [List.cons.injEq] at hm
    obtain ⟨rfl, hk, rfl⟩ := hm
    have hdepth : rest.length + 1 ≤ Fault.maxDepth :=
      Nat.le_trans (Nat.le_add_right (rest.length + 1) 2) hroom
    obtain ⟨hb, key', sig, below, success, hm, hc, hr⟩ :=
      (run_checkSig_ok rfl (by exact hdepth)).mp hr
    cases hm
    rw [run_done rfl] at hr
    cases hr
    have hl : below.length ≤ 996 := Nat.le_of_add_le_add_right (b := 4) hroom
    exact ⟨hb, key, sig, below, success, rfl, hl, FixedBytes.bytes_inj hk, hc, rfl⟩
  · intro h
    obtain ⟨hb, key, sig, below, success, rfl, hl, rfl, hc, rfl⟩ := h
    have hroom : below.length + 4 ≤ Fault.maxDepth := Nat.add_le_add_right hl 4
    have hthree : below.length + 3 ≤ Fault.maxDepth := Nat.le_of_succ_le hroom
    have htwo : below.length + 2 ≤ Fault.maxDepth := Nat.le_of_succ_le hthree
    have hb3 : 3 ≤ ctx.budget := Nat.le_of_succ_le hb
    have hb2 : 2 ≤ ctx.budget := Nat.le_of_succ_le hb3
    apply Exists.intro
    refine ⟨?run, ?closed, ?left⟩
    case run =>
      rw [hbytes]
      apply (run_dup_ok rfl).mpr
      refine ⟨Nat.le_of_succ_le hb2, key, sig :: below, rfl, hthree, ?_⟩
      apply (run_hash_ok hkind (by decide) rfl rfl).mpr
      refine ⟨hb2, key, key :: sig :: below, rfl, hthree, ?_⟩
      apply (run_push_ok hlen (by omega) (by omega) rfl).mpr
      refine ⟨hroom, ?_⟩
      apply (run_equalVerify_ok rfl (by exact hroom)).mpr
      refine ⟨hb3, _, key :: sig :: below, rfl, ?_⟩
      apply (run_checkSig_ok rfl (by exact htwo)).mpr
      exact ⟨hb, key, sig, below, success, rfl, hc, run_done rfl⟩
    case closed => rfl
    case left => rfl

end Runs

end CoinScript
