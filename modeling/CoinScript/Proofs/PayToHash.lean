import CoinScript.Proofs.SpendComposition

namespace CoinScript

open Spend

namespace Spend

theorem isSegwitRecovery_iff {flags : Flags} {redeem : Script} {below : Stack} :
    isSegwitRecovery flags redeem below = true ↔
      flags.has .noSegwitRecovery = false ∧ below = [] ∧ redeem.isWitnessProgram = true := by
  simp [isSegwitRecovery, and_assoc]

theorem clean_iff {flags : Flags} {below : Stack} (hf : flags.has .p2sh = true) :
    Clean flags below ↔ (flags.has .cleanStack = true → below = []) := by
  simp [Clean, hf]

end Spend

theorem Script.isP2sh_payTo_key {flags : Flags} {hash : FixedBytes 20} :
    (payTo (.key hash)).isP2sh flags = false := by
  rw [Bool.eq_false_iff]
  intro h
  obtain ⟨id, hs⟩ := eq_payTo_of_isP2sh h
  have hb := congrArg Script.bytes hs
  cases id <;> simp [payTo, Opcode.dup, Opcode.hash160, Opcode.hash256] at hb

/-- An output that pays to a script is spent by pushing a script with its hash, on top of a stack on
which that script succeeds. -/
theorem accepts_scriptHash_iff (ctx : Context) (unlocking locking : Script)
    (hf : ctx.flags.has .p2sh = true) (hl : locking.isP2sh ctx.flags = true)
    (hb : 2 ≤ ctx.budget) :
    Accepts ctx unlocking locking ↔
      unlocking.isPushOnly = true ∧ ∃ redeem below,
        evalScript ctx unlocking [] = .ok () (redeem :: below) ∧ below.length ≤ 998 ∧
        (locking.scriptHash20? = some (Hash.hash160 redeem) ∨
          locking.scriptHash32? = some (Hash.hash256 redeem)) ∧
        ((ctx.flags.has .noSegwitRecovery = false ∧ below = [] ∧
            Script.isWitnessProgram ⟨redeem⟩ = true) ∨
          ∃ top rest, evalScript ctx ⟨redeem⟩ below = .ok () (top :: rest) ∧
            Number.isTrue top = true ∧ (ctx.flags.has .cleanStack = true → rest = [])) := by
  obtain ⟨id, rfl⟩ := Script.eq_payTo_of_isP2sh hl
  have hr (redeem : Script) (below : Stack) : Reveals ctx redeem below ↔
      (ctx.flags.has .noSegwitRecovery = false ∧ below = [] ∧ redeem.isWitnessProgram = true) ∨
        ∃ top rest, evalScript ctx redeem below = .ok () (top :: rest) ∧
          Number.isTrue top = true ∧ (ctx.flags.has .cleanStack = true → rest = []) := by
    simp only [Reveals, isSegwitRecovery_iff, clean_iff hf]
  have hs (saved below : Stack) :
      Settles ctx unlocking (Script.payTo (.script id)) saved below ↔
        unlocking.isPushOnly = true ∧ Reveals ctx ⟨saved.headD []⟩ saved.tail := by
    simp [Settles, hf, hl]
  rw [accepts_iff]
  simp only [hs, ← hr, ← Script.commits_iff, evalScript_scriptHash_ok, hb, true_and]
  constructor
  · intro h
    obtain ⟨-, saved, top, below', he, ⟨redeem, below, rfl, hd, hk⟩, ht, hp, hv⟩ := h
    obtain ⟨rfl, rfl⟩ := List.cons.inj hk
    rw [Number.isTrue_ofBool, beq_iff_eq] at ht
    exact ⟨hp, redeem, below, he, hd, ht, hv⟩
  · intro h
    obtain ⟨hp, redeem, below, he, hd, ht, hv⟩ := h
    refine ⟨fun _ => hp, redeem :: below, _, below, he, ⟨redeem, below, rfl, hd, rfl⟩, ?_, hp, hv⟩
    rw [Number.isTrue_ofBool, beq_iff_eq]
    exact ht

/-- Pushing the script `OP_1` spends an output that commits to it. -/
theorem accepts_scriptHash_one :
    Accepts ⟨.ofList [.p2sh, .cleanStack], .none, 201⟩ ⟨[0x01, 0x51]⟩
      (Script.payTo (.script (.short (Hash.hash160 [0x51])))) := by
  have hs : (Script.payTo (.script (.short (Hash.hash160 [0x51])))).scriptHash20? =
      some (Hash.hash160 [0x51]) := Script.scriptHash20?_eq_some.mpr rfl
  have hl : (Script.payTo (.script (.short (Hash.hash160 [0x51])))).isP2sh
      (.ofList [.p2sh, .cleanStack]) = true := by
    simp [Script.isP2sh, Script.isP2sh20, hs]
  have hspend := accepts_scriptHash_iff ⟨.ofList [.p2sh, .cleanStack], .none, 201⟩ ⟨[0x01, 0x51]⟩ _
    (by decide) hl (by decide)
  have hpush : evalScript ⟨.ofList [.p2sh, .cleanStack], .none, 201⟩ ⟨[0x01, 0x51]⟩ [] =
      .ok () [[0x51]] := by decide +kernel
  have hredeem : evalScript ⟨.ofList [.p2sh, .cleanStack], .none, 201⟩ ⟨[0x51]⟩ [] =
      .ok () [[1]] := by decide +kernel
  have hpushOnly : Script.isPushOnly ⟨[0x01, 0x51]⟩ = true := by decide +kernel
  refine hspend.mpr ⟨hpushOnly, [0x51], [], hpush, by decide, .inl hs, .inr ?_⟩
  exact ⟨[1], [], hredeem, rfl, fun _ => rfl⟩

/-- An output that pays to a key is spent by a key with its hash and a good signature below it. -/
theorem accepts_keyHash_iff (ctx : Context) (unlocking : Script) (hash : FixedBytes 20)
    (hb : 4 ≤ ctx.budget) :
    Accepts ctx unlocking (Script.payTo (.key hash)) ↔
      (ctx.flags.has .sigPushOnly = true → unlocking.isPushOnly = true) ∧ ∃ key sig below,
        evalScript ctx unlocking [] = .ok () (key :: sig :: below) ∧ below.length ≤ 996 ∧
        Hash.hash160 key = hash ∧ sig ≠ [] ∧
        Encoding.checkSignature ctx.flags sig = .ok () ∧ Encoding.checkKey ctx.flags key = .ok () ∧
        ctx.checker.signature sig key
          (Signing.withoutSignature (Script.payTo (.key hash)) sig) = true ∧
        (ctx.flags.has .cleanStack = true → ctx.flags.has .p2sh = true ∧ below = []) := by
  have hs (saved below : Stack) :
      Settles ctx unlocking (Script.payTo (.key hash)) saved below ↔ Clean ctx.flags below := by
    simp [Settles, Script.isP2sh_payTo_key]
  rw [accepts_iff]
  simp only [hs, evalScript_keyHash_ok, hb, true_and, Signing.checkOne_ok]
  constructor
  · intro h
    obtain ⟨hp, saved, top, below', he, ⟨key, sig, below, success, rfl, hd, hh, ⟨hes, hek, hc, -⟩,
      hk⟩, ht, hv⟩ := h
    obtain ⟨rfl, rfl⟩ := List.cons.inj hk
    rw [Number.isTrue_ofBool] at ht
    subst ht
    rw [Bool.and_eq_true, bne_iff_ne] at hc
    exact ⟨hp, key, sig, below, he, hd, hh, hc.1, hes, hek, hc.2, hv⟩
  · intro h
    obtain ⟨hp, key, sig, below, he, hd, hh, hne, hes, hek, hc, hv⟩ := h
    have hsuccess : (sig != [] && ctx.checker.signature sig key
        (Signing.withoutSignature (Script.payTo (.key hash)) sig)) = true := by
      rw [Bool.and_eq_true, bne_iff_ne]
      exact ⟨hne, hc⟩
    refine ⟨hp, _, _, below, he, ⟨key, sig, below, true, rfl, hd, hh, ⟨hes, hek, hsuccess, ?_⟩, rfl⟩,
      rfl, hv⟩
    intro h
    cases h

/-- Where every signature is good, any nonempty one spends, with the key that has the hash. -/
theorem accepts_keyHash_lenient :
    Accepts ⟨.ofList [.p2sh, .cleanStack], .lenient, 201⟩ ⟨[0x01, 0x51, 0x01, 0x52]⟩
      (Script.payTo (.key (Hash.hash160 [0x52]))) := by
  have hpush : evalScript ⟨.ofList [.p2sh, .cleanStack], .lenient, 201⟩ ⟨[0x01, 0x51, 0x01, 0x52]⟩
      [] = .ok () [[0x52], [0x51]] := by decide +kernel
  apply (accepts_keyHash_iff _ _ _ (by decide)).mpr
  refine ⟨?_, [0x52], [0x51], [], hpush, by decide, rfl, by decide, rfl, rfl, rfl, ?_⟩
  · intro h
    exact absurd h (by decide)
  · intro _
    exact ⟨by decide, rfl⟩

end CoinScript
