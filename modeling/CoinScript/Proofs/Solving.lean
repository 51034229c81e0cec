import CoinScript.Proofs.KeyTemplates
import CoinScript.Proofs.SignatureRemoval
import CoinScript.Proofs.SpendComposition

namespace CoinScript

/-- Items, lowest first, on which a script succeeds alone. -/
structure Solves (ctx : Context) (code : Script) (items : List Bytes) : Prop where
  fit : ∀ item ∈ items, item.length ≤ Fault.maxItem
  uncoded : ctx.minimal = true → ∀ item ∈ items, Operation.isCoded item = false
  few : items.length ≤ 17
  succeeds : evalScript ctx code items.reverse = .ok () [Number.ofBool true]

/-- A script that pushes a few items leaves them. -/
theorem evalScript_few {ctx : Context} {items : List Bytes} (hfew : items.length ≤ 18)
    (hfit : ∀ item ∈ items, item.length ≤ Fault.maxItem)
    (hcoded : ctx.minimal = true → ∀ item ∈ items, Operation.isCoded item = false) :
    (Script.ofPushes items).isPushOnly = true ∧
      evalScript ctx (Script.ofPushes items) [] = .ok () items.reverse := by
  have hshort : (Script.ofPushes items).length ≤ Script.maxLength := by
    refine Nat.le_trans (Script.length_ofPushes_le hfit) ?_
    exact Nat.le_trans (Nat.mul_le_mul_right _ hfew) (by decide)
  refine ⟨Script.isPushOnly_ofPushes fun item hitem => ?_, ?_⟩
  · exact Nat.le_trans (hfit item hitem) (by decide)
  · exact evalScript_ofPushes hshort (Nat.le_trans hfew (by decide)) hfit hcoded

namespace Solves

variable {ctx : Context} {code : Script} {items : List Bytes}

theorem accepts (h : Solves ctx code items)
    (hplain : (ctx.flags.has .p2sh && code.isP2sh ctx.flags) = false)
    (hclean : ctx.flags.has .cleanStack = true → ctx.flags.has .p2sh = true) :
    Accepts ctx (Script.ofPushes items) code := by
  obtain ⟨hpushOnly, hunlock⟩ := evalScript_few (Nat.le_succ_of_le h.few) h.fit h.uncoded
  refine Spend.accepts_iff.mpr ⟨fun _ => hpushOnly, _, _, [], hunlock, h.succeeds, rfl, ?_⟩
  rw [Spend.Settles, hplain, if_neg Bool.false_ne_true]
  exact fun hc => ⟨hclean hc, rfl⟩

/-- Where revealed scripts are not run, it is enough that this one has the hash. -/
theorem accepts_revealed (h : Solves ctx code items) (hb : 2 ≤ ctx.budget)
    (hsize : code.length ≤ Fault.maxItem) (hcoded : Operation.isCoded code.bytes = false)
    (hclean : ctx.flags.has .cleanStack = true → ctx.flags.has .p2sh = true) :
    Accepts ctx (Script.ofPushes (items ++ [code.bytes])) (Script.payTo (.script (.shortOf code))) := by
  have hfew : (items ++ [code.bytes]).length ≤ 18 := by
    rw [List.length_append]
    exact Nat.succ_le_succ h.few
  have hfit : ∀ item ∈ items ++ [code.bytes], item.length ≤ Fault.maxItem :=
    List.forall_mem_append.mpr ⟨h.fit, List.forall_mem_singleton.mpr hsize⟩
  obtain ⟨hpushOnly, hunlock⟩ := @evalScript_few ctx _ hfew hfit fun hm =>
    List.forall_mem_append.mpr ⟨h.uncoded hm, List.forall_mem_singleton.mpr hcoded⟩
  rw [List.reverse_append, List.reverse_singleton, List.singleton_append] at hunlock
  have hroom : items.reverse.length ≤ 998 := by
    rw [List.length_reverse]
    exact Nat.le_trans h.few (by decide)
  have hhash : (HashKind.hash160.digest code.bytes == (ScriptId.shortOf code).bytes) = true :=
    beq_self_eq_true _
  have hlock : evalScript ctx (Script.payTo (.script (.shortOf code))) (code.bytes :: items.reverse) =
      .ok () (Number.ofBool true :: items.reverse) :=
    evalScript_scriptHash_ok.mpr ⟨hb, _, _, rfl, hroom, congrArg (Number.ofBool · :: _) hhash⟩
  refine Spend.accepts_iff.mpr ⟨fun _ => hpushOnly, _, _, _, hunlock, hlock, rfl, ?_⟩
  unfold Spend.Settles
  split
  · exact ⟨hpushOnly, .inr ⟨_, [], h.succeeds, rfl, fun hc => ⟨hclean hc, rfl⟩⟩⟩
  · next hplain =>
    intro hc
    have hp2sh : (Script.payTo (.script (.shortOf code))).isP2sh ctx.flags = true := by
      have hshape : (Script.payTo (.script (.shortOf code))).scriptHash20? =
          some (Hash.hash160 code.bytes) := Script.scriptHash20?_eq_some.mpr rfl
      rw [Script.isP2sh, Script.isP2sh20, hshape]
      rfl
    exact absurd (Bool.and_eq_true_iff.mpr ⟨hclean hc, hp2sh⟩) hplain

end Solves

section OneSignature

open Machine Signing

variable {ctx : Context} {s : Script} {stack t : Stack} {sig key : Bytes}

/-- A key and its check ask for one signature of that key. -/
theorem Template.IsPublicKey.evalScript_ok (h : IsPublicKey s key) :
    evalScript ctx s stack = .ok () t ↔
      1 ≤ ctx.budget ∧ stack.length + 1 ≤ Fault.maxDepth ∧ ∃ sig below success,
        stack = sig :: below ∧ checkOne ctx (withoutSignature s sig) sig key = .ok success ∧
        Number.ofBool success :: below = t := by
  have hruns : ∀ op ∈ [Operation.pushing key], op.Sized ∧ op.Runs ctx.minimal :=
    List.forall_mem_singleton.mpr (Operation.runs_key h.announced _)
  have hbytes : s.bytes = [Operation.pushing key].flatMap Operation.bytes ++ [Opcode.checkSig] := by
    rw [h.eq, Script.ofOperations, List.flatMap_cons, List.flatMap_singleton, List.flatMap_singleton]
    rfl
  have hmax : s.length ≤ Script.maxLength := by
    have hops : ∀ op ∈ [Operation.pushing key, ⟨Opcode.checkSig, []⟩], op.data.length ≤ 65 :=
      List.forall_mem_cons.mpr ⟨PublicKey.length_le_of_announced h.announced,
        List.forall_mem_singleton.mpr (Nat.zero_le _)⟩
    rw [h.eq]
    exact Nat.le_trans (Script.length_ofOperations_le hops) (by decide : 2 * 70 ≤ Script.maxLength)
  have hpush (st : State) (hx : st.isExecuting = true) (m : Machine) :=
    @run_pushes_ok ctx m s [Opcode.checkSig] [Operation.pushing key] st
      (fun op hop => (hruns op hop).1) (fun op hop => (hruns op hop).2) hx
  simp only [← hbytes, List.map_cons, List.map_nil, Operation.item_pushing, List.reverse_singleton,
    List.singleton_append, List.length_singleton, List.cons_ne_nil, false_or] at hpush
  rw [CoinScript.evalScript_ok]
  constructor
  · intro he
    obtain ⟨-, m, hr, -, rfl⟩ := he
    obtain ⟨hdepth, hr⟩ := (hpush _ rfl m).mp hr
    obtain ⟨hb, key', sig, below, success, hs, hc, hr⟩ := (run_checkSig_ok rfl (by exact hdepth)).mp hr
    obtain ⟨rfl, rfl⟩ := List.cons.inj hs
    rw [run_done rfl] at hr
    cases hr
    exact ⟨hb, hdepth, sig, below, success, rfl, hc, rfl⟩
  · intro he
    obtain ⟨hb, hdepth, sig, below, success, rfl, hc, rfl⟩ := he
    refine ⟨hmax, ?_⟩
    apply Exists.intro
    refine ⟨?run, ?closed, ?left⟩
    case run =>
      exact (hpush _ rfl _).mpr ⟨hdepth, (run_checkSig_ok rfl (by exact hdepth)).mpr
        ⟨hb, key, sig, below, success, rfl, hc, run_done rfl⟩⟩
    case closed => rfl
    case left => rfl

variable (hl : 2 ≤ sig.length ∧ sig.length ≤ Fault.maxItem)
  (hsig : Encoding.checkSignature ctx.flags sig = .ok ())
  (hkey : Encoding.checkKey ctx.flags key = .ok ())
  (hapart : Operation.pushing sig ∉ s.operations)
  (hgood : ctx.checker.signature sig key s = true)
include hl hsig hkey hapart hgood

theorem Signing.checkOne_good : checkOne ctx (withoutSignature s sig) sig key = .ok true := by
  have hne : sig ≠ [] := by
    rintro rfl
    exact absurd hl.1 (by decide)
  rw [withoutSignature_of_absent hapart]
  refine checkOne_ok.mpr ⟨hsig, hkey, ?_, fun hf => Bool.noConfusion hf⟩
  rw [hgood, Bool.and_true, bne_iff_ne]
  exact hne

theorem Template.IsPublicKey.solves (h : IsPublicKey s key) (hb : 1 ≤ ctx.budget) :
    Solves ctx s [sig] where
  fit := List.forall_mem_singleton.mpr hl.2
  uncoded _ := List.forall_mem_singleton.mpr (Operation.isCoded_of_length hl.1)
  few := (by decide : 1 ≤ 17)
  succeeds := h.evalScript_ok.mpr
    ⟨hb, (by decide : 2 ≤ 1000), sig, [], true, rfl, checkOne_good hl hsig hkey hapart hgood, rfl⟩

theorem Script.solves_payTo_key {hash : FixedBytes 20} (h : s = payTo (.key hash))
    (hb : 4 ≤ ctx.budget) (hk : 2 ≤ key.length ∧ key.length ≤ Fault.maxItem)
    (hhash : Hash.hash160 key = hash) : Solves ctx s [sig, key] where
  fit := List.forall_mem_cons.mpr ⟨hl.2, List.forall_mem_singleton.mpr hk.2⟩
  uncoded _ := List.forall_mem_cons.mpr ⟨Operation.isCoded_of_length hl.1,
    List.forall_mem_singleton.mpr (Operation.isCoded_of_length hk.1)⟩
  few := (by decide : 2 ≤ 17)
  succeeds := by
    have hcheck := checkOne_good hl hsig hkey hapart hgood
    rw [h] at hcheck ⊢
    exact evalScript_keyHash_ok.mpr ⟨hb, key, sig, [], true, rfl, by decide, hhash, hcheck, rfl⟩

end OneSignature

end CoinScript
