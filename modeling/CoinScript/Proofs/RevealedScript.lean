import CoinScript.Policy
import CoinScript.Proofs.SigOpsBound
import CoinScript.Proofs.SpendComposition
import CoinScript.Proofs.TemplateShapes

namespace CoinScript

namespace Script

variable {flags : Flags} {accurate : Bool}

theorem sigOps_of_unreadable {bs : Bytes} (h : Operation.read? bs = none) :
    sigOps ⟨bs⟩ flags accurate = 0 := by
  rw [sigOps, operations, parse_of_none h]
  rfl

/-- What a small number leaves begins a push that is cut short, or is a code that checks nothing. -/
theorem sigOps_number {code : Opcode} (h : code = Opcode.negativeOne ∨ Opcode.isOneToSixteen code = true) :
    sigOps ⟨Number.encode (Opcode.smallNumber code)⟩ flags accurate = 0 := by
  rcases h with rfl | h
  · have hitem : Number.encode (Opcode.smallNumber Opcode.negativeOne) = [0x81] := by decide +kernel
    have hread : Operation.read? [0x81] = some (⟨0x81, []⟩, []) := rfl
    rw [hitem, sigOps, operations, parse_of_some hread, parse_of_none rfl]
    rfl
  · have hrange := Opcode.isOneToSixteen_iff.mp h
    have hcode : (UInt8.ofNat (code.toNat - 80)).toNat = code.toNat - 80 :=
      UInt8.toNat_ofNat_of_lt' (by change _ < 256; omega)
    have hshort : UInt8.ofNat (code.toNat - 80) < Opcode.pushData1 := by
      rw [UInt8.lt_iff_toNat_lt, hcode]
      change _ < 76
      omega
    rw [Opcode.encode_smallNumber h]
    apply sigOps_of_unreadable
    rw [Operation.read?, if_pos hshort, hcode, Operation.ofData?, Bytes.split?_eq_none.mpr]
    · rfl
    · rw [List.length_nil]
      omega

/-- The data of an operation asks for the same checks as the item that it leaves. -/
theorem sigOps_item {minimal : Bool} {op : Operation} (h : op.Runs minimal) :
    sigOps ⟨op.data⟩ flags accurate = sigOps ⟨op.item⟩ flags accurate := by
  cases hp : op.isPush with
  | true => rw [Operation.item_of_push hp]
  | false =>
    have hgt : Opcode.pushData4 < op.code := by simpa [Operation.isPush] using hp
    have hnumber := (Opcode.reserved_or_number hgt h.small).resolve_left h.defined
    rw [h.bare hp, Operation.item_of_code hp, sigOps_number hnumber]
    exact sigOps_of_unreadable rfl

end Script

/-- The item on top is what the last operation has left. -/
theorem Operation.getLast?_of_items {ops : List Operation} {top : Bytes} {below : Stack}
    (h : (ops.map item).reverse = top :: below) : ∃ op ∈ ops, ops.getLast? = some op ∧ op.item = top := by
  rw [← List.map_reverse] at h
  obtain ⟨op, rest, hops, htop, -⟩ := List.map_eq_cons_iff.mp h
  refine ⟨op, ?_, ?_, htop⟩
  · rw [← List.mem_reverse, hops]
    exact List.mem_cons_self
  · rw [List.getLast?_eq_head?_reverse, hops, List.head?_cons]

section Pushing

variable {ctx ctx' : Context} {unlocking locking : Script} {top : Bytes} {below s t : Stack}

/-- The script found in the bytes asks for the checks of the one found on the stack. -/
theorem Script.exists_revealed (hp : unlocking.isPushOnly = true)
    (h : evalScript ctx unlocking [] = .ok () (top :: below)) :
    ∃ redeem, unlocking.revealed? = some redeem ∧
      ∀ flags accurate, redeem.sigOps flags accurate = sigOps ⟨top⟩ flags accurate := by
  obtain ⟨hruns, hitems⟩ := runs_of_evalScript hp h
  obtain ⟨op, hop, hlast, rfl⟩ := Operation.getLast?_of_items hitems
  refine ⟨⟨op.data⟩, ?_, fun flags accurate => sigOps_item (hruns op hop)⟩
  rw [revealed?, if_pos hp, hlast]
  rfl

/-- The relay rules find the item that any other run leaves on top. -/
theorem Policy.revealed?_eq (hp : unlocking.isPushOnly = true)
    (h : evalScript ctx unlocking [] = .ok () (top :: below)) : Policy.revealed? unlocking = some ⟨top⟩ := by
  have hlax : Context.minimal ⟨.none, .none, Spend.maxOps⟩ = true → ctx.minimal = true := by
    intro hm
    cases hm
  rw [Policy.revealed?, evalScript_of_pushOnly hp hlax h]

namespace Spend

/-- A spend of a script hash whose unlocking script is known to leave a script on top of a stack
either fails with its unlocking script, or goes on with this script and this stack. -/
theorem verifySpend_revealing (hp : unlocking.isPushOnly = true)
    (h : evalScript ctx unlocking [] = .ok () (top :: below))
    (hl : (ctx'.flags.has .p2sh && locking.isP2sh ctx'.flags) = true) :
    (verifySpend ctx' unlocking locking).map (fun _ => ()) = (do
      let _ ← leaves ctx' unlocking []
      let _ ← belowTrue (← leaves ctx' locking (top :: below))
      revealed ctx' ⟨top⟩ below) := by
  have hpush : requirePushOnly unlocking = .ok () := if_pos hp
  rw [verifySpend_composed, composed, hpush, hl]
  cases hs : leaves ctx' unlocking [] with
  | error fault => cases ctx'.flags.has .sigPushOnly <;> rfl
  | ok saved =>
    obtain rfl : saved = top :: below :=
      (runs_of_evalScript hp (leaves_ok.mp hs)).2.symm.trans (runs_of_evalScript hp h).2
    cases ctx'.flags.has .sigPushOnly <;> rfl

end Spend

end Pushing

/-- The signature checks that a spend of a script hash is charged with are those of the item which
its unlocking script leaves on top when it runs, under whatever rules it does. That item is the script
that the spend goes on to run, and the one whose checks the relay rules limit. -/
theorem revealed_sigOps_counted (ctx : Context) (flags : Flags) (locking unlocking : Script)
    (top : Bytes) (below : Stack) (hl : locking.isP2sh flags = true)
    (hp : unlocking.isPushOnly = true) (he : evalScript ctx unlocking [] = .ok () (top :: below)) :
    locking.spendSigOps flags unlocking = Script.sigOps ⟨top⟩ flags true ∧
      (∀ ctx' : Context, ctx'.flags.has .p2sh = true → locking.isP2sh ctx'.flags = true →
        (verifySpend ctx' unlocking locking).map (fun _ => ()) = (do
          let _ ← Spend.leaves ctx' unlocking []
          let _ ← Spend.belowTrue (← Spend.leaves ctx' locking (top :: below))
          Spend.revealed ctx' ⟨top⟩ below)) ∧
      ∀ (p : Policy) (i : Input) (spent : Output), i.unlocking = unlocking →
        spent.locking = locking → locking.isP2sh Policy.standard = true →
        p.checkInput i spent =
          let n := Script.sigOps ⟨top⟩ Policy.standard true
          Policy.demand (n ≤ p.maxRevealedSigOps) (.revealedSigOps n) := by
  refine ⟨?_, ?_, ?_⟩
  · obtain ⟨redeem, hredeem, hcount⟩ := Script.exists_revealed hp he
    rw [Script.spendSigOps, if_pos hl, hredeem]
    exact hcount flags true
  · intro ctx' hflag hl'
    exact Spend.verifySpend_revealing hp he (Bool.and_eq_true_iff.mpr ⟨hflag, hl'⟩)
  · intro p i spent hi hs hl'
    obtain ⟨id, hid⟩ := Template.ofScript_of_isP2sh hl'
    rw [Policy.checkInput, hi, hs, hid]
    dsimp only
    rw [Policy.checkRevealed, Policy.revealed?_eq hp he]

/-- A push of a two-key multisignature behind the number of its dummy. -/
theorem revealed_sigOps_counted_multisig :
    let locking : Script := ⟨0xa9 :: 20 :: (List.replicate 20 7 ++ [0x87])⟩
    let unlocking : Script := ⟨[0x00, 0x02, 0x52, 0xae]⟩
    let ctx : Context := ⟨.ofList [.minimalData], .none, 0⟩
    locking.isP2sh .none = true ∧ unlocking.isPushOnly = true ∧
      evalScript ctx unlocking [] = .ok () [[0x52, 0xae], []] ∧
      locking.spendSigOps .none unlocking = 2 := by
  intro locking unlocking ctx
  have hl : locking.isP2sh .none = true := by decide +kernel
  have hp : unlocking.isPushOnly = true := by decide +kernel
  have he : evalScript ctx unlocking [] = .ok () [[0x52, 0xae], []] := by decide +kernel
  have hcount : Script.sigOps ⟨[0x52, 0xae]⟩ .none true = 2 := by decide +kernel
  exact ⟨hl, hp, he, (revealed_sigOps_counted ctx .none locking unlocking _ _ hl hp he).1.trans hcount⟩

end CoinScript
