import CoinScript.Proofs.Pushes
import CoinScript.Proofs.TemplateRuns
import CoinScript.Template.Recognize
import Mathlib.Data.List.TakeWhile

namespace CoinScript

theorem PublicKey.announced_iff {key : Bytes} : hasAnnouncedLength key = true ↔
    ∃ tag rest, key = tag :: rest ∧
      (tag ∈ [2, 3] ∧ rest.length = 32 ∨ tag ∈ [4, 6, 7] ∧ rest.length = 64) := by
  cases key with
  | nil => exact iff_of_false nofun nofun
  | cons tag rest =>
    have hfirst : hasAnnouncedLength (tag :: rest) = true ↔
        tag ∈ [2, 3] ∧ rest.length = 32 ∨ tag ∈ [4, 6, 7] ∧ rest.length = 64 := by
      simp [hasAnnouncedLength, or_assoc]
    constructor
    · intro h
      exact ⟨tag, rest, rfl, hfirst.mp h⟩
    · rintro ⟨_, _, heq, h⟩
      cases heq
      exact hfirst.mpr h

/-- A key that announces its length has one of two lengths. -/
theorem PublicKey.length_of_announced {key : Bytes} (h : hasAnnouncedLength key = true) :
    key.length = 33 ∨ key.length = 65 := by
  obtain ⟨tag, rest, rfl, ⟨-, h⟩ | ⟨-, h⟩⟩ := announced_iff.mp h
  · exact .inl (congrArg Nat.succ h)
  · exact .inr (congrArg Nat.succ h)

theorem PublicKey.length_le_of_announced {key : Bytes} (h : hasAnnouncedLength key = true) :
    key.length ≤ 65 := by
  rcases length_of_announced h with hl | hl <;> omega

namespace Operation

variable {op : Operation} {n : Nat}

theorem Sized.bare (h : op.Sized) (hp : op.isPush = false) : op.data = [] := by
  have hgt : ¬ op.code ≤ Opcode.pushData4 := by simpa [isPush] using hp
  have hge : ¬ op.code < Opcode.pushData1 := fun hlt =>
    hgt (UInt8.le_of_lt (UInt8.lt_of_lt_of_le hlt (by decide)))
  simpa [Sized, hge, hgt] using h

/-- An operation that acts is known from its code. -/
theorem Sized.eq_bare {code : Opcode} (h : op.Sized) (hc : op.code = code)
    (hp : Opcode.pushData4 < code) : op = ⟨code, []⟩ := by
  obtain rfl := hc
  have hdata := h.bare (decide_eq_false (UInt8.not_le.mpr hp))
  cases op
  exact congrArg _ hdata

theorem toNat_ofNumber (h : n ≤ 16) : (ofNumber n).code.toNat = 80 + n :=
  UInt8.toNat_ofNat_of_lt' (Nat.lt_of_le_of_lt (Nat.add_le_add_left h 80) (by decide))

theorem isOneToSixteen_ofNumber (h0 : 0 < n) (h : n ≤ 16) :
    Opcode.isOneToSixteen (ofNumber n).code = true := by
  rw [Opcode.isOneToSixteen_iff, toNat_ofNumber h]
  omega

theorem isPush_of_number (h : Opcode.isOneToSixteen op.code = true) : op.isPush = false := by
  have hrange := (Opcode.isOneToSixteen_iff.mp h).1
  refine decide_eq_false fun hle => ?_
  rw [UInt8.le_iff_toNat_le] at hle
  change op.code.toNat ≤ 0x4e at hle
  omega

theorem sized_ofNumber (h0 : 0 < n) (h : n ≤ 16) : (ofNumber n).Sized := by
  have hp := isPush_of_number (isOneToSixteen_ofNumber h0 h)
  exact sized_bare (UInt8.not_le.mp (of_decide_eq_false hp))

theorem runs_ofNumber {minimal : Bool} (h0 : 0 < n) (h : n ≤ 16) : (ofNumber n).Runs minimal where
  small := by
    rw [UInt8.le_iff_toNat_le, toNat_ofNumber h]
    exact Nat.add_le_add_left h 80
  defined hr := by
    have hcode := toNat_ofNumber h
    rw [hr] at hcode
    change 80 = 80 + n at hcode
    omega
  bare _ := rfl
  short := Nat.zero_le _
  shortest _ hp := by
    rw [isPush_of_number (isOneToSixteen_ofNumber h0 h)] at hp
    cases hp

theorem item_ofNumber (h0 : 0 < n) (h : n ≤ 16) : (ofNumber n).item = [UInt8.ofNat n] := by
  have hnumber := isOneToSixteen_ofNumber h0 h
  rw [item_of_code (isPush_of_number hnumber), Opcode.encode_smallNumber hnumber, toNat_ofNumber h,
    Nat.add_sub_cancel_left]

/-- A number code is known from its number. -/
theorem eq_ofNumber (hs : op.Sized) (h : Opcode.isOneToSixteen op.code = true) :
    op = ofNumber (op.code.toNat - 80) := by
  have hrange := Opcode.isOneToSixteen_iff.mp h
  have hcode : UInt8.ofNat (80 + (op.code.toNat - 80)) = op.code := by
    rw [Nat.add_sub_cancel' (by omega), UInt8.ofNat_toNat]
  have hdata := hs.bare (isPush_of_number h)
  cases op
  simp only at hcode hdata
  rw [ofNumber, hcode, hdata]

/-- A minimal push of two bytes or more is the one that the builder writes. -/
theorem eq_pushing (hm : op.isMinimalPush = true) (hc : isCoded op.data = false)
    (hl : op.data.length ≤ 0xffff) : op = pushing op.data := by
  have hcode := code_of_isMinimalPush hl hm
  have hshape := pushing_eq_ofItem hc hl
  rw [ofItem, ← hcode] at hshape
  obtain ⟨code, data⟩ := op
  exact (congrArg (Operation.mk · data) (congrArg Operation.code hshape)).symm

theorem isCoded_of_announced {key : Bytes} (h : PublicKey.hasAnnouncedLength key = true) :
    isCoded key = false := by
  have hl := PublicKey.length_of_announced h
  exact isCoded_of_length (by omega)

/-- A key is pushed in the shortest way. -/
theorem runs_key {key : Bytes} (h : PublicKey.hasAnnouncedLength key = true) (minimal : Bool) :
    (pushing key).Sized ∧ (pushing key).Runs minimal := by
  have hl := PublicKey.length_le_of_announced h
  exact ⟨sized_pushing (Nat.le_trans hl (by decide)),
    runs_pushing (Nat.le_trans hl (by decide)) fun _ => isCoded_of_announced h⟩

end Operation

namespace Template

variable {flags : Flags} {s : Script} {t : Template}

/-- What tells a template. -/
def recognizer (flags : Flags) (s : Script) : Template → Option Template
  | .nonStandard => some .nonStandard
  | .publicKey _ => key? s
  | .publicKeyHash _ => keyHash? s
  | .scriptHash _ => scriptHash? flags s
  | .multisig _ _ => multisig? s
  | .frozen _ _ => frozen? s
  | .label _ _ => label? s
  | .data => data? s

theorem scriptHash?_isScriptHash (h : scriptHash? flags s = some t) : ∃ id, t = .scriptHash id := by
  unfold scriptHash? at h
  split at h
  · cases h
    exact ⟨_, rfl⟩
  · split at h
    · obtain ⟨hash, -, rfl⟩ := Option.map_eq_some_iff.mp h
      exact ⟨_, rfl⟩
    · cases h

theorem label?_isLabel (h : label? s = some t) : ∃ length text, t = .label length text := by
  obtain ⟨ops, -, hops⟩ := Option.bind_eq_some_iff.mp h
  split at hops
  · obtain ⟨n, -, hn⟩ := Option.bind_eq_some_iff.mp hops
    exact ⟨_, _, by simpa using (Option.ite_none_right_eq_some.mp hn).2.symm⟩
  · cases hops

theorem data?_isData (h : data? s = some t) : t = .data := by
  obtain ⟨ops, -, hops⟩ := Option.bind_eq_some_iff.mp h
  split at hops
  · simpa using (Option.ite_none_right_eq_some.mp hops).2.symm
  · cases hops

theorem key?_isKey (h : key? s = some t) : ∃ key, t = .publicKey key := by
  obtain ⟨ops, -, hops⟩ := Option.bind_eq_some_iff.mp h
  split at hops
  · exact ⟨_, by simpa using (Option.ite_none_right_eq_some.mp hops).2.symm⟩
  · cases hops

theorem frozen?_isFrozen (h : frozen? s = some t) : ∃ lockTime key, t = .frozen lockTime key := by
  obtain ⟨ops, -, hops⟩ := Option.bind_eq_some_iff.mp h
  split at hops
  · exact ⟨_, _, by simpa using (Option.ite_none_right_eq_some.mp hops).2.symm⟩
  · cases hops

theorem multisig?_isMultisig (h : multisig? s = some t) : ∃ required keys, t = .multisig required keys := by
  obtain ⟨ops, -, hops⟩ := Option.bind_eq_some_iff.mp h
  split at hops
  · cases hops
  · dsimp only at hops
    split at hops
    · exact ⟨_, _, by simpa using (Option.ite_none_right_eq_some.mp hops).2.symm⟩
    · cases hops

/-- What holds of a first choice and of the choice among the others holds of the choice. -/
theorem choice_of_both {P : Template → Prop} {first others : Option Template} {last : Template}
    (h : ∀ t, first = some t → P t) (h' : P (others.getD last)) :
    P ((first <|> others).getD last) := by
  cases first with
  | none => exact h'
  | some t => exact h t rfl

/-- The recognizers are tried one after the other, and none of them tells another's template. -/
theorem ofScript_recognizer (flags : Flags) (s : Script) :
    recognizer flags s (ofScript flags s) = some (ofScript flags s) := by
  unfold ofScript
  refine choice_of_both (P := fun t => recognizer flags s t = some t) (fun t h => ?_) ?_
  · obtain ⟨id, rfl⟩ := scriptHash?_isScriptHash h
    exact h
  refine choice_of_both (P := fun t => recognizer flags s t = some t) (fun t h => ?_) ?_
  · obtain ⟨length, text, rfl⟩ := label?_isLabel h
    exact h
  refine choice_of_both (P := fun t => recognizer flags s t = some t) (fun t h => ?_) ?_
  · obtain rfl := data?_isData h
    exact h
  refine choice_of_both (P := fun t => recognizer flags s t = some t) (fun t h => ?_) ?_
  · obtain ⟨key, rfl⟩ := key?_isKey h
    exact h
  refine choice_of_both (P := fun t => recognizer flags s t = some t) (fun t h => ?_) ?_
  · obtain ⟨hash, -, rfl⟩ := Option.map_eq_some_iff.mp h
    exact h
  refine choice_of_both (P := fun t => recognizer flags s t = some t) (fun t h => ?_) ?_
  · obtain ⟨lockTime, key, rfl⟩ := frozen?_isFrozen h
    exact h
  cases h : multisig? s with
  | none => rfl
  | some t =>
    obtain ⟨required, keys, rfl⟩ := multisig?_isMultisig h
    exact h

theorem recognizer_of_ofScript (h : ofScript flags s = t) : recognizer flags s t = some t :=
  h ▸ ofScript_recognizer flags s

/-- Scripts that pay to a script are told first. -/
theorem isP2sh_eq_false (h : ofScript flags s = t) (ht : t.isScriptHash = false) :
    s.isP2sh flags = false := by
  have hnone : scriptHash? flags s = none := by
    cases hs : scriptHash? flags s with
    | none => rfl
    | some t' =>
      obtain ⟨id, rfl⟩ := scriptHash?_isScriptHash hs
      have hid : ofScript flags s = .scriptHash id := by
        rw [ofScript, hs]
        rfl
      rw [← h, hid] at ht
      cases ht
  unfold scriptHash? at hnone
  unfold Script.isP2sh Script.isP2sh20 Script.isP2sh32
  cases h20 : s.scriptHash20? with
  | some hash => simp [h20] at hnone
  | none => simpa [h20] using hnone

theorem ofScript_of_isP2sh (h : s.isP2sh flags = true) : ∃ id, ofScript flags s = .scriptHash id := by
  cases ht : ofScript flags s with
  | scriptHash id => exact ⟨id, rfl⟩
  | _ =>
    rw [isP2sh_eq_false ht rfl] at h
    cases h

theorem keyHash?_shape {hash : FixedBytes 20} (h : keyHash? s = some (.publicKeyHash hash)) :
    s = Script.payTo (.key hash) := by
  obtain ⟨found, hh, he⟩ := Option.map_eq_some_iff.mp h
  cases he
  unfold Script.keyHash? at hh
  split at hh
  · next d a n rest hb =>
    obtain ⟨⟨rfl, rfl, rfl, hlast⟩, hw⟩ := Option.ite_none_right_eq_some.mp hh
    rw [Script.eq_iff_bytes, hb, FixedBytes.eq_append_of_cut hlast hw]
    simp [Script.payTo]
  · cases hh

theorem publicKeyHash_shape {hash : FixedBytes 20} (h : ofScript flags s = .publicKeyHash hash) :
    s = Script.payTo (.key hash) :=
  keyHash?_shape (recognizer_of_ofScript h)

/-- A well-formed script read as operations, each as long as its code says. -/
theorem operations?_shape {ops : List Operation} (h : operations? s = some ops) :
    s = Script.ofOperations ops ∧ ∀ op ∈ ops, op.Sized := by
  obtain ⟨hw, ho⟩ := Option.ite_none_right_eq_some.mp h
  cases ho
  exact ⟨(Script.ofOperations_operations hw).symm, Script.sized_parse s.bytes⟩

/-- A script of `OP_RETURN` and, after it, these operations, which only push. -/
def IsPublic (s : Script) (ops : List Operation) : Prop :=
  operations? s = some (⟨Opcode.abort, []⟩ :: ops) ∧ isPublic ops = true

theorem IsPublic.first {ops : List Operation} (h : IsPublic s ops) :
    ∃ rest, s.bytes = Opcode.abort :: rest := by
  obtain ⟨rfl, -⟩ := operations?_shape h.1
  exact ⟨_, rfl⟩

theorem label?_shape (h : label? s = some t) : ∃ ops, IsPublic s ops := by
  obtain ⟨ops, ho, hops⟩ := Option.bind_eq_some_iff.mp h
  obtain ⟨-, hsized⟩ := operations?_shape ho
  split at hops
  · next abort length text rest =>
    obtain ⟨n, -, hn⟩ := Option.bind_eq_some_iff.mp hops
    obtain ⟨⟨hcode, hpublic, -⟩, -⟩ := Option.ite_none_right_eq_some.mp hn
    obtain rfl := (hsized abort List.mem_cons_self).eq_bare hcode (by decide)
    exact ⟨_, ho, hpublic⟩
  · cases hops

theorem label_shape {length text : Bytes} (h : ofScript flags s = .label length text) :
    ∃ rest, s.bytes = Opcode.abort :: rest := by
  obtain ⟨ops, hops⟩ := label?_shape (recognizer_of_ofScript h)
  exact hops.first

theorem data?_shape (h : data? s = some t) : ∃ ops, IsPublic s ops := by
  obtain ⟨ops, ho, hops⟩ := Option.bind_eq_some_iff.mp h
  obtain ⟨-, hsized⟩ := operations?_shape ho
  split at hops
  · next abort rest =>
    obtain ⟨⟨hcode, hpublic⟩, -⟩ := Option.ite_none_right_eq_some.mp hops
    obtain rfl := (hsized abort List.mem_cons_self).eq_bare hcode (by decide)
    exact ⟨_, ho, hpublic⟩
  · cases hops

/-- A key that is pushed directly, and the check that it has signed. -/
structure IsPublicKey (s : Script) (key : Bytes) : Prop where
  announced : PublicKey.hasAnnouncedLength key = true
  eq : s = Script.ofOperations [.pushing key, ⟨Opcode.checkSig, []⟩]

theorem key?_shape {key : Bytes} (h : key? s = some (.publicKey key)) : IsPublicKey s key := by
  obtain ⟨ops, ho, hops⟩ := Option.bind_eq_some_iff.mp h
  obtain ⟨rfl, hsized⟩ := operations?_shape ho
  split at hops
  · next push check =>
    obtain ⟨⟨hcheck, hkey, hdirect⟩, ht⟩ := Option.ite_none_right_eq_some.mp hops
    cases ht
    have h75 : push.data.length ≤ 75 :=
      Nat.le_trans (PublicKey.length_le_of_announced hkey) (by decide)
    have hpush : push = .pushing push.data := by
      rw [Operation.pushing, Operation.pushCode, if_pos h75, ← hdirect, UInt8.ofNat_toNat]
    have hbare := (hsized check (by simp)).eq_bare hcheck (by decide)
    refine ⟨hkey, ?_⟩
    rw [← hpush, ← hbare]
  · cases hops

theorem publicKey_shape {key : Bytes} (h : ofScript flags s = .publicKey key) : IsPublicKey s key :=
  key?_shape (recognizer_of_ofScript h)

/-- Number codes around pushes of keys. -/
def multisigPushes (required : Nat) (keys : List Bytes) : List Operation :=
  .ofNumber required :: (keys.map .pushing ++ [.ofNumber keys.length])

/-- A script that asks for signatures by `required` of up to 16 keys. -/
structure IsMultisig (s : Script) (required : Nat) (keys : List Bytes) : Prop where
  keys_announced : ∀ key ∈ keys, PublicKey.hasAnnouncedLength key = true
  required_pos : 0 < required
  required_le : required ≤ keys.length
  keys_le : keys.length ≤ 16
  eq : s = Script.ofOperations (multisigPushes required keys ++ [⟨Opcode.checkMultisig, []⟩])

theorem multisig_shape {required : Nat} {keys : List Bytes}
    (h : ofScript flags s = .multisig required keys) : IsMultisig s required keys := by
  obtain ⟨ops, ho, hops⟩ := Option.bind_eq_some_iff.mp (recognizer_of_ofScript h)
  obtain ⟨rfl, hsized⟩ := operations?_shape ho
  split at hops
  · cases hops
  · next first rest =>
    dsimp only at hops
    generalize hkeys : rest.takeWhile (fun op => PublicKey.hasAnnouncedLength op.data) = pushes at hops
    split at hops
    · next last check hend =>
      obtain ⟨⟨hfirst, hlast, hcheck, hminimal, hcount, hle⟩, ht⟩ :=
        Option.ite_none_right_eq_some.mp hops
      cases ht
      have hprefix : pushes <+: rest := hkeys ▸ List.takeWhile_prefix _
      have hrest : rest = pushes ++ [last, check] := by
        rw [← hend, List.prefix_iff_eq_append.mp hprefix]
      subst hrest
      have hannounced : ∀ op ∈ pushes, PublicKey.hasAnnouncedLength op.data = true := by
        intro op hop
        rw [← hkeys] at hop
        simpa using List.mem_takeWhile_imp hop
      have hpushes : (pushes.map Operation.data).map Operation.pushing = pushes := by
        rw [List.map_map]
        refine (List.map_congr_left fun op hop => ?_).trans (List.map_id pushes)
        have ha := hannounced op hop
        have hl : op.data.length ≤ 0xffff :=
          Nat.le_trans (PublicKey.length_le_of_announced ha) (by decide)
        have hmin := (Bool.and_eq_true_iff.mp (List.all_eq_true.mp hminimal op hop)).2
        exact (Operation.eq_pushing hmin (Operation.isCoded_of_announced ha) hl).symm
      have hfirstRange := Opcode.isOneToSixteen_iff.mp hfirst
      have hlastRange := Opcode.isOneToSixteen_iff.mp hlast
      refine ⟨?_, by omega, by rwa [List.length_map], by rw [List.length_map]; omega, ?_⟩
      · intro key hkey
        obtain ⟨op, hop, rfl⟩ := List.mem_map.mp hkey
        exact hannounced op hop
      · have hf := Operation.eq_ofNumber (hsized first (by simp)) hfirst
        have hl := Operation.eq_ofNumber (hsized last (by simp)) hlast
        have hc := (hsized check (by simp)).eq_bare hcheck (by decide)
        rw [multisigPushes, List.length_map, ← hcount, ← hf, ← hl, ← hc, hpushes]
        simp
    · cases hops

end Template

end CoinScript
