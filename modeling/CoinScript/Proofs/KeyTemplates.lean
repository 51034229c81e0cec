import CoinScript.Proofs.TemplateShapes

namespace CoinScript

namespace Template

variable {flags : Flags} {s : Script} {t : Template} {code : Opcode} {rest : Bytes}

/-- How many signatures a template asks for. -/
def required : Template → Nat
  | .multisig required _ => required
  | _ => 1

/-- The keys whose signatures a template asks for, in its order. -/
def signers : Template → List (FixedBytes 20)
  | .publicKey key => [Hash.hash160 key]
  | .frozen _ key => [Hash.hash160 key]
  | .publicKeyHash id => [id]
  | .multisig _ keys => keys.map Hash.hash160
  | _ => []

/-- The scripts that ask for signatures by keys and for nothing else. -/
inductive AsksKeys (s : Script) : Template → Prop
  | publicKey {key : Bytes} (h : IsPublicKey s key) : AsksKeys s (.publicKey key)
  | publicKeyHash {hash : FixedBytes 20} (h : s = Script.payTo (.key hash)) :
    AsksKeys s (.publicKeyHash hash)
  | multisig {required : Nat} {keys : List Bytes} (h : IsMultisig s required keys) :
    AsksKeys s (.multisig required keys)

theorem operations?_ofOperations {ops : List Operation} (h : ∀ op ∈ ops, op.Sized) :
    operations? (Script.ofOperations ops) = some ops := by
  have hp := Script.parse_ofOperations h
  have hw : (Script.ofOperations ops).isWellFormed = true := by
    rw [Script.isWellFormed, Script.tail, hp]
    rfl
  rw [operations?, if_pos hw, Script.operations, hp]

theorem scriptHash?_shape (h : scriptHash? flags s = some t) : ∃ id, s = Script.payTo (.script id) := by
  have hp : s.isP2sh flags = true := by
    unfold scriptHash? at h
    unfold Script.isP2sh Script.isP2sh20 Script.isP2sh32
    cases h20 : s.scriptHash20? <;> cases h32 : s.scriptHash32? <;> simp_all
  exact Script.eq_payTo_of_isP2sh hp

theorem scriptHash?_eq_none (h : ∀ id, s ≠ Script.payTo (.script id)) : scriptHash? flags s = none := by
  refine Option.eq_none_iff_forall_ne_some.mpr fun t ht => ?_
  obtain ⟨id, hid⟩ := scriptHash?_shape ht
  exact h id hid

/-- Where no script is paid and nothing is published, the other templates are left. -/
theorem ofScript_of_private (hscript : ∀ id, s ≠ Script.payTo (.script id))
    (hpublic : ∀ ops, ¬ IsPublic s ops) :
    ofScript flags s = (key? s <|> keyHash? s <|> frozen? s <|> multisig? s).getD .nonStandard := by
  have hl : label? s = none := by
    refine Option.eq_none_iff_forall_ne_some.mpr fun t h => ?_
    obtain ⟨ops, hops⟩ := label?_shape h
    exact hpublic ops hops
  have hd : data? s = none := by
    refine Option.eq_none_iff_forall_ne_some.mpr fun t h => ?_
    obtain ⟨ops, hops⟩ := data?_shape h
    exact hpublic ops hops
  rw [ofScript, scriptHash?_eq_none hscript, hl, hd]
  rfl

/-- The first byte rules out the hash of a script and public data. -/
theorem ofScript_of_first (hs : s.bytes = code :: rest)
    (hc : code ≠ Opcode.hash160 ∧ code ≠ Opcode.hash256 ∧ code ≠ Opcode.abort) :
    ofScript flags s = (key? s <|> keyHash? s <|> frozen? s <|> multisig? s).getD .nonStandard := by
  refine ofScript_of_private ?_ fun ops hops => ?_
  · rintro id rfl
    rw [id.payTo_bytes] at hs
    obtain ⟨rfl, -⟩ := List.cons.inj hs
    cases id with
    | short => exact absurd rfl hc.1
    | long => exact absurd rfl hc.2.1
  · obtain ⟨_, ha⟩ := hops.first
    rw [hs] at ha
    exact absurd (List.cons.inj ha).1 hc.2.2

theorem keyHash?_eq_none (hs : s.bytes = code :: rest) (hc : code ≠ Opcode.dup) : keyHash? s = none := by
  unfold keyHash? Script.keyHash?
  split
  · next d a n rest' hb =>
    rw [hs] at hb
    obtain ⟨rfl, -⟩ := List.cons.inj hb
    rw [if_neg fun h => hc h.1]
    rfl
  · rfl

namespace IsPublicKey

variable {key : Bytes}

theorem sized (h : IsPublicKey s key) :
    ∀ op ∈ [Operation.pushing key, ⟨Opcode.checkSig, []⟩], op.Sized :=
  List.forall_mem_cons.mpr ⟨(Operation.runs_key h.announced true).1,
    List.forall_mem_singleton.mpr (Operation.sized_bare (by decide))⟩

/-- The length of the key comes first. -/
theorem first (h : IsPublicKey s key) :
    ∃ rest, s.bytes = UInt8.ofNat key.length :: rest ∧ (key.length = 33 ∨ key.length = 65) := by
  have hl := PublicKey.length_of_announced h.announced
  have h75 : key.length ≤ 75 := by omega
  have hcode : Operation.pushCode key.length = UInt8.ofNat key.length := if_pos h75
  rw [h.eq, Script.ofOperations, List.flatMap_cons, Operation.bytes, Operation.pushing, hcode]
  exact ⟨_, rfl, hl⟩

theorem recognized (h : IsPublicKey s key) : ofScript flags s = .publicKey key := by
  obtain ⟨rest, hs, hl⟩ := h.first
  have hfirst : UInt8.ofNat key.length ≠ Opcode.hash160 ∧ UInt8.ofNat key.length ≠ Opcode.hash256 ∧
      UInt8.ofNat key.length ≠ Opcode.abort := by
    rcases hl with hl | hl <;> rw [hl] <;> decide
  have hdirect : (Operation.pushing key).code.toNat = key.length := by
    have h75 : key.length ≤ 75 := by omega
    rw [Operation.pushing, Operation.pushCode, if_pos h75, Operation.toNat_direct h75]
  have hops : operations? s = some [Operation.pushing key, ⟨Opcode.checkSig, []⟩] := by
    rw [h.eq]
    exact operations?_ofOperations h.sized
  have hkey : key? s = some (.publicKey key) := by
    rw [key?, hops]
    exact if_pos ⟨rfl, h.announced, hdirect⟩
  rw [ofScript_of_first hs hfirst, hkey]
  rfl

end IsPublicKey

theorem key?_eq_none (hs : s.bytes = code :: rest) (hc : code ≠ 33 ∧ code ≠ 65) : key? s = none := by
  cases hk : key? s with
  | none => rfl
  | some t =>
    obtain ⟨key, rfl⟩ := key?_isKey hk
    obtain ⟨rest', hb, hl⟩ := (key?_shape hk).first
    rw [hs] at hb
    obtain ⟨rfl, -⟩ := List.cons.inj hb
    rcases hl with hl | hl <;> rw [hl] at hc
    · exact absurd rfl hc.1
    · exact absurd rfl hc.2

theorem recognized_payTo_key (hash : FixedBytes 20) :
    ofScript flags (Script.payTo (.key hash)) = .publicKeyHash hash := by
  have hs : (Script.payTo (.key hash)).bytes = Opcode.dup :: Opcode.hash160 :: 20 ::
      (hash.bytes ++ [Opcode.equalVerify, Opcode.checkSig]) := by
    simp [Script.payTo]
  have hhash : keyHash? (Script.payTo (.key hash)) = some (.publicKeyHash hash) := by
    have hl := hash.length_bytes
    rw [keyHash?, Script.keyHash?, hs]
    simpa [hl] using FixedBytes.ofBytes?_eq_some.mpr rfl
  rw [ofScript_of_first hs (by decide), key?_eq_none hs (by decide), hhash]
  rfl

namespace IsMultisig

variable {required : Nat} {keys : List Bytes}

theorem keys_pos (h : IsMultisig s required keys) : 0 < keys.length :=
  Nat.lt_of_lt_of_le h.required_pos h.required_le

theorem required_le_sixteen (h : IsMultisig s required keys) : required ≤ 16 :=
  Nat.le_trans h.required_le h.keys_le

/-- The operations before the check only push, in the shortest way. -/
theorem pushes (h : IsMultisig s required keys) (minimal : Bool) :
    ∀ op ∈ multisigPushes required keys, op.Sized ∧ op.Runs minimal ∧ op.data.length ≤ 65 := by
  simp only [multisigPushes, List.mem_cons, List.mem_append, List.mem_map, List.not_mem_nil, or_false]
  rintro op (rfl | ⟨key, hkey, rfl⟩ | rfl)
  · exact ⟨Operation.sized_ofNumber h.required_pos h.required_le_sixteen,
      Operation.runs_ofNumber h.required_pos h.required_le_sixteen, Nat.zero_le _⟩
  · have hannounced := h.keys_announced key hkey
    obtain ⟨hsized, hruns⟩ := Operation.runs_key hannounced minimal
    exact ⟨hsized, hruns, PublicKey.length_le_of_announced hannounced⟩
  · exact ⟨Operation.sized_ofNumber h.keys_pos h.keys_le,
      Operation.runs_ofNumber h.keys_pos h.keys_le, Nat.zero_le _⟩

theorem sized (h : IsMultisig s required keys) :
    ∀ op ∈ multisigPushes required keys ++ [⟨Opcode.checkMultisig, []⟩], op.Sized := by
  refine List.forall_mem_append.mpr ⟨fun op hop => (h.pushes true op hop).1, ?_⟩
  exact List.forall_mem_singleton.mpr (Operation.sized_bare (by decide))

theorem operations_eq (h : IsMultisig s required keys) :
    s.operations = multisigPushes required keys ++ [⟨Opcode.checkMultisig, []⟩] := by
  rw [h.eq, Script.operations_ofOperations h.sized]

/-- The number of signatures comes first. -/
theorem first (h : IsMultisig s required keys) :
    ∃ rest, s.bytes = UInt8.ofNat (80 + required) :: rest ∧ required ≤ 16 :=
  ⟨_, congrArg Script.bytes h.eq, h.required_le_sixteen⟩

/-- The keys end where no data is pushed. -/
theorem takeWhile_announced (h : IsMultisig s required keys) :
    (keys.map Operation.pushing ++
      [Operation.ofNumber keys.length, ⟨Opcode.checkMultisig, []⟩]).takeWhile
        (fun op => PublicKey.hasAnnouncedLength op.data) = keys.map Operation.pushing := by
  rw [List.takeWhile_append_of_pos]
  · exact List.append_nil _
  · intro op hop
    obtain ⟨key, hkey, rfl⟩ := List.mem_map.mp hop
    exact h.keys_announced key hkey

theorem operations?_eq (h : IsMultisig s required keys) :
    operations? s = some (multisigPushes required keys ++ [⟨Opcode.checkMultisig, []⟩]) := by
  rw [h.eq]
  exact operations?_ofOperations h.sized

/-- A frozen key ends in a check of one signature. -/
theorem frozen?_eq_none (h : IsMultisig s required keys) : frozen? s = none := by
  cases hf : frozen? s with
  | none => rfl
  | some t =>
    obtain ⟨ops, ho, hops⟩ := Option.bind_eq_some_iff.mp hf
    rw [h.operations?_eq] at ho
    split at hops
    · next lockTime checkLock drop key check =>
      obtain ⟨⟨-, -, -, -, hcheck⟩, -⟩ := Option.ite_none_right_eq_some.mp hops
      have hlast := congrArg List.getLast? (Option.some.inj ho)
      rw [List.getLast?_concat] at hlast
      obtain rfl := Option.some.inj hlast
      exact absurd hcheck (by decide)
    · cases hops

theorem multisig?_eq (h : IsMultisig s required keys) :
    multisig? s = some (.multisig required keys) := by
  have hnumber {n : Nat} (hn : n ≤ 16) : (Operation.ofNumber n).code.toNat - 80 = n := by
    rw [Operation.toNat_ofNumber hn, Nat.add_sub_cancel_left]
  have hminimal : (keys.map Operation.pushing).all isKeyPush = true := by
    simp only [List.all_map, List.all_eq_true, Function.comp_apply]
    intro key hkey
    have hcoded := Operation.isCoded_of_announced (h.keys_announced key hkey)
    rw [isKeyPush, Operation.isPush_pushing, Operation.isMinimalPush_pushing hcoded]
    rfl
  have hkeys : (keys.map Operation.pushing).map Operation.data = keys := by
    rw [List.map_map]
    exact List.map_id _
  have hdrop (rest : List Operation) : (keys.map Operation.pushing ++ rest).drop keys.length = rest :=
    List.drop_left' (List.length_map _)
  simp only [multisig?, h.operations?_eq, multisigPushes, Option.bind_eq_bind, Option.bind_some,
    List.cons_append, List.append_assoc, List.nil_append, h.takeWhile_announced, List.length_map, hdrop,
    hkeys, hnumber h.required_le_sixteen, hnumber h.keys_le]
  exact if_pos ⟨Operation.isOneToSixteen_ofNumber h.required_pos h.required_le_sixteen,
    Operation.isOneToSixteen_ofNumber h.keys_pos h.keys_le, trivial, hminimal, trivial,
      h.required_le⟩

theorem recognized (h : IsMultisig s required keys) :
    ofScript flags s = .multisig required keys := by
  obtain ⟨rest, hs, hl⟩ := h.first
  have h0 := h.required_pos
  have hfirst (code : Opcode) (hc : code.toNat ≤ 80 ∨ 97 ≤ code.toNat) :
      UInt8.ofNat (80 + required) ≠ code := by
    rintro rfl
    have hcode : (UInt8.ofNat (80 + required)).toNat = 80 + required := Operation.toNat_ofNumber hl
    omega
  have hscript : ofScript flags s = _ :=
    ofScript_of_first hs ⟨hfirst _ (by decide), hfirst _ (by decide), hfirst _ (by decide)⟩
  rw [hscript, key?_eq_none hs ⟨hfirst _ (by decide), hfirst _ (by decide)⟩,
    keyHash?_eq_none hs (hfirst _ (by decide)), h.frozen?_eq_none, h.multisig?_eq]
  rfl

end IsMultisig

theorem recognized_payTo_script (hash : FixedBytes 20) :
    ofScript flags (Script.payTo (.script (.short hash))) = .scriptHash (.short hash) := by
  have hs : scriptHash? flags (Script.payTo (.script (.short hash))) =
      some (.scriptHash (.short hash)) := by
    rw [scriptHash?, Script.scriptHash20?_eq_some.mpr rfl]
  rw [ofScript, hs]
  rfl

theorem ofScript_eq_publicKey_iff {key : Bytes} :
    ofScript flags s = .publicKey key ↔ IsPublicKey s key :=
  ⟨publicKey_shape, IsPublicKey.recognized⟩

theorem ofScript_eq_publicKeyHash_iff {hash : FixedBytes 20} :
    ofScript flags s = .publicKeyHash hash ↔ s = Script.payTo (.key hash) :=
  ⟨publicKeyHash_shape, fun h => h ▸ recognized_payTo_key hash⟩

theorem ofScript_eq_multisig_iff {required : Nat} {keys : List Bytes} :
    ofScript flags s = .multisig required keys ↔ IsMultisig s required keys :=
  ⟨multisig_shape, IsMultisig.recognized⟩

namespace AsksKeys

theorem recognized (h : AsksKeys s t) : ofScript flags s = t := by
  cases h with
  | publicKey h => exact ofScript_eq_publicKey_iff.mpr h
  | publicKeyHash h => exact ofScript_eq_publicKeyHash_iff.mpr h
  | multisig h => exact ofScript_eq_multisig_iff.mpr h

theorem isScriptHash_eq (h : AsksKeys s t) : t.isScriptHash = false := by
  cases h <;> rfl

theorem two_le_length (h : AsksKeys s t) : 2 ≤ s.bytes.length := by
  cases h with
  | @publicKey key h =>
    rw [h.eq]
    exact Script.length_le_ofOperations [.pushing key, ⟨Opcode.checkSig, []⟩]
  | publicKeyHash h => simp [h, Script.payTo]
  | @multisig required keys h =>
    have hops : 2 ≤ (multisigPushes required keys ++ [Operation.mk Opcode.checkMultisig []]).length := by
      simp [multisigPushes]
    rw [h.eq]
    exact Nat.le_trans hops (Script.length_le_ofOperations _)

end AsksKeys

end Template

end CoinScript
