import CoinScript.Proofs.KeyTemplates
import CoinScript.Template.Build
import Mathlib.Data.List.Basic

namespace CoinScript

theorem PublicKey.announced_bytes {C : Curve} (key : PublicKey C) :
    hasAnnouncedLength key.bytes = true := by
  unfold PublicKey.bytes
  split
  · simp only [compressedBytes]
    split <;> simp [hasAnnouncedLength]
  · simp [uncompressedBytes, hasAnnouncedLength]

theorem Opcode.ofSmallNumber?_ofNat {n : Nat} (h0 : 0 < n) (h : n ≤ 16) :
    ofSmallNumber? n = some (UInt8.ofNat (80 + n)) := by
  rw [ofSmallNumber?, if_neg (by omega), if_neg (by omega), if_pos (by omega), Int.toNat_natCast]

namespace Template

/-- What a template is apart from its parameters. -/
inductive Kind
  | nonStandard
  | publicKey
  | publicKeyHash
  | scriptHash
  | multisig
  | frozen
  | label
  | data
deriving DecidableEq

def kind : Template → Kind
  | .nonStandard => .nonStandard
  | .publicKey _ => .publicKey
  | .publicKeyHash _ => .publicKeyHash
  | .scriptHash _ => .scriptHash
  | .multisig _ _ => .multisig
  | .frozen _ _ => .frozen
  | .label _ _ => .label
  | .data => .data

/-- The kind and the items that a script is solved with. -/
def solution (flags : Flags) (s : Script) : Kind × List Bytes :=
  ((ofScript flags s).kind, (ofScript flags s).parameters)

/-- A code that says how many bytes it pushes, and these bytes. -/
def directPush (item : Bytes) : Bytes := UInt8.ofNat item.length :: item

variable {flags : Flags} {s : Script} {t : Template} {item key : Bytes} {keys : List Bytes}

theorem eq_publicKey_iff : (t.kind, t.parameters) = (.publicKey, [key]) ↔ t = .publicKey key := by
  cases t <;> simp [kind, parameters]

theorem eq_publicKeyHash_iff :
    (t.kind, t.parameters) = (.publicKeyHash, [item]) ↔
      ∃ hash, t = .publicKeyHash hash ∧ hash.bytes = item := by
  cases t <;> simp [kind, parameters]

theorem eq_scriptHash_iff :
    (t.kind, t.parameters) = (.scriptHash, [item]) ↔ ∃ id, t = .scriptHash id ∧ id.bytes = item := by
  cases t <;> simp [kind, parameters]

theorem eq_multisig_iff {m n : UInt8} :
    (t.kind, t.parameters) = (.multisig, [m] :: (keys ++ [[n]])) ↔
      ∃ required, t = .multisig required keys ∧ UInt8.ofNat required = m ∧
        UInt8.ofNat keys.length = n := by
  constructor
  · intro h
    cases t with
    | multisig required keys' =>
      obtain ⟨hm, htail⟩ := List.cons.inj (Prod.mk.inj h).2
      obtain ⟨rfl, hn⟩ := List.append_inj' htail rfl
      exact ⟨required, rfl, (List.cons.inj hm).1, (List.cons.inj (List.cons.inj hn).1).1⟩
    | _ => cases (Prod.mk.inj h).1
  · rintro ⟨required, rfl, rfl, rfl⟩
    rfl

theorem eq_frozen_iff {lockTime : Bytes} :
    (t.kind, t.parameters) = (.frozen, [lockTime, key]) ↔ t = .frozen lockTime key := by
  cases t <;> simp [kind, parameters]

theorem eq_label_iff {length : Bytes} :
    (t.kind, t.parameters) = (.label, [length, item]) ↔ t = .label length item := by
  cases t <;> simp [kind, parameters]

theorem bytes_pushing (h : item.length ≤ 75) : (Operation.pushing item).bytes = directPush item := by
  have hcode : Operation.pushCode item.length = UInt8.ofNat item.length := if_pos h
  rw [Operation.bytes, Operation.isPush_pushing, if_pos rfl, Operation.lengthBytes,
    Operation.pushing, hcode, Operation.lengthWidth_of_lt (Operation.direct_lt h)]
  rfl

theorem bytes_pushing_announced (h : PublicKey.hasAnnouncedLength key = true) :
    (Operation.pushing key).bytes = directPush key :=
  bytes_pushing (Nat.le_trans (PublicKey.length_le_of_announced h) (by decide))

theorem flatMap_pushing (h : ∀ key ∈ keys, PublicKey.hasAnnouncedLength key = true) :
    (keys.map Operation.pushing).flatMap Operation.bytes = keys.flatMap directPush := by
  rw [List.flatMap_map]
  exact List.flatMap_congr fun key hkey => bytes_pushing_announced (h key hkey)

theorem isPublicKey_iff_bytes :
    IsPublicKey s key ↔ PublicKey.hasAnnouncedLength key = true ∧
      s.bytes = directPush key ++ [Opcode.checkSig] := by
  have hbytes (h : PublicKey.hasAnnouncedLength key = true) :
      (Script.ofOperations [.pushing key, ⟨Opcode.checkSig, []⟩]).bytes =
        directPush key ++ [Opcode.checkSig] := by
    rw [Script.ofOperations, List.flatMap_cons, bytes_pushing_announced h]
    rfl
  constructor
  · rintro ⟨h, rfl⟩
    exact ⟨h, hbytes h⟩
  · rintro ⟨h, hs⟩
    exact ⟨h, Script.eq_iff_bytes.mpr (hs.trans (hbytes h).symm)⟩

theorem bytes_ofNumber {n : Nat} (h0 : 0 < n) (h : n ≤ 16) :
    (Operation.ofNumber n).bytes = [UInt8.ofNat (80 + n)] := by
  have hpush := Operation.isPush_of_number (Operation.isOneToSixteen_ofNumber h0 h)
  have hgt : Opcode.pushData4 < (Operation.ofNumber n).code :=
    UInt8.not_le.mp (of_decide_eq_false hpush)
  rw [Operation.bytes, hpush, if_neg Bool.false_ne_true, Operation.lengthBytes,
    Operation.lengthWidth_of_gt hgt]
  rfl

theorem isMultisig_iff_bytes {required : Nat} :
    IsMultisig s required keys ↔ 1 ≤ required ∧ required ≤ keys.length ∧ keys.length ≤ 16 ∧
      (∀ key ∈ keys, PublicKey.hasAnnouncedLength key = true) ∧
      s.bytes = UInt8.ofNat (80 + required) :: (keys.flatMap directPush ++
        [UInt8.ofNat (80 + keys.length), Opcode.checkMultisig]) := by
  have hbytes (h1 : 1 ≤ required) (h2 : required ≤ keys.length) (h3 : keys.length ≤ 16)
      (h : ∀ key ∈ keys, PublicKey.hasAnnouncedLength key = true) :
      (Script.ofOperations (multisigPushes required keys ++ [⟨Opcode.checkMultisig, []⟩])).bytes =
        UInt8.ofNat (80 + required) :: (keys.flatMap directPush ++
          [UInt8.ofNat (80 + keys.length), Opcode.checkMultisig]) := by
    rw [Script.ofOperations, multisigPushes, List.cons_append, List.flatMap_cons, List.append_assoc,
      List.flatMap_append, flatMap_pushing h, bytes_ofNumber h1 (Nat.le_trans h2 h3), List.flatMap_append,
      List.flatMap_singleton, bytes_ofNumber (Nat.le_trans h1 h2) h3]
    rfl
  constructor
  · rintro ⟨h, h1, h2, h3, rfl⟩
    exact ⟨h1, h2, h3, h, hbytes h1 h2 h3 h⟩
  · rintro ⟨h1, h2, h3, h, hs⟩
    exact ⟨h, h1, h2, h3, Script.eq_iff_bytes.mpr (hs.trans (hbytes h1 h2 h3 h).symm)⟩

theorem isPayToKeyHash_iff_bytes {hash : FixedBytes 20} :
    s = Script.payTo (.key hash) ↔ s.bytes =
      [Opcode.dup, Opcode.hash160] ++ directPush hash.bytes ++ [Opcode.equalVerify, Opcode.checkSig] := by
  rw [Script.eq_iff_bytes, directPush, hash.length_bytes]
  rfl

theorem isPayToShortHash_iff_bytes {hash : FixedBytes 20} :
    s = Script.payTo (.script (.short hash)) ↔
      s.bytes = Opcode.hash160 :: (directPush hash.bytes ++ [Opcode.equal]) := by
  rw [Script.eq_iff_bytes, directPush, hash.length_bytes]
  rfl

theorem isPayToLongHash_iff_bytes {hash : FixedBytes 32} :
    s = Script.payTo (.script (.long hash)) ↔
      s.bytes = Opcode.hash256 :: (directPush hash.bytes ++ [Opcode.equal]) := by
  rw [Script.eq_iff_bytes, directPush, hash.length_bytes]
  rfl

/-- Nothing is tried before the hash of a script. -/
theorem ofScript_eq_scriptHash_iff {id : ScriptId} :
    ofScript flags s = .scriptHash id ↔ scriptHash? flags s = some (.scriptHash id) := by
  constructor
  · exact recognizer_of_ofScript
  · intro h
    rw [ofScript, h]
    rfl

theorem ofScript_eq_shortHash_iff {hash : FixedBytes 20} :
    ofScript flags s = .scriptHash (.short hash) ↔ s = Script.payTo (.script (.short hash)) := by
  rw [ofScript_eq_scriptHash_iff, ← Script.scriptHash20?_eq_some, scriptHash?]
  cases s.scriptHash20? with
  | some found => simp
  | none => simp

theorem ofScript_eq_longHash_iff {hash : FixedBytes 32} :
    ofScript flags s = .scriptHash (.long hash) ↔
      flags.has .p2sh32 = true ∧ s = Script.payTo (.script (.long hash)) := by
  rw [ofScript_eq_scriptHash_iff, scriptHash?]
  cases h20 : s.scriptHash20? with
  | some found =>
    constructor
    · intro h
      cases Option.some.inj h
    · rintro ⟨-, hlong⟩
      have hshort := Script.scriptHash20?_eq_some.mp h20
      cases Script.payTo_script_inj (hshort.symm.trans hlong)
  | none => simp [← Script.scriptHash32?_eq_some]

/-- The kinds that name keys or hashes, each told by the bytes of a script. -/
structure Exact (flags : Flags) (s : Script) : Prop where
  publicKey (key : Bytes) : solution flags s = (.publicKey, [key]) ↔
    PublicKey.hasAnnouncedLength key = true ∧ s.bytes = directPush key ++ [Opcode.checkSig]
  publicKeyHash (hash : Bytes) : solution flags s = (.publicKeyHash, [hash]) ↔
    hash.length = 20 ∧ s.bytes =
      [Opcode.dup, Opcode.hash160] ++ directPush hash ++ [Opcode.equalVerify, Opcode.checkSig]
  scriptHash (hash : Bytes) : solution flags s = (.scriptHash, [hash]) ↔
    hash.length = 20 ∧ s.bytes = Opcode.hash160 :: (directPush hash ++ [Opcode.equal]) ∨
      flags.has .p2sh32 = true ∧ hash.length = 32 ∧
        s.bytes = Opcode.hash256 :: (directPush hash ++ [Opcode.equal])
  multisig (m n : UInt8) (keys : List Bytes) :
    solution flags s = (.multisig, [m] :: (keys ++ [[n]])) ↔
      1 ≤ m.toNat ∧ m.toNat ≤ n.toNat ∧ n.toNat ≤ 16 ∧ keys.length = n.toNat ∧
        (∀ key ∈ keys, PublicKey.hasAnnouncedLength key = true) ∧
        s.bytes = (80 + m) :: (keys.flatMap directPush ++ [80 + n, Opcode.checkMultisig])

/-- An item of the length of a hash is one. -/
theorem exists_bytes_eq_iff {n : Nat} (P : Bytes → Prop) :
    (∃ hash : FixedBytes n, P hash.bytes ∧ hash.bytes = item) ↔ item.length = n ∧ P item := by
  constructor
  · rintro ⟨hash, hp, rfl⟩
    exact ⟨hash.length_bytes, hp⟩
  · rintro ⟨hl, hp⟩
    exact ⟨⟨item, hl⟩, hp, rfl⟩

/-- The length of the hash is left open here, since both lengths are looked for. -/
theorem exists_scriptHash_iff :
    (∃ id, ofScript flags s = .scriptHash id ∧ id.bytes = item) ↔
      (∃ hash : FixedBytes 20, s = Script.payTo (.script (.short hash)) ∧ hash.bytes = item) ∨
        ∃ hash : FixedBytes 32, (flags.has .p2sh32 = true ∧
          s = Script.payTo (.script (.long hash))) ∧ hash.bytes = item := by
  constructor
  · rintro ⟨hash | hash, h, rfl⟩
    · exact .inl ⟨hash, ofScript_eq_shortHash_iff.mp h, rfl⟩
    · exact .inr ⟨hash, ofScript_eq_longHash_iff.mp h, rfl⟩
  · rintro (⟨hash, h, rfl⟩ | ⟨hash, h, rfl⟩)
    · exact ⟨.short hash, ofScript_eq_shortHash_iff.mpr h, rfl⟩
    · exact ⟨.long hash, ofScript_eq_longHash_iff.mpr h, rfl⟩

theorem toNat_ofNat_of_le_sixteen {n : Nat} (h : n ≤ 16) : (UInt8.ofNat n).toNat = n :=
  UInt8.toNat_ofNat_of_lt' (Nat.lt_of_le_of_lt h (by decide))

theorem ofNat_add_toNat (k : UInt8) : UInt8.ofNat (80 + k.toNat) = 80 + k := by
  rw [UInt8.ofNat_add, UInt8.ofNat_toNat]
  rfl

theorem exact_ofScript (flags : Flags) (s : Script) : Exact flags s where
  publicKey key := by
    rw [solution, eq_publicKey_iff, ofScript_eq_publicKey_iff, isPublicKey_iff_bytes]
  publicKeyHash hash := by
    rw [solution, eq_publicKeyHash_iff, ← exists_bytes_eq_iff fun hash => s.bytes =
      [Opcode.dup, Opcode.hash160] ++ directPush hash ++ [Opcode.equalVerify, Opcode.checkSig]]
    simp only [ofScript_eq_publicKeyHash_iff, isPayToKeyHash_iff_bytes]
  scriptHash hash := by
    rw [solution, eq_scriptHash_iff, exists_scriptHash_iff, @and_left_comm (flags.has .p2sh32 = true),
      ← exists_bytes_eq_iff fun hash => s.bytes = Opcode.hash160 :: (directPush hash ++ [Opcode.equal]),
      ← exists_bytes_eq_iff fun hash => flags.has .p2sh32 = true ∧
        s.bytes = Opcode.hash256 :: (directPush hash ++ [Opcode.equal])]
    simp only [isPayToShortHash_iff_bytes, isPayToLongHash_iff_bytes]
  multisig m n keys := by
    rw [solution, eq_multisig_iff]
    constructor
    · rintro ⟨required, h, rfl, rfl⟩
      obtain ⟨h1, h2, h3, hkeys, hs⟩ := isMultisig_iff_bytes.mp (ofScript_eq_multisig_iff.mp h)
      have hm : (UInt8.ofNat required).toNat = required :=
        toNat_ofNat_of_le_sixteen (Nat.le_trans h2 h3)
      have hn : (UInt8.ofNat keys.length).toNat = keys.length := toNat_ofNat_of_le_sixteen h3
      rw [← ofNat_add_toNat, ← ofNat_add_toNat, hm, hn]
      exact ⟨h1, h2, h3, rfl, hkeys, hs⟩
    · rintro ⟨h1, h2, h3, hl, hkeys, hs⟩
      rw [← ofNat_add_toNat, ← ofNat_add_toNat, ← hl] at hs
      have hmultisig : IsMultisig s m.toNat keys :=
        isMultisig_iff_bytes.mpr ⟨h1, hl ▸ h2, hl ▸ h3, hkeys, hs⟩
      refine ⟨m.toNat, ofScript_eq_multisig_iff.mpr hmultisig, UInt8.ofNat_toNat, ?_⟩
      rw [hl, UInt8.ofNat_toNat]

theorem pushNumber_eq {n : Nat} (h0 : 0 < n) (h : n ≤ 16) (s : Script) :
    s.pushNumber n = s.append [UInt8.ofNat (80 + n)] := by
  rw [Script.pushNumber, Script.numberBytes, Opcode.ofSmallNumber?_ofNat h0 h]

theorem announced_of_mem_map {C : Curve} {keys : List (PublicKey C)} :
    ∀ key ∈ keys.map PublicKey.bytes, PublicKey.hasAnnouncedLength key = true := by
  intro key hkey
  obtain ⟨k, -, rfl⟩ := List.mem_map.mp hkey
  exact k.announced_bytes

/-- Between one and all of up to 16 keys may be asked for, and nothing else is built. -/
theorem payToMultisig_eq_ok {required : Nat} {keys : List (PublicKey secp256k1)} :
    Script.payToMultisig required keys = .ok s ↔ IsMultisig s required (keys.map PublicKey.bytes) := by
  have hannounced : ∀ key ∈ keys.map PublicKey.bytes, PublicKey.hasAnnouncedLength key = true :=
    announced_of_mem_map
  have hlength : ∀ key ∈ keys.map PublicKey.bytes, key.length ≤ 0xffffffff := fun key hkey =>
    Nat.le_trans (PublicKey.length_le_of_announced (hannounced key hkey)) (by decide)
  by_cases hcounts : required = 0 ∨ keys.length < required ∨ 16 < keys.length
  · rw [Script.payToMultisig, if_pos hcounts]
    constructor
    · intro h
      cases h
    · intro h
      have hpos := h.required_pos
      have hle := h.required_le
      have hkeys := h.keys_le
      rw [List.length_map] at hle hkeys
      omega
  · obtain ⟨h1, h2, h3⟩ : 0 < required ∧ required ≤ keys.length ∧ keys.length ≤ 16 := by omega
    have hpushes : (Script.ofPushes (keys.map PublicKey.bytes)).bytes =
        (keys.map PublicKey.bytes).flatMap directPush := flatMap_pushing hannounced
    have hbuilt : Script.payToMultisig required keys = .ok ⟨UInt8.ofNat (80 + required) ::
        ((keys.map PublicKey.bytes).flatMap directPush ++
          [UInt8.ofNat (80 + keys.length), Opcode.checkMultisig])⟩ := by
      rw [Script.payToMultisig, if_neg hcounts, pushNumber_eq h1 (Nat.le_trans h2 h3),
        Script.pushAll_eq hlength]
      dsimp only [bind, Except.bind, pure, Except.pure]
      rw [pushNumber_eq (Nat.lt_of_lt_of_le h1 h2) h3, hpushes]
      simp [Script.append, Script.empty]
    rw [hbuilt, isMultisig_iff_bytes, List.length_map]
    constructor
    · intro h
      cases h
      exact ⟨h1, h2, h3, hannounced, rfl⟩
    · rintro ⟨-, -, -, -, hs⟩
      exact congrArg Except.ok (Script.eq_iff_bytes.mpr hs.symm)

/-- What scripts that are built for keys and hashes are solved with. -/
structure Recovers (flags : Flags) : Prop where
  payTo_key (hash : FixedBytes 20) :
    solution flags (Script.payTo (.key hash)) = (.publicKeyHash, [hash.bytes])
  payTo_shortHash (hash : FixedBytes 20) :
    solution flags (Script.payTo (.script (.short hash))) = (.scriptHash, [hash.bytes])
  payTo_longHash (hash : FixedBytes 32) :
    solution flags (Script.payTo (.script (.long hash))) = (.scriptHash, [hash.bytes]) ↔
      flags.has .p2sh32 = true
  payToKey (key : PublicKey secp256k1) :
    solution flags (Script.payToKey key) = (.publicKey, [key.bytes])
  payToMultisig (required : Nat) (keys : List (PublicKey secp256k1)) :
    (∃ s, Script.payToMultisig required keys = .ok s ∧ solution flags s = (.multisig,
      [UInt8.ofNat required] :: (keys.map PublicKey.bytes ++ [[UInt8.ofNat keys.length]]))) ↔
      1 ≤ required ∧ required ≤ keys.length ∧ keys.length ≤ 16

theorem recovers (flags : Flags) : Recovers flags where
  payTo_key hash := by
    rw [solution, recognized_payTo_key]
    rfl
  payTo_shortHash hash := by
    rw [solution, recognized_payTo_script]
    rfl
  payTo_longHash hash := by
    rw [solution, eq_scriptHash_iff]
    constructor
    · rintro ⟨id, h, -⟩
      cases id with
      | short found => cases Script.payTo_script_inj (ofScript_eq_shortHash_iff.mp h)
      | long found => exact (ofScript_eq_longHash_iff.mp h).1
    · exact fun h => ⟨.long hash, ofScript_eq_longHash_iff.mpr ⟨h, rfl⟩, rfl⟩
  payToKey key := ((exact_ofScript flags _).publicKey _).mpr ⟨key.announced_bytes, rfl⟩
  payToMultisig required keys := by
    constructor
    · rintro ⟨s, hs, -⟩
      obtain ⟨-, h1, h2, h3, -⟩ := payToMultisig_eq_ok.mp hs
      rw [List.length_map] at h2 h3
      exact ⟨h1, h2, h3⟩
    · rintro ⟨h1, h2, h3⟩
      have hs : IsMultisig (Script.ofOperations (multisigPushes required (keys.map PublicKey.bytes) ++
          [⟨Opcode.checkMultisig, []⟩])) required (keys.map PublicKey.bytes) := by
        refine ⟨announced_of_mem_map, h1, ?_, ?_, rfl⟩
        all_goals rwa [List.length_map]
      refine ⟨_, payToMultisig_eq_ok.mpr hs, ?_⟩
      rw [solution, hs.recognized, parameters, List.length_map]
      rfl

end Template

end CoinScript
