import CoinScript.Proofs.TemplateItems
import CoinScript.Template.Build
import CoinScript.Wallet.Signer

namespace CoinScript

theorem ScriptId.ofBytes?_bytes (id : ScriptId) : ofBytes? id.bytes = some id := by
  cases id with
  | short hash =>
    rw [ofBytes?, bytes, FixedBytes.ofBytes?_bytes]
    rfl
  | long hash =>
    have hshort : (FixedBytes.ofBytes? hash.bytes : Option (FixedBytes 20)) = none :=
      dif_neg (by rw [hash.length_bytes]; decide)
    rw [ofBytes?, bytes, hshort, FixedBytes.ofBytes?_bytes]
    rfl

namespace Template

/-- The items from one place up to another, where both are places and in this order. -/
def slice? (items : List Bytes) (first last : Nat) : Option (List Bytes) :=
  if first ≤ last ∧ last ≤ items.length then some ((items.take last).drop first) else none

/-- Who is named by the items; there is no answer where a place lies beyond them. -/
def destinationByPlaces? (kind : Kind) (items : List Bytes) : Option (Option Destination) :=
  match kind with
  | .publicKey => items[0]?.map Destination.ofKey?
  | .frozen => items[1]?.map Destination.ofKey?
  | .publicKeyHash => items[0]?.map fun item => (FixedBytes.ofBytes? item).map .key
  | .scriptHash => items[0]?.map fun item => (ScriptId.ofBytes? item).map .script
  | .nonStandard | .multisig | .label | .data => some none

/-- Everyone who is named by the items, and how many of them have to sign. -/
def destinationsByPlaces? (kind : Kind) (items : List Bytes) :
    Option (Option (List Destination × Nat)) :=
  match kind with
  | .nonStandard | .data => some none
  | .multisig => do
    let required ← (← items[0]?)[0]?
    let keys ← slice? items 1 (items.length - 1)
    return match keys.filterMap Destination.ofKey? with
      | [] => none
      | found => some (found, required.toNat)
  | .publicKey | .publicKeyHash | .scriptHash | .frozen | .label =>
    (destinationByPlaces? kind items).map (·.map fun d => ([d], 1))

end Template

namespace Signer

/-- Signatures by the keys between the first item and the last. Without a number of signatures no
key is looked for. -/
def addSignaturesByPlaces? (signer : Signer) (code : Script) (items : List Bytes) (s : Script) :
    Option (Except ScriptFault Attempt) :=
  match items.head?.bind List.head? with
  | none => some (.ok ⟨s, false⟩)
  | some required =>
    (Template.slice? items 1 (items.length - 1)).map fun keys =>
      signer.addSignatures code required.toNat keys s

/-- What the items ask for. An item that should be the hash of a key and has another length counts as
the hash of zeros. -/
def attemptByPlaces? (signer : Signer) (code : Script) (kind : Template.Kind) (items : List Bytes) :
    Option (Except ScriptFault Attempt) :=
  match kind with
  | .publicKey => items[0]?.map fun key => signer.addSignature code (Hash.hash160 key) .empty
  | .frozen => items[1]?.map fun key => signer.addSignature code (Hash.hash160 key) .empty
  | .publicKeyHash => items[0]?.map fun item =>
    signer.attempt code (.publicKeyHash ((FixedBytes.ofBytes? item).getD (.zero 20)))
  | .scriptHash => items[0]?.map fun item =>
    match ScriptId.ofBytes? item with
    | some id => signer.attempt code (.scriptHash id)
    | none => .ok ⟨.empty, false⟩
  | .multisig => signer.addSignaturesByPlaces? code items ⟨[Opcode.zero]⟩
  | .nonStandard | .label | .data => some (.ok ⟨.empty, false⟩)

end Signer

namespace Template

variable {flags : Flags} {s : Script} {t : Template}

theorem slice?_between (first last : Bytes) (keys : List Bytes) :
    slice? (first :: (keys ++ [last])) 1 ((first :: (keys ++ [last])).length - 1) = some keys := by
  have hlength : (first :: (keys ++ [last])).length - 1 = keys.length + 1 := by simp
  rw [hlength, slice?, if_pos ⟨by omega, by simp⟩, List.take_succ_cons, List.take_left' rfl,
    List.drop_succ_cons, List.drop_zero]

/-- A number of signatures fits in a byte, as it is at most 16. -/
def Fits : Template → Prop
  | .multisig required _ => (UInt8.ofNat required).toNat = required
  | _ => True

theorem fits_ofScript (flags : Flags) (s : Script) : (ofScript flags s).Fits := by
  cases h : ofScript flags s with
  | multisig required keys => exact toNat_ofNat_of_le_sixteen (multisig_shape h).required_le_sixteen
  | _ => trivial

theorem destinationByPlaces?_parameters (t : Template) :
    destinationByPlaces? t.kind t.parameters = some t.destination? := by
  cases t with
  | publicKeyHash hash =>
    change some ((FixedBytes.ofBytes? hash.bytes).map Destination.key) = _
    rw [FixedBytes.ofBytes?_bytes]
    rfl
  | scriptHash id =>
    change some ((ScriptId.ofBytes? id.bytes).map Destination.script) = _
    rw [ScriptId.ofBytes?_bytes]
    rfl
  | _ => rfl

theorem destinationsByPlaces?_parameters (h : t.Fits) :
    destinationsByPlaces? t.kind t.parameters = some t.destinations? := by
  have hone := destinationByPlaces?_parameters t
  cases t with
  | multisig required keys =>
    have hrequired : (UInt8.ofNat required).toNat = required := h
    simp only [kind, parameters, destinationsByPlaces?, slice?_between, List.getElem?_cons_zero,
      Option.bind_eq_bind, Option.bind_some, hrequired]
    rfl
  | nonStandard => rfl
  | data => rfl
  | _ => exact congrArg (Option.map (Option.map fun d => ([d], 1))) hone

end Template

theorem Signer.attemptByPlaces?_parameters (signer : Signer) (code : Script) {t : Template}
    (h : t.Fits) : signer.attemptByPlaces? code t.kind t.parameters = some (signer.attempt code t) := by
  cases t with
  | publicKeyHash hash =>
    change some (signer.attempt code (.publicKeyHash ((FixedBytes.ofBytes? hash.bytes).getD _))) = _
    rw [FixedBytes.ofBytes?_bytes]
    rfl
  | scriptHash id =>
    simp only [Template.kind, Template.parameters, attemptByPlaces?, List.getElem?_cons_zero,
      Option.map_some, ScriptId.ofBytes?_bytes]
  | multisig required keys =>
    have hrequired : (UInt8.ofNat required).toNat = required := h
    simp only [Template.kind, Template.parameters, attemptByPlaces?, addSignaturesByPlaces?,
      Template.slice?_between, List.head?_cons, Option.bind_some, Option.map_some, hrequired]
    rfl
  | _ => rfl

namespace Template

/-- Whoever reads the items of a script by their places finds all of them, and finds the parameters. -/
structure ReadByPlaces (flags : Flags) (s : Script) : Prop where
  destination : destinationByPlaces? (solution flags s).1 (solution flags s).2 =
    some (ofScript flags s).destination?
  destinations : destinationsByPlaces? (solution flags s).1 (solution flags s).2 =
    some (ofScript flags s).destinations?
  attempt (signer : Signer) (code : Script) :
    signer.attemptByPlaces? code (solution flags s).1 (solution flags s).2 =
      some (signer.attempt code (ofScript flags s))

theorem readByPlaces (flags : Flags) (s : Script) : ReadByPlaces flags s where
  destination := destinationByPlaces?_parameters _
  destinations := destinationsByPlaces?_parameters (fits_ofScript flags s)
  attempt signer code := signer.attemptByPlaces?_parameters code (fits_ofScript flags s)

/-- The templates of keys and hashes are recognized exactly, what is built for keys and hashes gives
them back, and no reader of the items looks beyond them. -/
theorem key_and_hash_templates_solved (flags : Flags) (s : Script) :
    Exact flags s ∧ Recovers flags ∧ ReadByPlaces flags s :=
  ⟨exact_ofScript flags s, recovers flags, readByPlaces flags s⟩

end Template

end CoinScript
