import CoinScript.Proofs.TransactionReading
import CoinScript.Transaction.Digest
import Mathlib.Data.List.ReduceOption

namespace CoinScript

open Wire (Field Reader)

/-- The count and what it counts grow together, so the length of the whole tells the count. -/
theorem Wire.CompactSize.sized_inj {bs bs' : Bytes} (h : sized bs = sized bs') : bs = bs' := by
  have hwhole := congrArg List.length h
  have hlength : bs.length = bs'.length := by
    simp only [sized, List.length_append, length_encode, width] at hwhole
    split_ifs at hwhole <;> omega
  exact (List.append_inj h (by rw [length_encode, length_encode, hlength])).2

theorem Wire.Reader.outpoint_takes (o : Outpoint) :
    Takes (do return (⟨← take 32, ← uint32⟩ : Outpoint)) (Field.encodeAll o.fields) o :=
  (take_takes o.txid).bind ((uint32_takes o.index).bind (.pure o))

/-- What is hashed for a signature, with hashes in place of the parts that are hashed on their own. -/
structure Preimage where
  version : Int32
  sources : FixedBytes 32
  sequences : FixedBytes 32
  source : Outpoint
  code : Script
  amount : Int64
  sequence : UInt32
  outputs : FixedBytes 32
  lockTime : UInt32
  hashType : HashType

namespace Preimage

def bytes (p : Preimage) : Bytes :=
  Field.encodeAll
    [.int32 p.version, .raw p.sources.bytes, .raw p.sequences.bytes, .raw p.source.txid.bytes,
      .uint32 p.source.index, .sized p.code.bytes, .int64 p.amount, .uint32 p.sequence,
      .raw p.outputs.bytes, .uint32 p.lockTime, .uint32 p.hashType.raw]

/-- The written form tells the record: its fields are taken off the front one by one. -/
theorem bytes_inj {p q : Preimage} (h : p.bytes = q.bytes) : p = q := by
  simp only [bytes, Field.encodeAll_cons, Field.encodeAll_nil, Field.encode] at h
  obtain ⟨hversion, h⟩ := (Reader.uint32_takes p.version.toUInt32).inj (Reader.uint32_takes _) h
  obtain ⟨hsources, h⟩ := (Reader.take_takes p.sources).inj (Reader.take_takes q.sources) h
  obtain ⟨hsequences, h⟩ := (Reader.take_takes p.sequences).inj (Reader.take_takes q.sequences) h
  obtain ⟨htxid, h⟩ := (Reader.take_takes p.source.txid).inj (Reader.take_takes q.source.txid) h
  obtain ⟨hindex, h⟩ := (Reader.uint32_takes p.source.index).inj (Reader.uint32_takes _) h
  -- only the code has no fixed width, and what follows it is as long in both
  obtain ⟨hcode, h⟩ := List.append_inj' h (by simp)
  obtain ⟨hamount, h⟩ := (Reader.uint64_takes p.amount.toUInt64).inj (Reader.uint64_takes _) h
  obtain ⟨hsequence, h⟩ := (Reader.uint32_takes p.sequence).inj (Reader.uint32_takes _) h
  obtain ⟨houtputs, h⟩ := (Reader.take_takes p.outputs).inj (Reader.take_takes q.outputs) h
  obtain ⟨hlock, h⟩ := (Reader.uint32_takes p.lockTime).inj (Reader.uint32_takes _) h
  obtain ⟨htype, -⟩ := (Reader.uint32_takes p.hashType.raw).inj (Reader.uint32_takes _) h
  have hversion : p.version = q.version := congrArg UInt32.toInt32 hversion
  have hamount : p.amount = q.amount := congrArg UInt64.toInt64 hamount
  have hsource : p.source = q.source := by
    calc p.source = ⟨p.source.txid, p.source.index⟩ := rfl
      _ = q.source := by rw [htxid, hindex]
  have hcode : p.code = q.code := congrArg Script.mk (Wire.CompactSize.sized_inj hcode)
  have htype : p.hashType = q.hashType := congrArg HashType.mk htype
  cases p
  cases q
  rw [mk.injEq]
  exact ⟨hversion, hsources, hsequences, hsource, hcode, hamount, hsequence, houtputs, hlock, htype⟩

end Preimage

/-- An input of a transaction that is signed: the code it runs, the hash type, and the amount that
it spends. -/
structure SignedInput where
  tx : Transaction
  place : Nat
  exists_input : place < tx.inputs.length
  code : Script
  hashType : HashType
  amount : Int64

namespace SignedInput

variable {a b : SignedInput}

def input (a : SignedInput) : Input := a.tx.inputs.get ⟨a.place, a.exists_input⟩

def preimage (a : SignedInput) : Except DigestFault Bytes :=
  a.tx.preimage a.place a.code a.hashType a.amount

/-- The bytes hashed for the sources of all inputs. -/
def sourceStream? (a : SignedInput) : Option Bytes :=
  if a.hashType.hasAnyoneCanPay then none
  else some ((a.tx.inputs.map Input.source).flatMap fun o => Field.encodeAll o.fields)

/-- The bytes hashed for the sequences of all inputs. -/
def sequenceStream? (a : SignedInput) : Option Bytes :=
  if a.hashType.hasAnyoneCanPay || !a.hashType.coversOutputs then none
  else some ((a.tx.inputs.map Input.sequence).flatMap fun n => (Field.uint32 n).encode)

/-- The bytes hashed for all outputs, or for a single one. -/
def outputStream? (a : SignedInput) : Option Bytes :=
  if a.hashType.coversOutputs then some (a.tx.outputs.flatMap Output.bytes)
  else if a.hashType.isSingle then a.tx.outputs[a.place]?.map Output.bytes
  else none

def streams? (a : SignedInput) : List (Option Bytes) :=
  [a.sourceStream?, a.sequenceStream?, a.outputStream?]

/-- All that is hashed on its own. -/
def streams (a : SignedInput) : List Bytes := a.streams?.reduceOption

/-- A part left out has zero for its hash. -/
def streamHash : Option Bytes → FixedBytes 32
  | none => .zero 32
  | some stream => Hash.hash256 stream

/-- What two signed inputs have in common where their signatures cover the same. -/
structure Agrees (a b : SignedInput) : Prop where
  version : a.tx.version = b.tx.version
  lockTime : a.tx.lockTime = b.tx.lockTime
  source : a.input.source = b.input.source
  sequence : a.input.sequence = b.input.sequence
  code : a.code = b.code
  amount : a.amount = b.amount
  hashType : a.hashType = b.hashType
  sources : a.hashType.hasAnyoneCanPay = false →
    a.tx.inputs.map Input.source = b.tx.inputs.map Input.source
  sequences : a.hashType.hasAnyoneCanPay = false → a.hashType.coversOutputs = true →
    a.tx.inputs.map Input.sequence = b.tx.inputs.map Input.sequence
  outputs : a.hashType.coversOutputs = true → a.tx.outputs = b.tx.outputs
  singleOutput : a.hashType.isSingle = true → a.tx.outputs[a.place]? = b.tx.outputs[b.place]?

/-- Different parts hashed on their own have one hash, or one of them has the hash zero. -/
def Collides (a b : SignedInput) : Prop :=
  (∃ s ∈ a.streams, ∃ s' ∈ b.streams, s ≠ s' ∧ Hash.hash256 s = Hash.hash256 s') ∨
    ∃ s ∈ a.streams ++ b.streams, Hash.hash256 s = .zero 32

def record (a : SignedInput) : Preimage where
  version := a.tx.version
  sources := streamHash a.sourceStream?
  sequences := streamHash a.sequenceStream?
  source := a.input.source
  code := a.code
  amount := a.amount
  sequence := a.input.sequence
  outputs := streamHash a.outputStream?
  lockTime := a.tx.lockTime
  hashType := a.hashType

theorem sourcesHash_eq (a : SignedInput) :
    a.tx.sourcesHash a.hashType = streamHash a.sourceStream? := by
  unfold Transaction.sourcesHash sourceStream?
  split
  · rfl
  · rw [Transaction.hashFields, Field.encodeAll_flatMap, streamHash, List.flatMap_map]

theorem sequencesHash_eq (a : SignedInput) :
    a.tx.sequencesHash a.hashType = streamHash a.sequenceStream? := by
  unfold Transaction.sequencesHash sequenceStream?
  split
  · rfl
  · rw [Transaction.hashFields, Field.encodeAll, streamHash, List.flatMap_map, List.flatMap_map]

theorem outputsHash_eq (a : SignedInput) :
    a.tx.outputsHash a.place a.hashType = streamHash a.outputStream? := by
  unfold Transaction.outputsHash outputStream?
  split
  · rw [Transaction.hashFields, Field.encodeAll_flatMap]
    rfl
  · split
    · cases a.tx.outputs[a.place]? <;> rfl
    · rfl

theorem preimage_eq (a : SignedInput) : a.preimage = .ok a.record.bytes := by
  have hi : a.tx.inputs[a.place]? = some a.input := List.getElem?_eq_getElem a.exists_input
  unfold preimage Transaction.preimage
  rw [hi]
  dsimp only
  rw [Transaction.preimageFields, sourcesHash_eq, sequencesHash_eq, outputsHash_eq]
  rfl

theorem sourceStream?_eq_iff (ht : a.hashType = b.hashType) :
    a.sourceStream? = b.sourceStream? ↔ (a.hashType.hasAnyoneCanPay = false →
      a.tx.inputs.map Input.source = b.tx.inputs.map Input.source) := by
  have hne (o : Outpoint) : Field.encodeAll o.fields ≠ [] := by
    intro h
    have hlength := congrArg List.length (List.append_eq_nil_iff.mp h).1
    rw [Field.encode, o.txid.length_eq] at hlength
    cases hlength
  unfold sourceStream?
  rw [← ht]
  cases a.hashType.hasAnyoneCanPay with
  | true => exact ⟨fun _ h => (Bool.noConfusion h), fun _ => rfl⟩
  | false =>
    constructor
    · intro h _
      exact Takes.flatMap_inj (fun o _ => Reader.outpoint_takes o) (fun o _ => Reader.outpoint_takes o)
        hne (Option.some.inj h)
    · intro h
      rw [h rfl]

theorem sequenceStream?_eq_iff (ht : a.hashType = b.hashType) :
    a.sequenceStream? = b.sequenceStream? ↔
      (a.hashType.hasAnyoneCanPay = false → a.hashType.coversOutputs = true →
        a.tx.inputs.map Input.sequence = b.tx.inputs.map Input.sequence) := by
  unfold sequenceStream?
  rw [← ht]
  cases a.hashType.hasAnyoneCanPay with
  | true => exact ⟨fun _ h => Bool.noConfusion h, fun _ => rfl⟩
  | false =>
    cases a.hashType.coversOutputs with
    | false => exact ⟨fun _ _ h => Bool.noConfusion h, fun _ => rfl⟩
    | true =>
      constructor
      · intro h _ _
        exact Takes.flatMap_inj (fun n _ => Reader.uint32_takes n) (fun n _ => Reader.uint32_takes n)
          (fun _ => List.cons_ne_nil _ _) (Option.some.inj h)
      · intro h
        rw [h rfl rfl]

theorem Agrees.outputStream?_eq (h : Agrees a b) : a.outputStream? = b.outputStream? := by
  unfold outputStream?
  rw [← h.hashType]
  split
  · next hc => rw [h.outputs hc]
  · split
    · next hs => rw [h.singleOutput hs]
    · rfl

theorem outputs_eq_of_stream (ha : a.tx.Representable) (hb : b.tx.Representable)
    (ht : a.hashType = b.hashType) (h : a.outputStream? = b.outputStream?)
    (hc : a.hashType.coversOutputs = true) : a.tx.outputs = b.tx.outputs := by
  unfold outputStream? at h
  rw [← ht, if_pos hc, if_pos hc] at h
  exact Takes.flatMap_inj (fun o ho => Parser.output_takes (ha.locking o ho))
    (fun o ho => Parser.output_takes (hb.locking o ho)) (fun _ => List.cons_ne_nil _ _)
    (Option.some.inj h)

theorem singleOutput_eq_of_stream (ha : a.tx.Representable) (hb : b.tx.Representable)
    (ht : a.hashType = b.hashType) (h : a.outputStream? = b.outputStream?)
    (hs : a.hashType.isSingle = true) : a.tx.outputs[a.place]? = b.tx.outputs[b.place]? := by
  have hc : ¬ a.hashType.coversOutputs = true := by
    rw [HashType.coversOutputs, hs, Bool.not_true, Bool.and_false]
    exact Bool.false_ne_true
  unfold outputStream? at h
  rw [← ht, if_neg hc, if_neg hc, if_pos hs, if_pos hs] at h
  cases ho : a.tx.outputs[a.place]? with
  | none =>
    rw [ho, Option.map_none] at h
    exact (Option.map_eq_none_iff.mp h.symm).symm
  | some o =>
    rw [ho, Option.map_some] at h
    obtain ⟨o', ho', hbytes⟩ := Option.map_eq_some_iff.mp h.symm
    have htakes := Parser.output_takes (ha.locking o (List.mem_of_getElem? ho))
    have htakes' := Parser.output_takes (hb.locking o' (List.mem_of_getElem? ho'))
    obtain ⟨rfl, -⟩ := htakes.inj htakes' (congrArg (· ++ []) hbytes.symm)
    exact ho'.symm

theorem Agrees.record_eq (h : Agrees a b) : a.record = b.record := by
  have hsources := (sourceStream?_eq_iff h.hashType).mpr h.sources
  have hsequences := (sequenceStream?_eq_iff h.hashType).mpr h.sequences
  unfold record
  rw [h.version, hsources, hsequences, h.source, h.code, h.amount, h.sequence, h.outputStream?_eq,
    h.lockTime, h.hashType]

/-- Where nothing collides, the hash of a part hashed on its own tells the part. -/
theorem streamHash_inj (hclean : ¬ Collides a b) {s s' : Option Bytes} (hs : s ∈ a.streams?)
    (hs' : s' ∈ b.streams?) (h : streamHash s = streamHash s') : s = s' := by
  by_contra hne
  apply hclean
  cases s with
  | none =>
    cases s' with
    | none => exact absurd rfl hne
    | some stream' =>
      exact .inr ⟨stream', List.mem_append_right _ (List.reduceOption_mem_iff.mpr hs'), h.symm⟩
  | some stream =>
    have hmem : stream ∈ a.streams := List.reduceOption_mem_iff.mpr hs
    cases s' with
    | none => exact .inr ⟨stream, List.mem_append_left _ hmem, h⟩
    | some stream' =>
      have hdiffer : stream ≠ stream' := fun he => hne (congrArg some he)
      exact .inl ⟨stream, hmem, stream', List.reduceOption_mem_iff.mpr hs', hdiffer, h⟩

theorem agrees_of_record_eq (ha : a.tx.Representable) (hb : b.tx.Representable)
    (hclean : ¬ Collides a b) (h : a.record = b.record) : Agrees a b := by
  have ht : a.hashType = b.hashType := congrArg Preimage.hashType h
  have hsources : a.sourceStream? = b.sourceStream? :=
    streamHash_inj hclean (.head _) (.head _) (congrArg Preimage.sources h)
  have hsequences : a.sequenceStream? = b.sequenceStream? :=
    streamHash_inj hclean (.tail _ (.head _)) (.tail _ (.head _)) (congrArg Preimage.sequences h)
  have houtputs : a.outputStream? = b.outputStream? :=
    streamHash_inj hclean (.tail _ (.tail _ (.head _))) (.tail _ (.tail _ (.head _)))
      (congrArg Preimage.outputs h)
  exact {
    version := congrArg Preimage.version h
    lockTime := congrArg Preimage.lockTime h
    source := congrArg Preimage.source h
    sequence := congrArg Preimage.sequence h
    code := congrArg Preimage.code h
    amount := congrArg Preimage.amount h
    hashType := ht
    sources := (sourceStream?_eq_iff ht).mp hsources
    sequences := (sequenceStream?_eq_iff ht).mp hsequences
    outputs := outputs_eq_of_stream ha hb ht houtputs
    singleOutput := singleOutput_eq_of_stream ha hb ht houtputs }

/-- Every signed input has a preimage. Signed inputs that agree on what they cover have the same, and
those with the same agree on it, unless parts hashed on their own collide. -/
theorem preimage_covers (a b : SignedInput) :
    (∃ bs, a.preimage = .ok bs) ∧ (Agrees a b → a.preimage = b.preimage) ∧
      (a.tx.Representable → b.tx.Representable → a.preimage = b.preimage →
        Agrees a b ∨ Collides a b) := by
  rw [preimage_eq, preimage_eq]
  refine ⟨⟨_, rfl⟩, fun h => ?_, fun ha hb h => ?_⟩
  · rw [h.record_eq]
  · by_cases hc : Collides a b
    · exact .inr hc
    · exact .inl (agrees_of_record_eq ha hb hc (Preimage.bytes_inj (Except.ok.inj h)))

/-- A signature of the first input and its output covers no script of an input, no sequence of another
input and no other output. -/
theorem preimage_covers_single :
    let tx : Transaction :=
      { inputs := [⟨.null, ⟨[0x51]⟩, 7⟩, ⟨⟨.zero 32, 1⟩, .empty, 8⟩],
        outputs := [⟨5, ⟨[0x6a]⟩⟩, ⟨6, .empty⟩] }
    let tx' : Transaction :=
      { inputs := [⟨.null, .empty, 7⟩, ⟨⟨.zero 32, 1⟩, ⟨[0x52]⟩, 9⟩], outputs := [⟨5, ⟨[0x6a]⟩⟩] }
    let a : SignedInput := ⟨tx, 0, by decide, ⟨[Opcode.checkSig]⟩, ⟨0x43⟩, 100⟩
    let b : SignedInput := ⟨tx', 0, by decide, ⟨[Opcode.checkSig]⟩, ⟨0x43⟩, 100⟩
    tx.Representable ∧ tx'.Representable ∧ a.preimage = b.preimage ∧ (Agrees a b ∨ Collides a b) := by
  intro tx tx' a b
  have ha : tx.Representable := ⟨by decide, by decide, by decide, by decide⟩
  have hb : tx'.Representable := ⟨by decide, by decide, by decide, by decide⟩
  have h : Agrees a b :=
    { version := rfl, lockTime := rfl, source := rfl, sequence := rfl, code := rfl, amount := rfl,
      hashType := rfl, sources := fun _ => rfl, sequences := fun _ hc => absurd hc (by decide),
      outputs := fun hc => absurd hc (by decide), singleOutput := fun _ => rfl }
  obtain ⟨-, hequal, hdiffer⟩ := preimage_covers a b
  exact ⟨ha, hb, hequal h, hdiffer ha hb (hequal h)⟩

end SignedInput

end CoinScript
