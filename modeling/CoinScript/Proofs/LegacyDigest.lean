import CoinScript.Proofs.Removal
import CoinScript.Transaction.Digest

namespace CoinScript

open Wire (Field)

/-- The operations of a script other than separators, and its tail. -/
def Script.unseparated (s : Script) : Script :=
  ⟨(s.operations.filter (·.code != Opcode.codeSeparator)).flatMap Operation.bytes ++ s.tail⟩

namespace Transaction

/-- Every input loses its script, and the one at a place gets another. -/
def withOnlyUnlocking (tx : Transaction) (n : Nat) (unlocking : Script) : Transaction :=
  { tx with inputs := tx.inputs.mapIdx fun place i =>
      { i with unlocking := if place = n then unlocking else .empty } }

/-- Every input but the one at a place loses its sequence. -/
def withOnlySequence (tx : Transaction) (n : Nat) : Transaction :=
  { tx with inputs := tx.inputs.mapIdx fun place i =>
      { i with sequence := if place = n then i.sequence else 0 } }

def withOnlyInput (tx : Transaction) (n : Nat) : Transaction :=
  { tx with inputs := tx.inputs[n]?.toList }

def withoutOutputs (tx : Transaction) : Transaction := { tx with outputs := [] }

/-- The outputs end with the one at a place, and those before it are blank. -/
def withSingleOutput (tx : Transaction) (n : Nat) : Transaction :=
  { tx with outputs := (tx.outputs.take (n + 1)).mapIdx fun place o =>
      if place < n then ⟨-1, .empty⟩ else o }

/-- The copy of a transaction that a signature of the input at a place covers. -/
def signedCopy (tx : Transaction) (n : Nat) (code : Script) (t : HashType) : Transaction :=
  let copy := tx.withOnlyUnlocking n code.unseparated
  let copy :=
    if t.isNone then (copy.withOnlySequence n).withoutOutputs
    else if t.isSingle then (copy.withOnlySequence n).withSingleOutput n
    else copy
  if t.hasAnyoneCanPay then copy.withOnlyInput n else copy

end Transaction

theorem Operation.bytes_eq_separator {op : Operation} :
    op.bytes = [Opcode.codeSeparator] ↔ op.code = Opcode.codeSeparator := by
  constructor
  · intro h
    exact (List.cons.inj h).1
  · intro h
    have hgt : Opcode.pushData4 < op.code := by
      rw [h]
      decide
    have hpush : op.isPush = false := by
      rw [isPush, h]
      rfl
    rw [bytes, lengthBytes, lengthWidth_of_gt hgt, hpush, h]
    rfl

theorem Transaction.withoutSeparators_eq (code : Script) : withoutSeparators code = code.unseparated := by
  have hread : Operation.read? [Opcode.codeSeparator] = some (⟨Opcode.codeSeparator, []⟩, []) := rfl
  have hkept : (fun op : Operation => decide (op.bytes ≠ [Opcode.codeSeparator])) =
      fun op => op.code != Opcode.codeSeparator := by
    funext op
    rw [Bool.eq_iff_iff, decide_eq_true_eq, bne_iff_ne, ne_eq, ne_eq, Operation.bytes_eq_separator]
  rw [withoutSeparators, Script.remove_eq_filter hread, hkept]
  rfl

namespace Transaction

variable {tx : Transaction} {n : Nat} {i : Input} {code : Script} {t : HashType}

/-- An input as the copy has it. -/
def coverInput (n : Nat) (code : Script) (t : HashType) (place : Nat) (i : Input) : Input where
  source := i.source
  unlocking := if place = n then code else .empty
  sequence := if place = n ∨ t.coversOutputs then i.sequence else 0

theorem fields_coverInput (place : Nat) (i : Input) :
    (coverInput n code t place i).fields = coveredInput n code t place i := by
  unfold coveredInput coverInput Input.fields
  split <;> rfl

/-- The outputs of the copy where only one is covered. -/
theorem singleOutputs_eq {o : Output} (ho : tx.outputs[n]? = some o) :
    (tx.withSingleOutput n).outputs = List.replicate n ⟨-1, .empty⟩ ++ [o] := by
  have hn : n < tx.outputs.length := (List.getElem?_eq_some_iff.mp ho).1
  have hlength : (tx.outputs.take n).length = n := by
    rw [List.length_take]
    omega
  have hblank : (tx.outputs.take n).mapIdx (fun place o => if place < n then ⟨-1, .empty⟩ else o) =
      List.replicate n (⟨-1, .empty⟩ : Output) := by
    calc _ = List.replicate (tx.outputs.take n).length (⟨-1, .empty⟩ : Output) :=
          List.mapIdx_eq_replicate_iff.mpr fun place hplace => if_pos (by omega)
      _ = _ := by rw [hlength]
  unfold withSingleOutput
  dsimp only
  rw [List.take_add_one, ho, Option.toList_some, List.mapIdx_append, hblank, hlength]
  simp

theorem onlyUnlocking_inputs (h : t.coversOutputs = true) :
    (tx.withOnlyUnlocking n code).inputs = tx.inputs.mapIdx (coverInput n code t) := by
  refine List.mapIdx_eq_mapIdx_iff.mpr fun place hplace => ?_
  rw [coverInput, if_pos (Or.inr h)]

theorem onlySequence_inputs (h : t.coversOutputs = false) :
    ((tx.withOnlyUnlocking n code).withOnlySequence n).inputs =
      tx.inputs.mapIdx (coverInput n code t) := by
  unfold withOnlySequence withOnlyUnlocking
  dsimp only
  rw [List.mapIdx_mapIdx]
  refine List.mapIdx_eq_mapIdx_iff.mpr fun place hplace => ?_
  simp only [coverInput, h, Bool.false_eq_true, or_false, Function.comp_apply]

theorem signedCopy_inputs :
    (tx.signedCopy n code t).inputs =
      if t.hasAnyoneCanPay then (tx.inputs[n]?.map (coverInput n code.unseparated t n)).toList
      else tx.inputs.mapIdx (coverInput n code.unseparated t) := by
  -- keeping one input comes last, so it is enough to know the inputs before it
  have hall (copy : Transaction)
      (hcopy : copy.inputs = tx.inputs.mapIdx (coverInput n code.unseparated t)) :
      (if t.hasAnyoneCanPay then copy.withOnlyInput n else copy).inputs =
        if t.hasAnyoneCanPay then (tx.inputs[n]?.map (coverInput n code.unseparated t n)).toList
        else tx.inputs.mapIdx (coverInput n code.unseparated t) := by
    split
    · rw [withOnlyInput, hcopy, List.getElem?_mapIdx]
    · exact hcopy
  refine hall _ ?_
  split
  · next hnone => exact onlySequence_inputs (by rw [HashType.coversOutputs, hnone]; rfl)
  · next hnone =>
    split
    · next hsingle =>
      exact onlySequence_inputs (by rw [HashType.coversOutputs, hsingle, Bool.not_true, Bool.and_false])
    · next hsingle =>
      rw [Bool.not_eq_true] at hnone hsingle
      exact onlyUnlocking_inputs (by rw [HashType.coversOutputs, hnone, hsingle]; rfl)

theorem signedCopy_kept (tx : Transaction) (n : Nat) (code : Script) (t : HashType) :
    (tx.signedCopy n code t).version = tx.version ∧
      (tx.signedCopy n code t).lockTime = tx.lockTime ∧
      (tx.signedCopy n code t).outputs =
        if t.isNone then [] else if t.isSingle then (tx.withSingleOutput n).outputs
        else tx.outputs := by
  unfold signedCopy
  cases t.hasAnyoneCanPay <;> cases t.isNone <;> cases t.isSingle <;> exact ⟨rfl, rfl, rfl⟩

theorem coveredInputs_eq (hi : tx.inputs[n]? = some i) :
    tx.coveredInputs n i code.unseparated t =
      count (tx.signedCopy n code t).inputs :: (tx.signedCopy n code t).inputs.flatMap Input.fields := by
  rw [signedCopy_inputs, coveredInputs]
  split
  · rw [hi, Option.map_some, Option.toList_some, List.flatMap_singleton, fields_coverInput]
    rfl
  · rw [count, count, List.length_mapIdx, List.flatMap_def, List.mapIdx_eq_zipIdx_map,
      List.mapIdx_eq_zipIdx_map, List.map_map]
    congr 2
    exact List.map_congr_left fun found _ => (fields_coverInput found.2 found.1).symm

theorem coveredOutputs_eq (code : Script) (h : t.isSingle = true → n < tx.outputs.length) :
    tx.coveredOutputs n t =
      count (tx.signedCopy n code t).outputs ::
        (tx.signedCopy n code t).outputs.flatMap Output.fields := by
  rw [(signedCopy_kept tx n code t).2.2, coveredOutputs]
  split
  · rfl
  · split
    · next hs =>
      have ho := List.getElem?_eq_getElem (h hs)
      rw [singleOutputs_eq ho, ho, List.flatMap_append, List.flatMap_singleton, count,
        List.length_append, List.length_replicate]
      rfl
    · rfl

/-- The older digest is that of the edited copy with the hash type behind it; an input that does not
exist, or has no output of its own where only that is covered, has the digest one. -/
theorem legacyDigest_eq_signedCopy (tx : Transaction) (n : Nat) (code : Script) (t : HashType) :
    tx.legacyDigest n code t =
      if tx.inputs.length ≤ n ∨ (t.isSingle = true ∧ tx.outputs.length ≤ n) then one
      else Hash.hash256 ((tx.signedCopy n code t).bytes ++ Bytes.ofNatLE 4 t.raw.toNat) := by
  unfold legacyDigest
  cases hi : tx.inputs[n]? with
  | none =>
    rw [if_pos (.inl (List.getElem?_eq_none_iff.mp hi))]
  | some i =>
    have hn : ¬ tx.inputs.length ≤ n := Nat.not_le.mpr (List.getElem?_eq_some_iff.mp hi).1
    dsimp only
    by_cases hs : t.isSingle = true ∧ tx.outputs.length ≤ n
    · rw [if_pos hs, if_pos (.inr hs)]
    · have hout : t.isSingle = true → n < tx.outputs.length := by
        intro h
        exact Nat.not_le.mp fun hle => hs ⟨h, hle⟩
      rw [if_neg hs, if_neg (by simp only [hn, hs, or_self, not_false_eq_true]), withoutSeparators_eq,
        coveredInputs_eq hi, coveredOutputs_eq code hout]
      have hfields : [Field.int32 tx.version] ++
          (count (tx.signedCopy n code t).inputs ::
            (tx.signedCopy n code t).inputs.flatMap Input.fields) ++
          (count (tx.signedCopy n code t).outputs ::
            (tx.signedCopy n code t).outputs.flatMap Output.fields) ++
          [.uint32 tx.lockTime, .uint32 t.raw] =
          (tx.signedCopy n code t).fields ++ [.uint32 t.raw] := by
        obtain ⟨hversion, hlock, -⟩ := signedCopy_kept tx n code t
        rw [fields, hversion, hlock]
        simp only [List.append_assoc, List.cons_append, List.nil_append]
      rw [hfields, hashFields, Field.encodeAll, List.flatMap_append, List.flatMap_singleton]
      rfl

/-- The number one is written with its lowest byte first. -/
example : ({} : Transaction).legacyDigest 0 .empty .all = ⟨1 :: List.replicate 31 0, rfl⟩ := rfl

end Transaction

end CoinScript
