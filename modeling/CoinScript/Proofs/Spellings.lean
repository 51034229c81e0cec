import CoinScript.Proofs.TransactionReading

namespace CoinScript

open Wire (Field Reader CompactSize.encode CompactSize.sized)

namespace Wire

namespace CompactSize

/-- A count is spelled by itself, or by a marker and as many bytes as the marker announces. -/
inductive Spells : Nat → Bytes → Prop
  | byte {n : Nat} (h : n < 0xfd) : Spells n (Bytes.ofNatLE 1 n)
  | two {n : Nat} (h : n < 2 ^ 16) : Spells n (0xfd :: Bytes.ofNatLE 2 n)
  | four {n : Nat} (h : n < 2 ^ 32) : Spells n (0xfe :: Bytes.ofNatLE 4 n)
  | eight {n : Nat} (h : n < 2 ^ 64) : Spells n (0xff :: Bytes.ofNatLE 8 n)

variable {n : Nat} {form : Bytes}

theorem Spells.lt (h : Spells n form) : n < 2 ^ 64 := by
  cases h <;> omega

/-- Every spelling but the written one is longer. -/
theorem Spells.shortest (h : Spells n form) :
    form = encode n ∨ (encode n).length < form.length := by
  rw [length_encode]
  unfold encode width
  cases h with
  | byte h => simp [h]
  | two h =>
    by_cases h1 : n < 0xfd
    · simp [h1]
    · simp [h1, show n < 0x10000 from h]
  | four h =>
    by_cases h1 : n < 0xfd
    · simp [h1]
    · by_cases h2 : n < 0x10000
      · simp [h1, h2]
      · simp [h1, h2, show n < 0x100000000 from h]
  | eight h =>
    by_cases h1 : n < 0xfd
    · simp [h1]
    · by_cases h2 : n < 0x10000
      · simp [h1, h2]
      · by_cases h3 : n < 0x100000000
        · simp [h1, h2, h3]
        · simp [h1, h2, h3]

end CompactSize

namespace Field

/-- A field is spelled as it is written, except that its count may be spelled in any way. -/
def Spells : Field → Bytes → Prop
  | .compact n, form => CompactSize.Spells n.toNat form
  | .sized bs, form => ∃ head, CompactSize.Spells bs.length head ∧ form = head ++ bs
  | f, form => form = f.encode

/-- Fields are spelled one after the other. -/
inductive SpellsAll : List Field → Bytes → Prop
  | nil : SpellsAll [] []
  | cons {f : Field} {fs : List Field} {front rest : Bytes} (h : f.Spells front)
      (hs : SpellsAll fs rest) : SpellsAll (f :: fs) (front ++ rest)

variable {f : Field} {fs gs : List Field} {form : Bytes}

theorem Spells.length_lt {bs : Bytes} (h : (Field.sized bs).Spells form) : bs.length < 2 ^ 64 := by
  obtain ⟨head, hhead, -⟩ := h
  exact hhead.lt

theorem SpellsAll.of_mem (h : SpellsAll fs form) (hf : f ∈ fs) : ∃ part, f.Spells part := by
  induction h with
  | nil => cases hf
  | cons h _ ih =>
    rcases List.mem_cons.mp hf with rfl | hf
    · exact ⟨_, h⟩
    · exact ih hf

theorem spellsAll_nil : SpellsAll [] form ↔ form = [] := by
  constructor
  · intro h
    cases h
    rfl
  · rintro rfl
    exact .nil

theorem spellsAll_cons :
    SpellsAll (f :: fs) form ↔
      ∃ front rest, f.Spells front ∧ SpellsAll fs rest ∧ form = front ++ rest := by
  constructor
  · intro h
    cases h with
    | cons h hs => exact ⟨_, _, h, hs, rfl⟩
  · rintro ⟨front, rest, h, hs, rfl⟩
    exact .cons h hs

theorem spellsAll_append :
    SpellsAll (fs ++ gs) form ↔
      ∃ front rest, SpellsAll fs front ∧ SpellsAll gs rest ∧ form = front ++ rest := by
  induction fs generalizing form with
  | nil => simp [spellsAll_nil]
  | cons f fs ih =>
    simp only [List.cons_append, spellsAll_cons, ih]
    constructor
    · rintro ⟨front, _, hf, ⟨mid, rest, hfs, hgs, rfl⟩, rfl⟩
      exact ⟨front ++ mid, rest, ⟨front, mid, hf, hfs, rfl⟩, hgs, (List.append_assoc _ _ _).symm⟩
    · rintro ⟨_, rest, ⟨front, mid, hf, hfs, rfl⟩, hgs, rfl⟩
      exact ⟨front, mid ++ rest, hf, ⟨mid, rest, hfs, hgs, rfl⟩, List.append_assoc _ _ _⟩

theorem Spells.shortest (h : f.Spells form) : form = f.encode ∨ f.encode.length < form.length := by
  cases f with
  | compact n => exact CompactSize.Spells.shortest h
  | sized bs =>
    obtain ⟨head, hhead, rfl⟩ := h
    rcases hhead.shortest with rfl | hlt
    · exact .inl rfl
    · refine .inr ?_
      simp only [encode, CompactSize.sized, List.length_append]
      omega
  | _ => exact .inl h

/-- By induction on the fields: a spelling is as long as the written form only if every field in it
is written. -/
theorem SpellsAll.shortest (h : SpellsAll fs form) :
    form = encodeAll fs ∨ (encodeAll fs).length < form.length := by
  induction h with
  | nil => exact .inl rfl
  | cons h _ ih =>
    rw [encodeAll_cons, List.length_append, List.length_append]
    rcases h.shortest with rfl | hlt
    · rcases ih with rfl | hlt'
      · exact .inl rfl
      · exact .inr (by omega)
    · rcases ih with rfl | hlt'
      · exact .inr (by omega)
      · exact .inr (by omega)

end Field

namespace Reader

variable {k n : Nat} {bs rest form : Bytes}

theorem bytes_ok : bytes n bs = .ok form rest ↔ form.length = n ∧ bs = form ++ rest := by
  simp only [bytes, Effect.bind_ok, take_ok, Effect.pure_ok]
  constructor
  · rintro ⟨w, _, rfl, rfl, rfl⟩
    exact ⟨w.length_bytes, rfl⟩
  · rintro ⟨hl, rfl⟩
    exact ⟨⟨form, hl⟩, rest, rfl, rfl, rfl⟩

theorem nat_ok : nat k bs = .ok n rest ↔ n < 256 ^ k ∧ bs = Bytes.ofNatLE k n ++ rest := by
  constructor
  · intro h
    simp only [nat, Effect.bind_ok, take_ok, Effect.pure_ok] at h
    obtain ⟨w, _, rfl, rfl, rfl⟩ := h
    have hlt := Bytes.toNatLE_lt w.bytes
    have hform := Bytes.ofNatLE_toNatLE w.bytes
    rw [w.length_bytes] at hlt hform
    exact ⟨hlt, by rw [hform]⟩
  · rintro ⟨hn, rfl⟩
    exact nat_takes hn rest

theorem uint32_ok {n : UInt32} : uint32 bs = .ok n rest ↔ bs = (Field.uint32 n).encode ++ rest := by
  constructor
  · intro h
    simp only [uint32, Effect.bind_ok, nat_ok, Effect.pure_ok] at h
    obtain ⟨a, _, ⟨ha, rfl⟩, rfl, rfl⟩ := h
    rw [Field.encode, UInt32.toNat_ofNat_of_lt' ha]
  · rintro rfl
    exact uint32_takes n rest

theorem uint64_ok {n : UInt64} : uint64 bs = .ok n rest ↔ bs = (Field.uint64 n).encode ++ rest := by
  constructor
  · intro h
    simp only [uint64, Effect.bind_ok, nat_ok, Effect.pure_ok] at h
    obtain ⟨a, _, ⟨ha, rfl⟩, rfl, rfl⟩ := h
    rw [Field.encode, UInt64.toNat_ofNat_of_lt' ha]
  · rintro rfl
    exact uint64_takes n rest

/-- The reader takes every spelling. -/
theorem compactSize_ok :
    compactSize bs = .ok n rest ↔ ∃ form, CompactSize.Spells n form ∧ bs = form ++ rest := by
  constructor
  · intro h
    obtain ⟨marker, mid, hm, hcount⟩ := Effect.bind_ok.mp h
    obtain ⟨hlt, rfl⟩ := nat_ok.mp hm
    split at hcount
    · obtain ⟨hn, rfl⟩ := nat_ok.mp hcount
      exact ⟨_, .eight hn, rfl⟩
    · obtain ⟨hn, rfl⟩ := nat_ok.mp hcount
      exact ⟨_, .four hn, rfl⟩
    · obtain ⟨hn, rfl⟩ := nat_ok.mp hcount
      exact ⟨_, .two hn, rfl⟩
    · next h255 h254 h253 =>
      obtain ⟨rfl, rfl⟩ := Effect.pure_ok.mp hcount
      have h255 : marker ≠ 255 := h255
      have h254 : marker ≠ 254 := h254
      have h253 : marker ≠ 253 := h253
      exact ⟨_, .byte (by omega), rfl⟩
  · rintro ⟨form, hform, rfl⟩
    refine Effect.bind_ok.mpr ?_
    cases hform with
    | byte hn =>
      refine ⟨n, rest, nat_ok.mpr ⟨by omega, rfl⟩, ?_⟩
      split
      · omega
      · omega
      · omega
      · rfl
    | two hn => exact ⟨253, _, nat_ok.mpr ⟨by decide, rfl⟩, nat_ok.mpr ⟨hn, rfl⟩⟩
    | four hn => exact ⟨254, _, nat_ok.mpr ⟨by decide, rfl⟩, nat_ok.mpr ⟨hn, rfl⟩⟩
    | eight hn => exact ⟨255, _, nat_ok.mpr ⟨by decide, rfl⟩, nat_ok.mpr ⟨hn, rfl⟩⟩

theorem sizedBytes_ok :
    sizedBytes bs = .ok form rest ↔ ∃ whole, (Field.sized form).Spells whole ∧ bs = whole ++ rest := by
  simp only [sizedBytes, Effect.bind_ok, compactSize_ok, bytes_ok, Field.Spells]
  constructor
  · rintro ⟨n, _, ⟨head, hhead, rfl⟩, rfl, rfl⟩
    exact ⟨_, ⟨head, hhead, rfl⟩, (List.append_assoc _ _ _).symm⟩
  · rintro ⟨_, ⟨head, hhead, rfl⟩, rfl⟩
    exact ⟨form.length, form ++ rest, ⟨head, hhead, List.append_assoc _ _ _⟩, rfl, rfl⟩

end Reader

end Wire

namespace Parser

variable {α : Type} {bs rest : Bytes} {a : α}

theorem part_ok {r : Reader α} {p : TransactionPart} : part p r bs = .ok a rest ↔ r bs = .ok a rest := by
  unfold part
  cases r bs <;> simp

theorem input_ok {i : Input} :
    input bs = .ok i rest ↔ ∃ form, Field.SpellsAll i.fields form ∧ bs = form ++ rest := by
  simp only [input, Effect.bind_ok, part_ok, Reader.take_ok, Reader.uint32_ok, Reader.sizedBytes_ok,
    Effect.pure_ok]
  constructor
  · rintro ⟨txid, _, rfl, index, _, rfl, unlocking, _, ⟨whole, hwhole, rfl⟩, sequence, _, rfl, rfl,
      rfl⟩
    refine ⟨_, .cons rfl (.cons rfl (.cons hwhole (.cons rfl .nil))), ?_⟩
    simp only [List.append_assoc, List.append_nil, Field.encode]
  · rintro ⟨form, hform, rfl⟩
    simp only [Input.fields, Outpoint.fields, List.cons_append, List.nil_append,
      Field.spellsAll_cons, Field.spellsAll_nil] at hform
    obtain ⟨_, _, rfl, ⟨_, _, rfl, ⟨whole, _, hwhole, ⟨_, _, rfl, rfl, rfl⟩, rfl⟩, rfl⟩, rfl⟩ := hform
    refine ⟨i.source.txid, _, ?_, i.source.index, _, rfl, i.unlocking.bytes, _, ⟨whole, hwhole, rfl⟩,
      i.sequence, _, rfl, rfl, rfl⟩
    simp only [List.append_assoc, List.append_nil, Field.encode]

theorem output_ok {o : Output} :
    output bs = .ok o rest ↔ ∃ form, Field.SpellsAll o.fields form ∧ bs = form ++ rest := by
  simp only [output, Effect.bind_ok, part_ok, Reader.uint64_ok, Reader.sizedBytes_ok, Effect.pure_ok]
  constructor
  · rintro ⟨amount, _, rfl, locking, _, ⟨whole, hwhole, rfl⟩, rfl, rfl⟩
    refine ⟨_, .cons rfl (.cons hwhole .nil), ?_⟩
    simp only [List.append_assoc, List.append_nil, Field.encode, UInt64.toUInt64_toInt64]
  · rintro ⟨form, hform, rfl⟩
    simp only [Output.fields, Field.spellsAll_cons, Field.spellsAll_nil] at hform
    obtain ⟨_, _, rfl, ⟨whole, _, hwhole, rfl, rfl⟩, rfl⟩ := hform
    refine ⟨o.amount.toUInt64, _, ?_, o.locking.bytes, _, ⟨whole, hwhole, rfl⟩, rfl, rfl⟩
    simp only [List.append_assoc, List.append_nil, Field.encode]

/-- By induction on the number of values, each of which stands spelled at the front. -/
theorem many_ok {item : Parser α} {fields : α → List Field} {n : Nat} {items : List α}
    (hitem : ∀ bs a rest, item bs = .ok a rest ↔
      ∃ form, Field.SpellsAll (fields a) form ∧ bs = form ++ rest) :
    many item n bs = .ok items rest ↔ items.length = n ∧
      ∃ form, Field.SpellsAll (items.flatMap fields) form ∧ bs = form ++ rest := by
  induction n generalizing bs items rest with
  | zero =>
    simp only [many, Effect.pure_ok, List.length_eq_zero_iff]
    constructor
    · rintro ⟨rfl, rfl⟩
      exact ⟨rfl, [], .nil, rfl⟩
    · rintro ⟨rfl, form, hform, rfl⟩
      rw [Field.spellsAll_nil.mp hform]
      exact ⟨rfl, rfl⟩
  | succ n ih =>
    simp only [many, Effect.bind_ok, hitem, ih, Effect.pure_ok]
    constructor
    · rintro ⟨a, _, ⟨front, hfront, rfl⟩, items, _, ⟨rfl, form, hform, rfl⟩, rfl, rfl⟩
      refine ⟨rfl, front ++ form, ?_, (List.append_assoc _ _ _).symm⟩
      exact Field.spellsAll_append.mpr ⟨front, form, hfront, hform, rfl⟩
    · rintro ⟨hn, form, hform, rfl⟩
      cases items with
      | nil => cases hn
      | cons a items =>
        obtain ⟨front, back, hfront, hback, rfl⟩ := Field.spellsAll_append.mp hform
        exact ⟨a, back ++ rest, ⟨front, hfront, List.append_assoc _ _ _⟩, items, rest,
          ⟨Nat.succ.inj hn, back, hback, rfl⟩, rfl, rfl⟩

theorem count_spells {items : List α} {form : Bytes} (h : items.length < 2 ^ 64) :
    (Transaction.count items).Spells form ↔ Wire.CompactSize.Spells items.length form := by
  have hn : (UInt64.ofNat items.length).toNat = items.length := UInt64.toNat_ofNat_of_lt' h
  rw [Transaction.count, Field.Spells, hn]

end Parser

namespace Transaction

variable {tx : Transaction} {bs rest form : Bytes}

/-- The spelling of a transaction, cut at its two lists. -/
theorem spellsAll_fields :
    Field.SpellsAll tx.fields form ↔ ∃ ins inputs outs outputs,
      (count tx.inputs).Spells ins ∧ Field.SpellsAll (tx.inputs.flatMap Input.fields) inputs ∧
        (count tx.outputs).Spells outs ∧ Field.SpellsAll (tx.outputs.flatMap Output.fields) outputs ∧
        form = (Field.int32 tx.version).encode ++ (ins ++ (inputs ++ (outs ++ (outputs ++
          (Field.uint32 tx.lockTime).encode)))) := by
  simp only [fields, Field.spellsAll_append, Field.spellsAll_cons, Field.spellsAll_nil]
  constructor
  · rintro ⟨_, _, ⟨_, _, ⟨_, _, ⟨_, inputs, ⟨_, _, rfl, ⟨ins, _, hins, rfl, rfl⟩, rfl⟩, hinputs, rfl⟩,
      ⟨outs, _, houts, rfl, rfl⟩, rfl⟩, houtputs, rfl⟩, ⟨_, _, rfl, rfl, rfl⟩, rfl⟩
    refine ⟨ins, inputs, outs, _, hins, hinputs, houts, houtputs, ?_⟩
    simp only [List.append_assoc, List.append_nil]
  · rintro ⟨ins, inputs, outs, outputs, hins, hinputs, houts, houtputs, rfl⟩
    refine ⟨_, _, ⟨_, _, ⟨_, _, ⟨_, inputs, ⟨_, _, rfl, ⟨ins, _, hins, rfl, rfl⟩, rfl⟩, hinputs, rfl⟩,
      ⟨outs, _, houts, rfl, rfl⟩, rfl⟩, houtputs, rfl⟩, ⟨_, _, rfl, rfl, rfl⟩, ?_⟩
    simp only [List.append_assoc, List.append_nil]

/-- What is read as a transaction is a spelling of its fields. -/
theorem parser_ok :
    Parser.transaction bs = .ok tx rest ↔
      tx.Representable ∧ ∃ form, Field.SpellsAll tx.fields form ∧ bs = form ++ rest := by
  simp only [Parser.transaction, Effect.bind_ok, Parser.part_ok, Reader.uint32_ok,
    Reader.compactSize_ok, Parser.many_ok fun _ _ _ => Parser.input_ok,
    Parser.many_ok fun _ _ _ => Parser.output_ok, Effect.pure_ok, spellsAll_fields]
  constructor
  · rintro ⟨version, _, rfl, _, _, ⟨ins, hins, rfl⟩, inputs, _, ⟨rfl, form, hform, rfl⟩, _, _,
      ⟨outs, houts, rfl⟩, outputs, _, ⟨rfl, form', hform', rfl⟩, lockTime, _, rfl, rfl, rfl⟩
    have hrepresentable : Representable ⟨version.toInt32, inputs, outputs, lockTime⟩ := by
      refine ⟨hins.lt, houts.lt, fun i hi => ?_, fun o ho => ?_⟩
      · have hmem : Field.sized i.unlocking.bytes ∈ inputs.flatMap Input.fields :=
          List.mem_flatMap.mpr ⟨i, hi, by simp [Input.fields, Outpoint.fields]⟩
        obtain ⟨part, hpart⟩ := hform.of_mem hmem
        exact hpart.length_lt
      · have hmem : Field.sized o.locking.bytes ∈ outputs.flatMap Output.fields :=
          List.mem_flatMap.mpr ⟨o, ho, by simp [Output.fields]⟩
        obtain ⟨part, hpart⟩ := hform'.of_mem hmem
        exact hpart.length_lt
    refine ⟨hrepresentable, _, ⟨ins, form, outs, form', ?_, hform, ?_, hform', rfl⟩, ?_⟩
    · exact (Parser.count_spells hins.lt).mpr hins
    · exact (Parser.count_spells houts.lt).mpr houts
    · simp only [List.append_assoc, Field.encode, UInt32.toUInt32_toInt32]
  · rintro ⟨h, _, ⟨ins, form, outs, form', hins, hform, houts, hform', rfl⟩, rfl⟩
    have hins := (Parser.count_spells h.inputs).mp hins
    have houts := (Parser.count_spells h.outputs).mp houts
    refine ⟨tx.version.toUInt32, _, ?_, _, _, ⟨ins, hins, rfl⟩, tx.inputs, _, ⟨rfl, form, hform, rfl⟩,
      _, _, ⟨outs, houts, rfl⟩, tx.outputs, _, ⟨rfl, form', hform', rfl⟩, tx.lockTime, _, rfl, rfl, rfl⟩
    simp only [List.append_assoc, Field.encode]

theorem ofBytes_ok : ofBytes bs = .ok tx ↔ tx.Representable ∧ Field.SpellsAll tx.fields bs := by
  have hread : ofBytes bs = .ok tx ↔ Parser.transaction bs = .ok tx [] := by
    unfold ofBytes
    cases Parser.transaction bs with
    | error fault rest => simp
    | ok tx' rest => by_cases hr : rest = [] <;> simp [hr]
  simp only [hread, parser_ok, List.append_nil, exists_eq_right']

/-- A byte string that is read as a transaction spells the fields of that transaction, counts being
spelled in any of their forms, and every such spelling is read as the same transaction. The written
form is the one shortest spelling: all others are longer. -/
theorem written_form_shortest (bs : Bytes) (tx : Transaction) (h : ofBytes bs = .ok tx) :
    ofBytes tx.bytes = .ok tx ∧ tx.bytes.length ≤ bs.length ∧
      (tx.bytes.length = bs.length ↔ tx.bytes = bs) ∧
      ∀ form, ofBytes form = .ok tx ↔ Field.SpellsAll tx.fields form := by
  obtain ⟨hrepresentable, hspells⟩ := ofBytes_ok.mp h
  have hwritten : ofBytes tx.bytes = .ok tx := by
    have htakes := Parser.transaction_takes hrepresentable []
    rw [List.append_nil] at htakes
    rw [ofBytes_of_ok htakes, if_pos rfl]
  refine ⟨hwritten, ?_, ?_, fun form => ?_⟩
  · rcases hspells.shortest with rfl | hlt
    · exact Nat.le_refl _
    · exact Nat.le_of_lt hlt
  · constructor
    · intro hlength
      rcases hspells.shortest with heq | hlt
      · exact heq.symm
      · exact absurd hlength (Nat.ne_of_lt hlt)
    · intro heq
      rw [heq]
  · rw [ofBytes_ok, and_iff_right hrepresentable]

/-- An empty transaction whose two counts are spelled with a marker is read, and is four bytes
shorter when it is written. -/
theorem written_form_shortest_markers :
    let bs : Bytes := [2, 0, 0, 0, 0xfd, 0, 0, 0xfd, 0, 0, 7, 0, 0, 0]
    let tx : Transaction := { version := 2, lockTime := 7 }
    ofBytes bs = .ok tx ∧ ofBytes tx.bytes = .ok tx ∧ tx.bytes.length ≤ bs.length ∧ tx.bytes ≠ bs := by
  intro bs tx
  have h : ofBytes bs = .ok tx := by rfl
  obtain ⟨hwritten, hle, heq, -⟩ := written_form_shortest bs tx h
  refine ⟨h, hwritten, hle, fun hsame => ?_⟩
  exact absurd (heq.mpr hsame) (by decide)

end Transaction

end CoinScript
