import CoinScript.Proofs.Reading
import CoinScript.Transaction.Parse

namespace CoinScript

open Wire (Field Reader)

/-- The counts in the written form are of 64 bits, as all lengths in memory are. -/
structure Transaction.Representable (tx : Transaction) : Prop where
  inputs : tx.inputs.length < 2 ^ 64
  outputs : tx.outputs.length < 2 ^ 64
  unlocking : ∀ i ∈ tx.inputs, i.unlocking.length < 2 ^ 64
  locking : ∀ o ∈ tx.outputs, o.locking.length < 2 ^ 64

namespace Parser

variable {α : Type} {form : Bytes} {a : α} {item : Parser α}

theorem part_takes {r : Reader α} (p : TransactionPart) (h : Takes r form a) :
    Takes (part p r) form a := by
  intro rest
  rw [part, h rest]

/-- By induction on the values, each of which is read off the front. -/
theorem many_takes {items : List α} {written : α → Bytes}
    (h : ∀ a ∈ items, Takes item (written a) a) :
    Takes (many item items.length) (items.flatMap written) items := by
  induction items with
  | nil => exact .pure []
  | cons a items ih =>
    obtain ⟨ha, hrest⟩ := List.forall_mem_cons.mp h
    exact ha.bind ((ih hrest).mapped (a :: ·))

theorem compactSize_takes_count {items : List α} (h : items.length < 2 ^ 64) :
    Takes Reader.compactSize (Transaction.count items).encode items.length := by
  have hn : (UInt64.ofNat items.length).toNat = items.length := UInt64.toNat_ofNat_of_lt' h
  rw [Transaction.count, Field.encode, hn]
  exact Reader.compactSize_takes h

theorem input_takes {i : Input} (h : i.unlocking.length < 2 ^ 64) :
    Takes input (Field.encodeAll i.fields) i := by
  refine (part_takes _ (Reader.take_takes i.source.txid)).bind ?_
  refine (part_takes _ (Reader.uint32_takes i.source.index)).bind ?_
  refine (part_takes _ (Reader.sizedBytes_takes h)).bind ?_
  exact (part_takes _ (Reader.uint32_takes i.sequence)).bind (.pure i)

theorem output_takes {o : Output} (h : o.locking.length < 2 ^ 64) :
    Takes output (Field.encodeAll o.fields) o := by
  refine (part_takes _ (Reader.uint64_takes o.amount.toUInt64)).bind ?_
  exact (part_takes _ (Reader.sizedBytes_takes h)).bind (.pure o)

theorem transaction_takes {tx : Transaction} (h : tx.Representable) : Takes transaction tx.bytes tx := by
  have hinputs := many_takes fun i hi => input_takes (h.unlocking i hi)
  have houtputs := many_takes fun o ho => output_takes (h.locking o ho)
  -- the written form, grouped as the parser reads it
  have hform : tx.bytes = (Field.int32 tx.version).encode ++ ((Transaction.count tx.inputs).encode ++
      ((tx.inputs.flatMap fun i => Field.encodeAll i.fields) ++
        ((Transaction.count tx.outputs).encode ++
          ((tx.outputs.flatMap fun o => Field.encodeAll o.fields) ++
            ((Field.uint32 tx.lockTime).encode ++ []))))) := by
    simp only [Transaction.bytes, Transaction.fields, Field.encodeAll_append, Field.encodeAll_cons,
      Field.encodeAll_nil, Field.encodeAll_flatMap, List.append_assoc, List.nil_append]
  rw [hform]
  refine (part_takes _ (Reader.uint32_takes tx.version.toUInt32)).bind ?_
  refine (part_takes _ (compactSize_takes_count h.inputs)).bind (hinputs.bind ?_)
  refine (part_takes _ (compactSize_takes_count h.outputs)).bind (houtputs.bind ?_)
  exact (part_takes _ (Reader.uint32_takes tx.lockTime)).bind (.pure tx)

/-- A parser that goes on in the same way when more bytes follow, and that nothing stops but the end
of the bytes. -/
structure Gradual (p : Parser α) : Prop where
  steady : Steady p
  cutShort : ∀ bs fault rest, p bs = .error fault rest → ∃ part, fault = .cutShort part .unexpectedEnd

namespace Gradual

variable {β : Type} {p : Parser α} {next : α → Parser β}

theorem pure (a : α) : Gradual (pure a) where
  steady := .pure a
  cutShort := by
    intro bs fault rest h
    cases h

theorem bind (h : Gradual p) (hn : ∀ a, Gradual (next a)) : Gradual (p >>= next) where
  steady := h.steady.bind fun a => (hn a).steady
  cutShort := by
    intro bs fault rest hb
    rcases Effect.bind_error.mp hb with hp | ⟨a, mid, -, ha⟩
    · exact h.cutShort _ _ _ hp
    · exact (hn a).cutShort _ _ _ ha

theorem part {r : Reader α} (p : TransactionPart) (h : Steady r) : Gradual (part p r) where
  steady := by
    intro bs a rest more hp
    unfold Parser.part at hp ⊢
    cases hr : r bs with
    | ok b mid =>
      rw [hr] at hp
      cases hp
      rw [h _ _ _ more hr]
    | error fault mid =>
      rw [hr] at hp
      cases hp
  cutShort := by
    intro bs fault rest hp
    unfold Parser.part at hp
    cases hr : r bs with
    | ok b mid =>
      rw [hr] at hp
      cases hp
    | error fault mid =>
      rw [hr] at hp
      cases hp
      exact ⟨p, rfl⟩

theorem many (h : Gradual item) (n : Nat) : Gradual (many item n) := by
  induction n with
  | zero => exact .pure []
  | succ n ih => exact h.bind fun a => ih.bind fun _ => .pure _

end Gradual

theorem input_gradual : Gradual input :=
  (Gradual.part _ (Reader.take_steady 32)).bind fun _ =>
    (Gradual.part _ Reader.uint32_steady).bind fun _ =>
      (Gradual.part _ Reader.sizedBytes_steady).bind fun _ =>
        (Gradual.part _ Reader.uint32_steady).bind fun _ => .pure _

theorem output_gradual : Gradual output :=
  (Gradual.part _ Reader.uint64_steady).bind fun _ =>
    (Gradual.part _ Reader.sizedBytes_steady).bind fun _ => .pure _

theorem transaction_gradual : Gradual transaction :=
  (Gradual.part _ Reader.uint32_steady).bind fun _ =>
    (Gradual.part _ Reader.compactSize_steady).bind fun n =>
      (input_gradual.many n).bind fun _ =>
        (Gradual.part _ Reader.compactSize_steady).bind fun k =>
          (output_gradual.many k).bind fun _ =>
            (Gradual.part _ Reader.uint32_steady).bind fun _ => .pure _

end Parser

namespace Transaction

variable {tx : Transaction} {bs rest : Bytes} {fault : ParseFault}

theorem ofBytes_of_ok (h : Parser.transaction bs = .ok tx rest) :
    ofBytes bs = if rest = [] then .ok tx else .error (.trailing rest.length) := by
  rw [ofBytes, h]

theorem ofBytes_of_error (h : Parser.transaction bs = .error fault rest) :
    ofBytes bs = .error fault := by
  rw [ofBytes, h]

/-- The written form of a transaction is read back with whatever follows left unread. So as a whole
it is a transaction; with more behind it, it is refused for what trails, and cut short anywhere it
is refused for a part that is cut short. -/
theorem written_form_framed (tx : Transaction) (h : tx.Representable) :
    (∀ rest, Parser.transaction (tx.bytes ++ rest) = .ok tx rest) ∧
      ofBytes tx.bytes = .ok tx ∧
      (∀ rest, rest ≠ [] → ofBytes (tx.bytes ++ rest) = .error (.trailing rest.length)) ∧
      ∀ front, front <+: tx.bytes → front ≠ tx.bytes →
        ∃ part, ofBytes front = .error (.cutShort part .unexpectedEnd) := by
  have htakes := Parser.transaction_takes h
  have hgradual := Parser.transaction_gradual
  refine ⟨htakes, ?_, fun rest hrest => ?_, fun front hfront hne => ?_⟩
  · have hwhole := htakes []
    rw [List.append_nil] at hwhole
    rw [ofBytes_of_ok hwhole, if_pos rfl]
  · rw [ofBytes_of_ok (htakes rest), if_neg hrest]
  · obtain ⟨more, hmore⟩ := hfront
    have hm : more ≠ [] := by
      rintro rfl
      exact hne (by rw [← hmore, List.append_nil])
    obtain ⟨fault, rest, hcut⟩ := htakes.error_of_cut hgradual.steady hmore.symm hm
    obtain ⟨part, rfl⟩ := hgradual.cutShort _ _ _ hcut
    exact ⟨part, ofBytes_of_error hcut⟩

/-- A script whose length takes three bytes, and a negative amount. -/
theorem written_form_framed_long_script :
    let tx : Transaction :=
      { version := -1, inputs := [⟨.null, ⟨List.replicate 253 0x6a⟩, 7⟩], outputs := [⟨-1, ⟨[0x51]⟩⟩] }
    tx.Representable ∧ ofBytes tx.bytes = .ok tx ∧
      ofBytes (tx.bytes ++ [0]) = .error (.trailing 1) ∧
      ∃ part, ofBytes (tx.bytes.take 100) = .error (.cutShort part .unexpectedEnd) := by
  intro tx
  have h : tx.Representable := by
    refine ⟨by decide, by decide, List.forall_mem_singleton.mpr ?_,
      List.forall_mem_singleton.mpr (by decide)⟩
    change (List.replicate 253 _).length < 2 ^ 64
    rw [List.length_replicate]
    decide
  have hne : tx.bytes.take 100 ≠ tx.bytes := by decide +kernel
  obtain ⟨-, hwhole, htrailing, hcut⟩ := written_form_framed tx h
  exact ⟨h, hwhole, htrailing [0] (by decide), hcut _ (List.take_prefix 100 tx.bytes) hne⟩

end Transaction

end CoinScript
