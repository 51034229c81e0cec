import CoinScript.Proofs.PushedNumbers

namespace CoinScript.Template

variable {flags : Flags} {s : Script} {t : Template} {length push op : Operation} {ops rest : List Operation}
  {first text : Bytes} {n : Int}

/-- The length that a number announces. What is not positive announces none. -/
def labelLength (n : Int) : Nat := (Number.clamp32 n).toNat % 256

/-- It is the lowest byte of the number, and 255 for one that a signed word of 32 bits does not hold. -/
theorem labelLength_eq (n : Int) : labelLength n = if n < 2 ^ 31 then n.toNat % 256 else 255 := by
  unfold labelLength Number.clamp32
  split <;> omega

theorem labelLength_of_le (h : n ≤ 255) : labelLength n = n.toNat := by
  rw [labelLength_eq, if_pos (by omega)]
  omega

theorem pos_of_labelLength (h : labelLength n ≠ 0) : 0 < n := by
  unfold labelLength Number.clamp32 at h
  omega

/-- Whether the code or the data carries the number, the length is that of the number pushed. -/
theorem declaredLength?_eq (hs : op.Sized) (hc : op.code ≤ Opcode.sixteen) :
    declaredLength? op = (shortNumber? op.data).map fun _ => labelLength (Number.value op.item) := by
  refine Option.map_congr fun n hn => ?_
  cases hp : op.isPush with
  | true =>
    have hcode : ¬ Opcode.isOneToSixteen op.code = true := fun h => by
      cases hp.symm.trans (Operation.isPush_of_number h)
    rw [Operation.item_of_push hp, (shortNumber?_eq_some.mp hn).2, Number.value_encode, if_neg hcode, labelLength]
    split
    · rfl
    · unfold Number.clamp32
      omega
  | false =>
    -- The data is empty and reads as zero, so what counts is the code.
    have hzero : n = 0 := by
      rw [hs.bare hp] at hn
      exact Option.some.inj (hn.symm.trans rfl)
    rw [Operation.item_of_code hp, Number.value_encode, if_neg (hzero ▸ Int.lt_irrefl 0)]
    rcases Opcode.reserved_or_number (UInt8.not_le.mp (of_decide_eq_false hp)) hc with hr | hr | hr
    · rw [hr]
      rfl
    · rw [hr]
      rfl
    · have hrange := Opcode.isOneToSixteen_iff.mp hr
      have hcode : op.code ≠ Opcode.zero := fun h => by
        rw [h] at hrange
        exact absurd hrange.1 (by decide)
      rw [if_pos hr, Opcode.smallNumber, if_neg hcode, labelLength_of_le (by omega)]
      omega

/-- A text behind its length: the number that is pushed first announces how many bytes are pushed next. -/
structure IsLabel (s : Script) (length push : Operation) (rest : List Operation) : Prop where
  published : IsPublic s (length :: push :: rest)
  short : ∃ n, length.data.length ≤ 5 ∧ length.data = Number.encode n
  isPush : push.isPush = true
  nonempty : push.item ≠ []
  announced : push.item.length = labelLength (Number.value length.item)

theorem IsPublic.ne_payTo_script (h : IsPublic s ops) (id : ScriptId) : s ≠ Script.payTo (.script id) := by
  rintro rfl
  obtain ⟨rest, hfirst⟩ := h.first
  rw [id.payTo_bytes] at hfirst
  have hcode := (List.cons.inj hfirst).1
  cases id <;> cases hcode

/-- Nothing is tried before public data that could tell it. -/
theorem ofScript_of_public (h : IsPublic s ops) : ofScript flags s = (label? s).getD .data := by
  have hd : data? s = some .data := by
    rw [data?, h.1]
    exact if_pos ⟨rfl, h.2⟩
  rw [ofScript, scriptHash?_eq_none h.ne_payTo_script, hd]
  cases label? s <;> rfl

theorem IsPublic.sized (h : IsPublic s ops) : ∀ op ∈ ops, op.Sized := fun op hop =>
  (operations?_shape h.1).2 op (List.mem_cons_of_mem _ hop)

theorem IsPublic.code_le (h : IsPublic s ops) : ∀ op ∈ ops, op.code ≤ Opcode.sixteen := fun op hop =>
  of_decide_eq_true (List.all_eq_true.mp h.2 op hop)

theorem label?_of_public (h : IsPublic s (length :: push :: rest)) :
    label? s = some t ↔ IsLabel s length push rest ∧ t = .label length.data push.item := by
  have hsized := List.forall_mem_cons.mp h.sized
  have hpush := (List.forall_mem_cons.mp hsized.2).1
  have hdeclared := declaredLength?_eq hsized.1 (List.forall_mem_cons.mp h.code_le).1
  have hlabel : label? s = (declaredLength? length).bind fun n =>
      if Opcode.abort = Opcode.abort ∧ isPublic (length :: push :: rest) = true ∧ n ≠ 0 ∧
        push.data.length = n then some (.label length.data push.data) else none := by
    rw [label?, h.1]
    rfl
  rw [hlabel, hdeclared]
  constructor
  · intro ht
    obtain ⟨n, hn, hif⟩ := Option.bind_eq_some_iff.mp ht
    obtain ⟨m, hm, rfl⟩ := Option.map_eq_some_iff.mp hn
    obtain ⟨⟨-, -, hne, hl⟩, heq⟩ := Option.ite_none_right_eq_some.mp hif
    have hdata : push.data ≠ [] := fun hnil => by
      rw [hnil] at hl
      exact hne hl.symm
    have hp : push.isPush = true := Bool.of_not_eq_false fun hp => hdata (hpush.bare hp)
    have hitem := Operation.item_of_push hp
    rw [hitem]
    exact ⟨⟨h, ⟨m, shortNumber?_eq_some.mp hm⟩, hp, hitem ▸ hdata, hitem ▸ hl⟩, (Option.some.inj heq).symm⟩
  · rintro ⟨hlabel, rfl⟩
    obtain ⟨m, hm⟩ := hlabel.short
    have hl := hlabel.announced
    have hne := hlabel.nonempty
    rw [Operation.item_of_push hlabel.isPush] at hl hne ⊢
    rw [shortNumber?_eq_some.mpr hm, Option.map_some, Option.bind_some]
    exact if_pos ⟨rfl, h.2, fun hzero => hne (List.length_eq_zero_iff.mp (hl.trans hzero)), hl⟩

theorem label?_eq_some :
    label? s = some (.label first text) ↔
      ∃ length push rest, IsLabel s length push rest ∧ length.data = first ∧ push.item = text := by
  constructor
  · intro h
    obtain ⟨ops, hops⟩ := label?_shape h
    match ops with
    | [] | [_] =>
      rw [label?, hops.1] at h
      cases h
    | length :: push :: rest =>
      obtain ⟨hlabel, ht⟩ := (label?_of_public hops).mp h
      cases ht
      exact ⟨length, push, rest, hlabel, rfl, rfl⟩
  · rintro ⟨length, push, rest, h, rfl, rfl⟩
    exact (label?_of_public h.published).mpr ⟨h, rfl⟩

theorem ofScript_eq_label_iff :
    ofScript flags s = .label first text ↔
      ∃ length push rest, IsLabel s length push rest ∧ length.data = first ∧ push.item = text := by
  rw [← label?_eq_some]
  constructor
  · exact recognizer_of_ofScript
  · intro h
    obtain ⟨ops, hops⟩ := label?_shape h
    rw [ofScript_of_public hops, h]
    rfl

/-- Public data without a text of the length announced in front of it. -/
theorem ofScript_eq_data (h : IsPublic s ops) (hl : ∀ length push rest, ¬ IsLabel s length push rest) :
    ofScript flags s = .data := by
  have hnone : label? s = none := by
    refine Option.eq_none_iff_forall_ne_some.mpr fun t ht => ?_
    obtain ⟨first, text, rfl⟩ := label?_isLabel ht
    obtain ⟨length, push, rest, hlabel, -⟩ := label?_eq_some.mp ht
    exact hl length push rest hlabel
  rw [ofScript_of_public h, hnone]
  rfl

/-- What is written for a text of up to 255 bytes. -/
theorem publish_isLabel (h0 : text ≠ []) (h : text.length ≤ 255) :
    ∃ s, Script.publish text = .ok s ∧ IsLabel s (.ofInt text.length) (.pushing text) [] := by
  have hn : (text.length : Int).natAbs < 2 ^ 39 := by omega
  have h75 := length_encode_le_direct hn
  have hsize : text.length ≤ 0xffffffff := Nat.le_trans h (by decide)
  have hsized : ∀ op ∈ [⟨Opcode.abort, []⟩, Operation.ofInt text.length, .pushing text], op.Sized :=
    List.forall_mem_cons.mpr ⟨Operation.sized_bare (by decide), List.forall_mem_cons.mpr
      ⟨Operation.sized_ofInt h75, List.forall_mem_singleton.mpr (Operation.sized_pushing hsize)⟩⟩
  refine ⟨_, ?_, ⟨operations?_ofOperations hsized, ?_⟩, ?_, ?_, ?_, ?_⟩
  · rw [Script.publish, if_neg h0, Script.push_eq hsize, Script.pushNumber, Operation.numberBytes_eq h75]
    refine congrArg Except.ok (Script.eq_iff_bytes.mpr ?_)
    simp only [Script.append, Script.empty, Script.ofPushes, Script.ofOperations, List.map_singleton,
      List.flatMap_cons, List.nil_append, List.append_assoc]
    rfl
  · exact Bool.and_eq_true_iff.mpr ⟨decide_eq_true (Operation.code_ofInt_le _), Bool.and_eq_true_iff.mpr
      ⟨decide_eq_true (UInt8.le_trans (Operation.pushCode_le _) (by decide)), rfl⟩⟩
  · exact ⟨_, shortNumber?_eq_some.mp (shortNumber?_ofInt hn)⟩
  · exact Operation.isPush_pushing text
  · rwa [Operation.item_pushing]
  · rw [Operation.item_pushing, Operation.item_ofInt, Number.value_encode, labelLength_of_le (by omega)]
    omega

/-- A text of up to 255 bytes is recovered from the script that publishes it. A script is solved as a label
exactly if a number and a text are pushed after `OP_RETURN`, before more pushes, and the number announces the
length of the text: it is positive, and no other than the length if it is at most 255. Public data that
announces no text is data and no more. -/
theorem public_labels_solved (flags : Flags) :
    (∀ text : Bytes, text ≠ [] → text.length ≤ 255 → ∃ s, Script.publish text = .ok s ∧
      solution flags s = (.label, [(Operation.ofInt text.length).data, text])) ∧
    (∀ (s : Script) (first text : Bytes), solution flags s = (.label, [first, text]) ↔
      ∃ length push rest, IsLabel s length push rest ∧ length.data = first ∧ push.item = text) ∧
    (∀ s length push rest, IsLabel s length push rest → 0 < Number.value length.item ∧
      (Number.value length.item ≤ 255 → Number.value length.item = push.item.length)) ∧
    ∀ s ops, IsPublic s ops → (∀ length push rest, ¬ IsLabel s length push rest) →
      solution flags s = (.data, []) := by
  refine ⟨fun text h0 h => ?_, fun s first text => ?_, fun s length push rest h => ?_, fun s ops h hl => ?_⟩
  · obtain ⟨s, hs, hlabel⟩ := publish_isLabel h0 h
    refine ⟨s, hs, ?_⟩
    rw [solution, eq_label_iff]
    exact ofScript_eq_label_iff.mpr ⟨_, _, _, hlabel, rfl, Operation.item_pushing text⟩
  · rw [solution, eq_label_iff, ofScript_eq_label_iff]
  · have hpos : 0 < push.item.length := List.length_pos_iff.mpr h.nonempty
    have hannounced := h.announced
    have hnumber : 0 < Number.value length.item := pos_of_labelLength (by omega)
    refine ⟨hnumber, fun hle => ?_⟩
    rw [hannounced, labelLength_of_le hle]
    omega
  · rw [solution, ofScript_eq_data h hl]
    rfl

/-- The number 261 announces a text of 5 bytes. -/
theorem public_label_longer_number :
    let text : Bytes := [0x68, 0x65, 0x6c, 0x6c, 0x6f]
    let s : Script := ⟨[Opcode.abort, 2, 0x05, 0x01, 5] ++ text⟩
    solution .none s = (.label, [[0x05, 0x01], text]) ∧
      operations? s = some [⟨Opcode.abort, []⟩, ⟨2, [0x05, 0x01]⟩, ⟨5, text⟩] ∧
      Number.value [0x05, 0x01] = 261 ∧ text.length = 5 := by
  decide +kernel

end CoinScript.Template
