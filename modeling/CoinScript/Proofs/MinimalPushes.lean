import CoinScript.Proofs.Parsing
import CoinScript.Proofs.Running

namespace CoinScript

theorem Number.encode_ofNat {n : Nat} (h0 : 0 < n) (h : n < 128) :
    encode n = [UInt8.ofNat n] := by
  have hd : Bytes.digits n = [UInt8.ofNat n] := by
    rw [Bytes.digits, if_neg (by omega), Nat.div_eq_of_lt (by omega), Bytes.digits, if_pos rfl]
  have hs : signByte n = 0 := if_neg (by omega)
  have ht : ¬ 0x80 ≤ UInt8.ofNat n := by
    rw [UInt8.le_iff_toNat_le, UInt8.toNat_ofNat_of_lt' (Nat.lt_trans h (by decide))]
    exact Nat.not_le.mpr h
  rw [encode, Int.natAbs_natCast, hd, hs, List.reverse_singleton, signed, if_neg ht, UInt8.or_zero]
  rfl

namespace Opcode

variable {op : Opcode}

theorem isOneToSixteen_iff : isOneToSixteen op = true ↔ 81 ≤ op.toNat ∧ op.toNat ≤ 96 := by
  simp only [isOneToSixteen, Bool.and_eq_true, decide_eq_true_eq, UInt8.le_iff_toNat_le]
  rfl

theorem encode_smallNumber (h : isOneToSixteen op = true) :
    Number.encode (smallNumber op) = [UInt8.ofNat (op.toNat - 80)] := by
  have hrange := isOneToSixteen_iff.mp h
  have hz : op ≠ zero := by
    rintro rfl
    cases h
  have hn : smallNumber op = ((op.toNat - 80 : Nat) : Int) := by
    rw [smallNumber, if_neg hz]
    omega
  rw [hn, Number.encode_ofNat (by omega) (by omega)]

theorem reserved_or_number (h1 : pushData4 < op) (h2 : op ≤ sixteen) :
    op = reserved ∨ op = negativeOne ∨ isOneToSixteen op = true := by
  rw [UInt8.lt_iff_toNat_lt] at h1
  rw [UInt8.le_iff_toNat_le] at h2
  change 0x4e < op.toNat at h1
  change op.toNat ≤ 0x60 at h2
  have hcases : op.toNat = 0x50 ∨ op.toNat = 0x4f ∨ 0x51 ≤ op.toNat := by omega
  rcases hcases with h | h | h
  · exact .inl (UInt8.toNat_inj.mp h)
  · exact .inr (.inl (UInt8.toNat_inj.mp h))
  · exact .inr (.inr (isOneToSixteen_iff.mpr ⟨h, h2⟩))

end Opcode

namespace Operation

/-- What an operation that only pushes leaves on the stack. -/
def item (op : Operation) : Bytes :=
  if op.isPush then op.data else Number.encode (Opcode.smallNumber op.code)

/-- The code of the shortest operation that pushes an item, as far as two bytes say its length. -/
def shortestCode : Bytes → Opcode
  | [] => Opcode.zero
  | [b] => if 1 ≤ b ∧ b ≤ 16 then 0x50 + b else if b = 0x81 then Opcode.negativeOne else 1
  | data =>
    if data.length ≤ 75 then UInt8.ofNat data.length
    else if data.length ≤ 255 then Opcode.pushData1
    else Opcode.pushData2

/-- The shortest operation that pushes an item. -/
def ofItem (item : Bytes) : Operation :=
  ⟨shortestCode item, if shortestCode item ≤ Opcode.pushData4 then item else []⟩

variable {op : Operation} {code : Opcode} {data : Bytes}

theorem item_of_push (h : op.isPush = true) : op.item = op.data := if_pos h

theorem item_of_code (h : op.isPush = false) : op.item = Number.encode (Opcode.smallNumber op.code) :=
  if_neg (Bool.eq_false_iff.mp h)

theorem code_of_isMinimalPush (hl : data.length ≤ 65535)
    (h : isMinimalPush ⟨code, data⟩ = true) : code = shortestCode data := by
  match data with
  | [] => exact beq_iff_eq.mp h
  | [b] =>
    simp only [isMinimalPush] at h
    simp only [shortestCode]
    split at h
    · next hb =>
      rw [if_pos hb]
      exact beq_iff_eq.mp h
    · next hb =>
      rw [if_neg hb]
      split at h
      · next hs =>
        rw [if_pos hs]
        exact beq_iff_eq.mp h
      · next hs =>
        rw [if_neg hs]
        exact beq_iff_eq.mp h
  | a :: b :: data =>
    simp only [isMinimalPush, if_pos hl] at h
    simp only [shortestCode]
    split at h
    · next h75 =>
      rw [if_pos h75, ← beq_iff_eq.mp h, UInt8.ofNat_toNat]
    · next h75 =>
      rw [if_neg h75]
      split at h
      · next h255 =>
        rw [if_pos h255]
        exact beq_iff_eq.mp h
      · next h255 =>
        rw [if_neg h255]
        exact beq_iff_eq.mp h

/-- The codes of the numbers are the shortest for what these encode to. -/
theorem code_of_number (hc : code = Opcode.negativeOne ∨ Opcode.isOneToSixteen code = true) :
    code = shortestCode (Number.encode (Opcode.smallNumber code)) := by
  rcases hc with rfl | hc
  · decide +kernel
  · have hcode := Opcode.isOneToSixteen_iff.mp hc
    have hb : (UInt8.ofNat (code.toNat - 80)).toNat = code.toNat - 80 :=
      UInt8.toNat_ofNat_of_lt' (Nat.lt_of_le_of_lt (Nat.sub_le _ _) code.toNat_lt)
    have hrange : 1 ≤ UInt8.ofNat (code.toNat - 80) ∧ UInt8.ofNat (code.toNat - 80) ≤ 16 := by
      simp only [UInt8.le_iff_toNat_le, hb]
      change 1 ≤ code.toNat - 80 ∧ code.toNat - 80 ≤ 16
      omega
    rw [Opcode.encode_smallNumber hc, shortestCode, if_pos hrange]
    apply UInt8.toNat_inj.mp
    rw [UInt8.toNat_add, hb]
    change code.toNat = (80 + (code.toNat - 80)) % 256
    omega

/-- An operation that only pushes and that runs where it stands. -/
structure Runs (minimal : Bool) (op : Operation) : Prop where
  small : op.code ≤ Opcode.sixteen
  defined : op.code ≠ Opcode.reserved
  bare : op.isPush = false → op.data = []
  short : op.data.length ≤ Fault.maxItem
  shortest : minimal = true → op.isPush = true → op.isMinimalPush = true

/-- Where pushes have to be minimal, an operation that runs is known from what it pushes. -/
theorem eq_ofItem (h : op.Runs true) : op = ofItem op.item := by
  obtain ⟨code, data⟩ := op
  have hlimit : Fault.maxItem ≤ 65535 := by decide
  cases hp : isPush ⟨code, data⟩ with
  | true =>
    have hcode := code_of_isMinimalPush (Nat.le_trans h.short hlimit) (h.shortest rfl hp)
    have hle : code ≤ Opcode.pushData4 := by simpa [isPush] using hp
    rw [item_of_push hp, ofItem, ← hcode, if_pos hle]
  | false =>
    have hgt : ¬ code ≤ Opcode.pushData4 := by simpa [isPush] using hp
    have hnumber := (Opcode.reserved_or_number (UInt8.not_le.mp hgt) h.small).resolve_left h.defined
    have hcode := code_of_number hnumber
    have hempty : data = [] := h.bare hp
    rw [item_of_code hp, ofItem, ← hcode, if_neg hgt, hempty]

end Operation

namespace Effect

variable {ctx : Context} {op : Operation} {rest : Bytes} {st st' : State} {u : Unit}

/-- An operation that only pushes does nothing else. -/
theorem perform_pushOnly_ok (hc : op.code ≤ Opcode.sixteen) (hx : st.isExecuting = true) :
    perform ctx op rest st = .ok u st' ↔
      op.code ≠ Opcode.reserved ∧
        (ctx.minimal = true → op.isPush = true → op.isMinimalPush = true) ∧
        { st with main := op.item :: st.main } = st' ∧ st'.depth ≤ Fault.maxDepth := by
  cases hp : op.isPush with
  | true =>
    have hdefined : op.code ≠ Opcode.reserved := by
      intro h
      rw [Operation.isPush, h] at hp
      exact absurd hp (by decide)
    rw [perform_push_ok hx hp, Operation.item_of_push hp]
    simp [hdefined]
  | false =>
    have hgt : Opcode.pushData4 < op.code := by
      simpa [Operation.isPush] using hp
    rw [perform_instruction_ok hx hp, Operation.item_of_code hp, State.counting, Opcode.uncounted_of_le hc,
      Opcode.enabled_of_le hc]
    rcases Opcode.reserved_or_number hgt hc with hr | hn
    · constructor
      · rw [hr]
        rintro ⟨-, -, hrun, -⟩
        cases hrun
      · rintro ⟨hdefined, -⟩
        exact absurd hr hdefined
    · have hnumber : Instruction.ofOpcode op.code = .number (Opcode.smallNumber op.code) :=
        if_pos hn
      have hdefined : op.code ≠ Opcode.reserved := by
        intro h
        rw [h] at hn
        exact absurd hn (by decide)
      rw [hnumber]
      simp [Instruction.run, hdefined, Stack.pushNumber, onMain_ok, Stack.push_ok]

end Effect

namespace Machine

variable {ctx : Context} {m : Machine} {script : Script}

/-- By induction on what is left to read: the operations push their items one after the other. -/
theorem run_pushOnly {st : State} {bs : Bytes} (hx : st.isExecuting = true)
    (hw : (Script.parse bs).2 = []) (hc : ∀ op ∈ (Script.parse bs).1, op.code ≤ Opcode.sixteen)
    (hr : run ctx ⟨st, script, bs⟩ = .ok () m) :
    (∀ op ∈ (Script.parse bs).1, op.Runs ctx.minimal) ∧
      m.state.main = ((Script.parse bs).1.map Operation.item).reverse ++ st.main := by
  cases hread : Operation.read? bs with
  | none =>
    rw [Script.parse_of_none hread] at hw
    subst hw
    rw [run_done rfl] at hr
    cases hr
    rw [Script.parse_of_none hread]
    exact ⟨fun op hop => absurd hop List.not_mem_nil, rfl⟩
  | some found =>
    obtain ⟨op, rest⟩ := found
    have hlt := Operation.read?_length hread
    rw [Script.parse_of_some hread] at hw hc ⊢
    obtain ⟨hop, hc⟩ := List.forall_mem_cons.mp hc
    obtain ⟨hshort, st', hp, hr⟩ := (run_read_ok hread).mp hr
    obtain ⟨hdefined, hshortest, rfl, -⟩ := (Effect.perform_pushOnly_ok hop hx).mp hp
    have hx' : State.isExecuting { st with main := op.item :: st.main } = true := hx
    obtain ⟨hruns, hmain⟩ := run_pushOnly hx' hw hc hr
    have hbare := (Operation.eq_of_read? hread).2
    refine ⟨List.forall_mem_cons.mpr ⟨⟨hop, hdefined, hbare, hshort, hshortest⟩, hruns⟩, ?_⟩
    rw [hmain, List.map_cons, List.reverse_cons, List.append_assoc, List.singleton_append]
termination_by bs.length

end Machine

variable {ctx : Context} {s : Script} {t : Stack}

theorem Script.operations_le_sixteen (h : s.isPushOnly = true) :
    ∀ op ∈ s.operations, op.code ≤ Opcode.sixteen := by
  intro op hop
  rw [isPushOnly, Bool.and_eq_true] at h
  exact of_decide_eq_true (List.all_eq_true.mp h.2 op hop)

/-- The operations of a script that only pushes have run, and their items are the stack. -/
theorem runs_of_evalScript (hp : s.isPushOnly = true) (h : evalScript ctx s [] = .ok () t) :
    (∀ op ∈ s.operations, op.Runs ctx.minimal) ∧ (s.operations.map Operation.item).reverse = t := by
  have hw : s.isWellFormed = true := (Bool.and_eq_true _ _ ▸ hp).1
  obtain ⟨-, m, hrun, -, rfl⟩ := evalScript_ok.mp h
  obtain ⟨hruns, hitems⟩ :=
    Machine.run_pushOnly rfl (List.isEmpty_iff.mp hw) (Script.operations_le_sixteen hp) hrun
  rw [List.append_nil] at hitems
  exact ⟨hruns, hitems.symm⟩

/-- Where pushes have to be minimal, a script that only pushes is known from the stack it leaves. -/
theorem Script.eq_ofItems (hm : ctx.minimal = true) (hp : s.isPushOnly = true)
    (h : evalScript ctx s [] = .ok () t) :
    s = ofOperations (t.reverse.map Operation.ofItem) := by
  have hw : s.isWellFormed = true := (Bool.and_eq_true _ _ ▸ hp).1
  obtain ⟨hruns, hleft⟩ := runs_of_evalScript hp h
  have hops : ∀ op ∈ s.operations, Operation.ofItem op.item = op := by
    intro op hop
    exact (Operation.eq_ofItem (hm ▸ hruns op hop)).symm
  have hitems : t.reverse = s.operations.map Operation.item := by
    rw [← hleft, List.reverse_reverse]
  calc s = ofOperations s.operations := (ofOperations_operations hw).symm
    _ = ofOperations (t.reverse.map Operation.ofItem) := by
      have hsame : s.operations.map (Operation.ofItem ∘ Operation.item) = s.operations.map id :=
        List.map_congr_left hops
      rw [hitems, List.map_map, hsame, List.map_id]

/-- Where pushes have to be minimal, two scripts that only push and leave the same stack are the
same. -/
theorem minimal_pushes_unique (ctx ctx' : Context) (a b : Script) (t : Stack)
    (hm : ctx.flags.has .minimalData = true) (hm' : ctx'.flags.has .minimalData = true)
    (ha : a.isPushOnly = true) (hb : b.isPushOnly = true) (hta : evalScript ctx a [] = .ok () t)
    (htb : evalScript ctx' b [] = .ok () t) : a = b := by
  rw [Script.eq_ofItems hm ha hta, Script.eq_ofItems hm' hb htb]

/-- The numbers 17 and 2, once as bytes and once as they are built. -/
theorem minimal_pushes_unique_numbers :
    (⟨[0x01, 0x11, 0x52]⟩ : Script) = (Script.empty.pushNumber 17).pushNumber 2 := by
  have hbytes : evalScript ⟨.only .minimalData, .none, 0⟩ ⟨[0x01, 0x11, 0x52]⟩ [] =
      .ok () [[2], [17]] := by decide +kernel
  have hbuilt : evalScript ⟨.ofList [.minimalData, .p2sh], .none, 201⟩
      ((Script.empty.pushNumber 17).pushNumber 2) [] = .ok () [[2], [17]] := by decide +kernel
  exact minimal_pushes_unique _ _ _ _ _ (by decide) (by decide) (by decide +kernel)
    (by decide +kernel) hbytes hbuilt

end CoinScript
