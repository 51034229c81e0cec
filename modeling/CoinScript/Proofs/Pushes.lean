import CoinScript.Proofs.MinimalPushes
import CoinScript.Script.Builder

namespace CoinScript

namespace Operation

/-- The data is as long as the code allows it to say. -/
def Sized (op : Operation) : Prop :=
  if op.code < Opcode.pushData1 then op.data.length = op.code.toNat
  else if op.code ≤ Opcode.pushData4 then op.data.length < 256 ^ lengthWidth op.code
  else op.data = []

/-- The code that announces `n` bytes of data. -/
def pushCode (n : Nat) : Opcode :=
  if n ≤ 75 then UInt8.ofNat n
  else if n ≤ 0xff then Opcode.pushData1
  else if n ≤ 0xffff then Opcode.pushData2
  else Opcode.pushData4

/-- An item behind the shortest code and length that announce it. -/
def pushing (item : Bytes) : Operation := ⟨pushCode item.length, item⟩

/-- The code of a small number that is not zero. -/
def ofNumber (n : Nat) : Operation := ⟨UInt8.ofNat (80 + n), []⟩

/-- Whether an item is a number that has a code of its own. -/
def isCoded : Bytes → Bool
  | [b] => (1 ≤ b && b ≤ 16) || b == 0x81
  | _ => false

variable {op : Operation} {bs rest item : Bytes} {n : Nat}

theorem sized_of_read? (h : read? bs = some (op, rest)) : op.Sized := by
  cases bs with
  | nil => cases h
  | cons code bs =>
    simp only [read?] at h
    split at h
    · next hlt =>
      obtain ⟨rfl, hn, -⟩ := ofData?_eq_some.mp h
      simpa [Sized, hlt] using hn
    · next hge =>
      split at h
      · next hle =>
        obtain ⟨⟨size, mid⟩, hs, hd⟩ := Option.bind_eq_some_iff.mp h
        obtain ⟨rfl, hn, -⟩ := ofData?_eq_some.mp hd
        have hsize := Bytes.toNatLE_lt size
        rw [(Bytes.split?_eq_some.mp hs).1] at hsize
        simpa [Sized, hge, hle, hn] using hsize
      · next hgt =>
        cases h
        simp [Sized, hge, hgt]

/-- A sized operation is read back from its bytes, whatever follows. The cases are those of the
reader. -/
theorem Sized.read?_bytes (h : op.Sized) (rest : Bytes) : read? (op.bytes ++ rest) = some (op, rest) := by
  obtain ⟨code, data⟩ := op
  unfold Sized at h
  dsimp only at h
  split at h
  · next hlt =>
    rw [bytes_direct hlt]
    exact read?_direct hlt h
  · next hge =>
    split at h
    · next hle =>
      have hn : data.length = Bytes.toNatLE (Bytes.ofNatLE (lengthWidth code) data.length) := by
        rw [Bytes.toNatLE_ofNatLE, Nat.mod_eq_of_lt h]
      have hsplit : Bytes.split? (lengthWidth code)
          (Bytes.ofNatLE (lengthWidth code) data.length ++ (data ++ rest)) =
            some (Bytes.ofNatLE (lengthWidth code) data.length, data ++ rest) :=
        Bytes.split?_eq_some.mpr ⟨Bytes.length_ofNatLE _ _, rfl⟩
      rw [bytes_announced hle (Bytes.length_ofNatLE _ _) hn, List.cons_append, List.append_assoc, read?,
        if_neg hge, if_pos hle, hsplit, Option.bind_some]
      exact ofData?_eq_some.mpr ⟨rfl, hn, rfl⟩
    · next hgt =>
      rw [h, bytes_bare (UInt8.not_le.mp hgt)]
      exact read?_code (UInt8.not_le.mp hgt)

theorem sized_bare {code : Opcode} (h : Opcode.pushData4 < code) : Sized ⟨code, []⟩ := by
  have hge : ¬ code < Opcode.pushData1 := fun hlt =>
    UInt8.not_le.mpr h (UInt8.le_of_lt (UInt8.lt_of_lt_of_le hlt (by decide)))
  simp [Sized, hge, UInt8.not_le.mpr h]

theorem Sized.read?_own (h : op.Sized) : read? op.bytes = some (op, []) := by
  simpa using h.read?_bytes []

theorem Sized.eq_of_bytes {op' : Operation} (h : op.Sized) (h' : op'.Sized)
    (hb : op.bytes = op'.bytes) : op = op' := by
  have hread := h.read?_own
  rw [hb, h'.read?_own] at hread
  cases hread
  rfl

theorem toNat_direct (h : n ≤ 75) : (UInt8.ofNat n).toNat = n :=
  UInt8.toNat_ofNat_of_lt' (Nat.lt_of_le_of_lt h (by decide))

theorem direct_lt (h : n ≤ 75) : UInt8.ofNat n < Opcode.pushData1 := by
  rw [UInt8.lt_iff_toNat_lt, toNat_direct h]
  exact Nat.lt_succ_of_le h

theorem sized_direct (h : item.length ≤ 75) : Sized ⟨UInt8.ofNat item.length, item⟩ := by
  simp [Sized, direct_lt h, toNat_direct h]

theorem pushCode_le (n : Nat) : pushCode n ≤ Opcode.pushData4 := by
  unfold pushCode
  split
  · next h => exact UInt8.le_of_lt (UInt8.lt_of_lt_of_le (direct_lt h) (by decide))
  · split
    · decide
    · split <;> decide

@[simp] theorem isPush_pushing (item : Bytes) : (pushing item).isPush = true :=
  decide_eq_true (pushCode_le item.length)

@[simp] theorem item_pushing (item : Bytes) : (pushing item).item = item :=
  item_of_push (isPush_pushing item)

theorem sized_pushing (h : item.length ≤ 0xffffffff) : (pushing item).Sized := by
  unfold Sized pushing pushCode
  dsimp only
  split
  · next h75 => rw [if_pos (direct_lt h75), toNat_direct h75]
  · split
    · next h1 => exact Nat.lt_succ_of_le h1
    · split
      · next h2 => exact Nat.lt_succ_of_le h2
      · exact Nat.lt_succ_of_le h

/-- The builder writes this operation. -/
theorem pushBytes_eq (h : item.length ≤ 0xffffffff) : Script.pushBytes item = .ok (pushing item).bytes := by
  have hbytes : (pushing item).bytes = pushCode item.length ::
      (Bytes.ofNatLE (lengthWidth (pushCode item.length)) item.length ++ item) := by
    rw [bytes, isPush_pushing]
    rfl
  rw [hbytes, Script.pushBytes, Script.pushHead, if_pos h]
  unfold pushCode
  split
  · next h75 =>
    rw [lengthWidth_of_lt (direct_lt h75)]
    rfl
  · split
    · rfl
    · split
      · rfl
      · rfl

/-- Items that are too long are refused. -/
theorem pushBytes_ok : Script.pushBytes item = .ok bs ↔ item.length ≤ 0xffffffff ∧ (pushing item).bytes = bs := by
  by_cases h : item.length ≤ 0xffffffff
  · simp [pushBytes_eq h, h]
  · have hhead : Script.pushHead item.length = .error .tooLong := by
      unfold Script.pushHead
      rw [if_neg (by omega), if_neg (by omega), if_neg (by omega), if_neg h]
    simp [Script.pushBytes, hhead, h, Except.map]

/-- The shortest push of an item is what the builder writes, except for a number that has a code of
its own. -/
theorem pushing_eq_ofItem (h : isCoded item = false) (hl : item.length ≤ 0xffff) :
    pushing item = ofItem item := by
  have hcode : pushCode item.length = shortestCode item := by
    match item with
    | [] => rfl
    | [b] =>
      have hcoded : ¬ (1 ≤ b ∧ b ≤ 16) ∧ b ≠ 0x81 := by simpa [isCoded] using h
      rw [shortestCode, if_neg hcoded.1, if_neg hcoded.2]
      rfl
    | _ :: _ :: _ =>
      simp only [pushCode, shortestCode, if_pos hl]
  rw [ofItem, ← hcode, if_pos (pushCode_le _)]
  rfl

theorem isCoded_iff : isCoded item = true ↔ ∃ b, item = [b] ∧ ((1 ≤ b ∧ b ≤ 16) ∨ b = 0x81) := by
  match item with
  | [] => simp [isCoded]
  | [b] => simp [isCoded]
  | _ :: _ :: _ => simp [isCoded]

/-- Only numbers of one byte have codes of their own. -/
theorem isCoded_of_length (h : 2 ≤ item.length) : isCoded item = false := by
  match item with
  | [] => rfl
  | [_] => exact absurd h (by decide : ¬ 2 ≤ 1)
  | _ :: _ :: _ => rfl

theorem isMinimalPush_pushing (h : isCoded item = false) : (pushing item).isMinimalPush = true := by
  match item with
  | [] => rfl
  | [b] =>
    have hcoded : ¬ (1 ≤ b ∧ b ≤ 16) ∧ b ≠ 0x81 := by simpa [isCoded] using h
    simp only [isMinimalPush, pushing, if_neg hcoded.1, if_neg hcoded.2]
    rfl
  | a :: b :: data =>
    simp only [isMinimalPush, pushing, pushCode]
    split
    · next h75 => rw [toNat_direct h75, beq_self_eq_true]
    · split
      · rfl
      · split <;> rfl

theorem not_isMinimalPush_pushing (h : isCoded item = true) : (pushing item).isMinimalPush = false := by
  obtain ⟨b, rfl, hcoded⟩ := isCoded_iff.mp h
  simp only [isMinimalPush, pushing]
  rcases hcoded with hb | rfl
  · rw [if_pos hb, beq_eq_false_iff_ne]
    intro hcode
    have h16 : b.toNat ≤ 16 := UInt8.le_iff_toNat_le.mp hb.2
    have hnat := congrArg UInt8.toNat hcode
    rw [UInt8.toNat_add] at hnat
    change 1 = (80 + b.toNat) % 256 at hnat
    omega
  · rfl

theorem lengthWidth_le (code : Opcode) : lengthWidth code ≤ 4 := by
  unfold lengthWidth
  split
  · decide
  · split
    · decide
    · split <;> decide

/-- Five bytes are enough for a code and a length. -/
theorem length_bytes_le (op : Operation) : op.bytes.length ≤ op.data.length + 5 := by
  have hwidth := lengthWidth_le op.code
  have hdata : (if op.isPush then op.data else []).length ≤ op.data.length := by
    split <;> simp
  rw [bytes, List.length_cons, List.length_append, lengthBytes, Bytes.length_ofNatLE]
  omega

theorem runs_pushing {minimal : Bool} (hl : item.length ≤ Fault.maxItem)
    (h : minimal = true → isCoded item = false) : (pushing item).Runs minimal where
  small := UInt8.le_trans (pushCode_le _) (by decide)
  defined hr := absurd (pushCode_le item.length) (by rw [show pushCode _ = _ from hr]; decide)
  bare hp := by rw [isPush_pushing] at hp; cases hp
  short := hl
  shortest hm _ := isMinimalPush_pushing (h hm)

end Operation

namespace Script

variable {s : Script} {items : List Bytes}

/-- The script that pushes items one after the other. -/
def ofPushes (items : List Bytes) : Script := ofOperations (items.map Operation.pushing)

theorem push_eq {item : Bytes} (h : item.length ≤ 0xffffffff) :
    s.push item = .ok (s.append (ofPushes [item]).bytes) := by
  rw [push, Operation.pushBytes_eq h, ofPushes, ofOperations, List.map_singleton,
    List.flatMap_singleton]
  rfl

@[simp] theorem append_ofPushes_nil : s.append (ofPushes []).bytes = s := by
  simp [append, ofPushes, ofOperations]

@[simp] theorem append_ofPushes (items more : List Bytes) :
    (s.append (ofPushes items).bytes).append (ofPushes more).bytes =
      s.append (ofPushes (items ++ more)).bytes := by
  simp [append, ofPushes, ofOperations]

theorem ofPushes_append (items more : List Bytes) :
    (ofPushes items).append (ofPushes more).bytes = ofPushes (items ++ more) := by
  simp [append, ofPushes, ofOperations]

theorem pushAll_eq (h : ∀ item ∈ items, item.length ≤ 0xffffffff) :
    s.pushAll items = .ok (s.append (ofPushes items).bytes) := by
  induction items generalizing s with
  | nil => simp [pushAll, append, ofPushes, ofOperations]
  | cons item items ih =>
    obtain ⟨hitem, hitems⟩ := List.forall_mem_cons.mp h
    rw [pushAll, push_eq hitem]
    dsimp only
    rw [ih hitems, append_ofPushes, List.singleton_append]

theorem ofPush_ok {item : Bytes} :
    ofPush item = .ok s ↔ item.length ≤ 0xffffffff ∧ ⟨(Operation.pushing item).bytes⟩ = s := by
  obtain ⟨bytes⟩ := s
  have hbytes : ofPush item = .ok ⟨bytes⟩ ↔ pushBytes item = .ok bytes := by
    unfold ofPush push
    cases pushBytes item <;> simp [append, empty, Except.map]
  rw [hbytes, Operation.pushBytes_ok, Script.mk.injEq]

theorem length_ofOperations_le {ops : List Operation} {k : Nat}
    (h : ∀ op ∈ ops, op.data.length ≤ k) : (ofOperations ops).length ≤ ops.length * (k + 5) := by
  induction ops with
  | nil => exact Nat.zero_le _
  | cons op ops ih =>
    obtain ⟨hop, hops⟩ := List.forall_mem_cons.mp h
    have hfirst := op.length_bytes_le
    have hrest : (ops.flatMap Operation.bytes).length ≤ ops.length * (k + 5) := ih hops
    rw [length, ofOperations, List.flatMap_cons, List.length_append, List.length_cons, Nat.add_one_mul]
    omega

theorem length_le_ofOperations (ops : List Operation) : ops.length ≤ (ofOperations ops).length := by
  induction ops with
  | nil => exact Nat.zero_le _
  | cons op ops ih =>
    have hrest : ops.length ≤ (ops.flatMap Operation.bytes).length := ih
    have hop : 0 < op.bytes.length := Nat.zero_lt_succ _
    rw [length, ofOperations, List.flatMap_cons, List.length_append, List.length_cons]
    omega

theorem length_ofPushes_le {k : Nat} (h : ∀ item ∈ items, item.length ≤ k) :
    (ofPushes items).length ≤ items.length * (k + 5) := by
  have hops : ∀ op ∈ items.map Operation.pushing, op.data.length ≤ k := by
    intro op hop
    obtain ⟨item, hitem, rfl⟩ := List.mem_map.mp hop
    exact h item hitem
  have hl := length_ofOperations_le hops
  rwa [List.length_map] at hl

/-- Operations in front of bytes that cannot be read are read back, and these bytes are the tail. -/
theorem parse_of_sized {ops : List Operation} {tail : Bytes} (hs : ∀ op ∈ ops, op.Sized)
    (ht : Operation.read? tail = none) : parse (ops.flatMap Operation.bytes ++ tail) = (ops, tail) := by
  induction ops with
  | nil => exact parse_of_none ht
  | cons op ops ih =>
    obtain ⟨hop, hops⟩ := List.forall_mem_cons.mp hs
    rw [List.flatMap_cons, List.append_assoc, parse_of_some (hop.read?_bytes _), ih hops]

theorem parse_ofOperations {ops : List Operation} (h : ∀ op ∈ ops, op.Sized) :
    parse (ofOperations ops).bytes = (ops, []) := by
  have hparse := parse_of_sized h (rfl : Operation.read? [] = none)
  rwa [List.append_nil] at hparse

theorem operations_ofOperations {ops : List Operation} (h : ∀ op ∈ ops, op.Sized) :
    (ofOperations ops).operations = ops :=
  congrArg Prod.fst (parse_ofOperations h)

theorem isPushOnly_ofOperations {ops : List Operation} (hs : ∀ op ∈ ops, op.Sized)
    (hc : ∀ op ∈ ops, op.code ≤ Opcode.sixteen) : (ofOperations ops).isPushOnly = true := by
  rw [isPushOnly, isWellFormed, tail, operations, parse_ofOperations hs, Bool.and_eq_true]
  exact ⟨rfl, List.all_eq_true.mpr fun op hop => decide_eq_true (hc op hop)⟩

theorem isPushOnly_ofPushes (h : ∀ item ∈ items, item.length ≤ 0xffffffff) :
    (ofPushes items).isPushOnly = true := by
  refine isPushOnly_ofOperations (fun op hop => ?_) fun op hop => ?_
  · obtain ⟨item, hitem, rfl⟩ := List.mem_map.mp hop
    exact Operation.sized_pushing (h item hitem)
  · obtain ⟨item, -, rfl⟩ := List.mem_map.mp hop
    exact UInt8.le_trans (Operation.pushCode_le item.length) (by decide)

/-- The operations that are read off a script have the lengths that they say. -/
theorem sized_parse (bs : Bytes) : ∀ op ∈ (parse bs).1, op.Sized := by
  cases h : Operation.read? bs with
  | none =>
    rw [parse_of_none h]
    exact List.forall_mem_nil _
  | some found =>
    obtain ⟨op, rest⟩ := found
    have hlt := Operation.read?_length h
    rw [parse_of_some h]
    exact List.forall_mem_cons.mpr ⟨Operation.sized_of_read? h, sized_parse rest⟩
termination_by bs.length

end Script

namespace Machine

variable {ctx : Context} {m : Machine} {script : Script} {rest : Bytes}

/-- Running operations that only push, whatever follows them. By induction on the operations; each
puts one item on the stack, and only its room has to be seen to. -/
theorem run_pushes_ok {ops : List Operation} {st : State} (hs : ∀ op ∈ ops, op.Sized)
    (hr : ∀ op ∈ ops, op.Runs ctx.minimal) (hx : st.isExecuting = true) :
    run ctx ⟨st, script, ops.flatMap Operation.bytes ++ rest⟩ = .ok () m ↔
      (ops = [] ∨ st.depth + ops.length ≤ Fault.maxDepth) ∧
        run ctx ⟨{ st with main := (ops.map Operation.item).reverse ++ st.main }, script, rest⟩ =
          .ok () m := by
  induction ops generalizing st with
  | nil => simp
  | cons op ops ih =>
    obtain ⟨hsized, hs⟩ := List.forall_mem_cons.mp hs
    obtain ⟨hruns, hr⟩ := List.forall_mem_cons.mp hr
    have hx' : State.isExecuting { st with main := op.item :: st.main } = true := hx
    have hdepth : State.depth { st with main := op.item :: st.main } = st.depth + 1 :=
      Nat.add_right_comm _ _ _
    have hmain : ((op :: ops).map Operation.item).reverse ++ st.main =
        (ops.map Operation.item).reverse ++ op.item :: st.main := by simp
    rw [List.flatMap_cons, List.append_assoc, run_read_ok (hsized.read?_bytes _), hmain]
    simp only [Effect.perform_pushOnly_ok hruns.small hx]
    constructor
    · intro h
      obtain ⟨-, _, ⟨-, -, rfl, hroom⟩, hrun⟩ := h
      obtain ⟨hmore, hrun⟩ := (ih hs hr hx').mp hrun
      rw [hdepth] at hroom hmore
      refine ⟨.inr ?_, hrun⟩
      rw [List.length_cons]
      rcases hmore with rfl | hmore
      · exact hroom
      · omega
    · intro h
      obtain ⟨hroom, hrun⟩ := h
      have hroom : st.depth + (ops.length + 1) ≤ Fault.maxDepth := by simpa using hroom
      refine ⟨hruns.short, _, ⟨hruns.defined, hruns.shortest, rfl, ?_⟩, ?_⟩
      · rw [hdepth]
        omega
      · refine (ih hs hr hx').mpr ⟨.inr ?_, hrun⟩
        rw [hdepth]
        omega

end Machine

variable {ctx : Context} {t : Stack}

/-- A script of pushes leaves the items that it pushes on top of what was there. -/
theorem evalScript_onto_ok {ops : List Operation} {below : Stack} (hs : ∀ op ∈ ops, op.Sized)
    (hr : ∀ op ∈ ops, op.Runs ctx.minimal) :
    evalScript ctx (Script.ofOperations ops) below = .ok () t ↔
      (Script.ofOperations ops).length ≤ Script.maxLength ∧
        (ops = [] ∨ below.length + ops.length ≤ Fault.maxDepth) ∧
        (ops.map Operation.item).reverse ++ below = t := by
  have hrun (st : State) (hx : st.isExecuting = true) (m : Machine) :=
    @Machine.run_pushes_ok ctx m (Script.ofOperations ops) [] ops st hs hr hx
  simp only [List.append_nil] at hrun
  rw [evalScript_ok]
  constructor
  · intro h
    obtain ⟨hl, m, h, -, rfl⟩ := h
    obtain ⟨hn, hm⟩ := (hrun _ rfl m).mp h
    rw [Machine.run_done rfl] at hm
    cases hm
    exact ⟨hl, hn, rfl⟩
  · intro h
    obtain ⟨hl, hn, rfl⟩ := h
    exact ⟨hl, _, (hrun _ rfl _).mpr ⟨hn, Machine.run_done rfl⟩, rfl, rfl⟩

theorem evalScript_pushes_ok {ops : List Operation} (hs : ∀ op ∈ ops, op.Sized)
    (hr : ∀ op ∈ ops, op.Runs ctx.minimal) :
    evalScript ctx (Script.ofOperations ops) [] = .ok () t ↔
      (Script.ofOperations ops).length ≤ Script.maxLength ∧ ops.length ≤ Fault.maxDepth ∧
        (ops.map Operation.item).reverse = t := by
  have hroom : (ops = [] ∨ List.length ([] : Stack) + ops.length ≤ Fault.maxDepth) ↔
      ops.length ≤ Fault.maxDepth := by
    cases ops <;> simp
  rw [evalScript_onto_ok hs hr, hroom, List.append_nil]

/-- A script that only pushes leaves the same items under all rules that let it run. -/
theorem evalScript_of_pushOnly {ctx' : Context} {s : Script} (hp : s.isPushOnly = true)
    (hm : ctx'.minimal = true → ctx.minimal = true) (h : evalScript ctx s [] = .ok () t) :
    evalScript ctx' s [] = .ok () t := by
  have hw : s.isWellFormed = true := (Bool.and_eq_true _ _ ▸ hp).1
  have hsized := Script.sized_parse s.bytes
  have hruns := (runs_of_evalScript hp h).1
  have hruns' : ∀ op ∈ s.operations, op.Runs ctx'.minimal := by
    intro op hop
    have hr := hruns op hop
    exact ⟨hr.small, hr.defined, hr.bare, hr.short, fun h => hr.shortest (hm h)⟩
  rw [← Script.ofOperations_operations hw] at h ⊢
  exact (evalScript_pushes_ok hsized hruns').mpr ((evalScript_pushes_ok hsized hruns).mp h)

theorem evalScript_ofPushes {items : List Bytes} (hl : (Script.ofPushes items).length ≤ Script.maxLength)
    (hn : items.length ≤ Fault.maxDepth) (hi : ∀ item ∈ items, item.length ≤ Fault.maxItem)
    (hc : ctx.minimal = true → ∀ item ∈ items, Operation.isCoded item = false) :
    evalScript ctx (Script.ofPushes items) [] = .ok () items.reverse := by
  have hsized : ∀ op ∈ items.map Operation.pushing, op.Sized := by
    intro op hop
    obtain ⟨item, hitem, rfl⟩ := List.mem_map.mp hop
    exact Operation.sized_pushing (Nat.le_trans (hi item hitem) (by decide))
  have hruns : ∀ op ∈ items.map Operation.pushing, op.Runs ctx.minimal := by
    intro op hop
    obtain ⟨item, hitem, rfl⟩ := List.mem_map.mp hop
    exact Operation.runs_pushing (hi item hitem) fun hm => hc hm item hitem
  refine (evalScript_pushes_ok hsized hruns).mpr ⟨hl, by rwa [List.length_map], ?_⟩
  simp [Function.comp_def]

end CoinScript
