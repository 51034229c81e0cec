import CoinScript.Proofs.OffsetReading
import CoinScript.Proofs.Steps
import CoinScript.Script.Assembly
import CoinScript.Script.SigOps

namespace CoinScript

/-- A way to go through a byte string: what is made of an operation between two offsets, given what
is made of everything behind it; of an offset where nothing can be read; and of the end. -/
structure Walker (α : Type) where
  visit (op : Operation) (pos next : Nat) (onward : α) : α
  broken (pos : Nat) : α
  done : α

/-- An operation and the offsets where it begins and ends. -/
structure Passage where
  op : Operation
  pos : Nat
  next : Nat

namespace Walker

variable {α : Type} {bs : Bytes} {w : Walker α} {stuck : α}

/-- Goes on from an offset. Where the allowed number of operations is not enough, it is stuck. -/
def run (w : Walker α) (bs : Bytes) (stuck : α) : (allowed pos : Nat) → α
  | 0, pos => if bs.length ≤ pos then w.done else stuck
  | allowed + 1, pos =>
    if bs.length ≤ pos then w.done
    else
      match Operation.readAt? bs pos with
      | none => w.broken pos
      | some (op, next) => w.visit op pos next (w.run bs stuck allowed next)

/-- The function makes of what is left of a byte string what the walker makes of it. -/
structure Follows (w : Walker α) (bs : Bytes) (f : Bytes → α) : Prop where
  done : f [] = w.done
  broken : ∀ pos < bs.length, Operation.read? (bs.drop pos) = none → f (bs.drop pos) = w.broken pos
  visit : ∀ pos op next, Operation.readAt? bs pos = some (op, next) →
    f (bs.drop pos) = w.visit op pos next (f (bs.drop next))

/-- As many operations as there are bytes left are enough. By induction on their number: each
operation that is read leaves fewer bytes. -/
theorem Follows.run_eq {f : Bytes → α} (h : w.Follows bs f) {allowed pos : Nat}
    (hl : bs.length ≤ allowed + pos) : w.run bs stuck allowed pos = f (bs.drop pos) := by
  induction allowed generalizing pos with
  | zero =>
    have hend : bs.length ≤ pos := by omega
    rw [run, if_pos hend, List.drop_eq_nil_of_le hend, h.done]
  | succ allowed ih =>
    rw [run]
    split
    · next hend => rw [List.drop_eq_nil_of_le hend, h.done]
    · next hend =>
      split
      · next hr =>
        rw [Operation.readAt?_eq, Option.map_eq_none_iff] at hr
        exact (h.broken pos (by omega) hr).symm
      · next op next hr =>
        have hnext := (Operation.bounds_of_readAt? hr).1
        rw [ih (by omega), h.visit pos op next hr]

theorem Follows.run_whole {f : Bytes → α} (h : w.Follows bs f) : w.run bs stuck bs.length 0 = f bs :=
  h.run_eq (Nat.le_add_right _ _)

end Walker

/-- Operations that stand one behind the other between two offsets. -/
def Passage.Connect (bs : Bytes) : (pos : Nat) → List Passage → (stop : Nat) → Prop
  | pos, [], stop => pos = stop
  | pos, p :: ps, stop =>
    p.pos = pos ∧ Operation.readAt? bs pos = some (p.op, p.next) ∧ Connect bs p.next ps stop

theorem Passage.Connect.length_le {bs : Bytes} {pos stop : Nat} {ps : List Passage}
    (h : Connect bs pos ps stop) : pos + ps.length ≤ stop := by
  induction ps generalizing pos with
  | nil => exact Nat.le_of_eq h
  | cons p ps ih =>
    obtain ⟨-, hr, hrest⟩ := h
    have hnext := (Operation.bounds_of_readAt? hr).1
    have hle := ih hrest
    rw [List.length_cons]
    omega

namespace Walker

variable {α : Type} {bs : Bytes} {w : Walker α} {stuck : α} {allowed pos : Nat}

/-- Collects the operations and the offset where the walk ends. -/
def collecting (size : Nat) : Walker (List Passage × Nat) where
  visit op pos next onward := (⟨op, pos, next⟩ :: onward.1, onward.2)
  broken pos := ([], pos)
  done := ([], size)

/-- The operations of a byte string with their offsets, and the offset where they end. -/
def passages (bs : Bytes) : List Passage × Nat := (collecting bs.length).run bs ([], 0) bs.length 0

/-- What a walker makes of passages one after the other. -/
def fold (w : Walker α) (size : Nat) (trail : List Passage × Nat) : α :=
  trail.1.foldr (fun p onward => w.visit p.op p.pos p.next onward)
    (if trail.2 = size then w.done else w.broken trail.2)

/-- From an offset on, all walks go through the same passages, up to the end or to where nothing can
be read. By induction on the number of operations. -/
theorem run_eq_fold_from {lost : List Passage × Nat} (hl : bs.length ≤ allowed + pos) (hpos : pos ≤ bs.length) :
    ∃ trail, (collecting bs.length).run bs lost allowed pos = trail ∧
      Passage.Connect bs pos trail.1 trail.2 ∧
      (trail.2 = bs.length ∨ trail.2 < bs.length ∧ Operation.readAt? bs trail.2 = none) ∧
      ∀ (α : Type) (w : Walker α) (stuck : α), w.run bs stuck allowed pos = w.fold bs.length trail := by
  induction allowed generalizing pos with
  | zero =>
    have hend : bs.length ≤ pos := by omega
    refine ⟨_, if_pos hend, Nat.le_antisymm hpos hend, .inl rfl, fun α w stuck => ?_⟩
    rw [run, if_pos hend]
    exact (if_pos rfl).symm
  | succ allowed ih =>
    by_cases hend : bs.length ≤ pos
    · refine ⟨_, if_pos hend, Nat.le_antisymm hpos hend, .inl rfl, fun α w stuck => ?_⟩
      rw [run, if_pos hend]
      exact (if_pos rfl).symm
    · have hlt : pos < bs.length := Nat.lt_of_not_le hend
      cases hr : Operation.readAt? bs pos with
      | none =>
        refine ⟨([], pos), by rw [run, if_neg hend, hr]; rfl, rfl, .inr ⟨hlt, hr⟩, fun α w stuck => ?_⟩
        rw [run, if_neg hend, hr]
        exact (if_neg (Nat.ne_of_lt hlt)).symm
      | some found =>
        obtain ⟨op, next⟩ := found
        obtain ⟨hnext, hbound, -⟩ := Operation.bounds_of_readAt? hr
        obtain ⟨trail, hcollect, hconnect, hstop, hfold⟩ := ih (by omega) hbound
        refine ⟨(⟨op, pos, next⟩ :: trail.1, trail.2), ?_, ⟨rfl, hr, hconnect⟩, hstop, fun α w stuck => ?_⟩
        · rw [run, if_neg hend, hr, ← hcollect]
          rfl
        · rw [run, if_neg hend, hr]
          dsimp only
          rw [hfold α w stuck]
          rfl

theorem passages_spec (bs : Bytes) :
    Passage.Connect bs 0 (passages bs).1 (passages bs).2 ∧
      ((passages bs).2 = bs.length ∨
        (passages bs).2 < bs.length ∧ Operation.readAt? bs (passages bs).2 = none) ∧
      (passages bs).1.length ≤ bs.length ∧
      ∀ (α : Type) (w : Walker α) (stuck : α), w.run bs stuck bs.length 0 = w.fold bs.length (passages bs) := by
  obtain ⟨_, rfl, hconnect, hstop, hfold⟩ :=
    run_eq_fold_from (Nat.le_add_right bs.length 0) (Nat.zero_le _)
  have hcount : 0 + (passages bs).1.length ≤ (passages bs).2 := hconnect.length_le
  have hwithin : (passages bs).2 ≤ bs.length := hstop.elim Nat.le_of_eq fun h => Nat.le_of_lt h.1
  exact ⟨hconnect, hstop, by omega, hfold⟩

end Walker

/-- The operations of a script one after the other, and an error where it is cut short. -/
def Script.readings (s : Script) : List (Except ScriptFault Operation) :=
  s.operations.map .ok ++ if s.isWellFormed then [] else [.error .truncated]

namespace Walker

def iterating : Walker (List (Except ScriptFault Operation)) where
  visit op _ _ onward := .ok op :: onward
  broken _ := [.error .truncated]
  done := []

def decoding : Walker (Except ScriptFault (List Operation)) where
  visit op _ _ onward := onward.map (op :: ·)
  broken _ := .error .truncated
  done := .ok []

def assembling : Walker (List String) where
  visit op _ _ onward := op.assembly :: onward
  broken _ := ["[error]"]
  done := []

/-- Looks for an operation that is no push. -/
def screening : Walker Bool where
  visit op _ _ onward := op.code ≤ Opcode.sixteen && onward
  broken _ := false
  done := true

/-- Counts signature checks, given the code before the next operation. -/
def counting (flags : Flags) (accurate : Bool) : Walker (Opcode → Nat) where
  visit op _ _ onward before := Script.sigOpsOf flags accurate before op.code + onward op.code
  broken _ _ := 0
  done _ := 0

/-- A function of what is left follows a walker if it does the same with each operation, at the end
and where nothing can be read. -/
theorem follows_of_parse {α : Type} (w : Walker α) (f : List Operation × Bytes → α) (bs : Bytes)
    (hdone : f ([], []) = w.done) (hbroken : ∀ pos tail, tail ≠ [] → f ([], tail) = w.broken pos)
    (hvisit : ∀ op pos next ops tail, f (op :: ops, tail) = w.visit op pos next (f (ops, tail))) :
    w.Follows bs (fun rest => f (Script.parse rest)) where
  done := by rw [Script.parse_of_none rfl, hdone]
  broken pos hpos hr := by
    rw [Script.parse_of_none hr]
    refine hbroken pos _ fun hnil => ?_
    rw [List.drop_eq_nil_iff] at hnil
    omega
  visit pos op next hr := by
    rw [Script.parse_of_some (Operation.bounds_of_readAt? hr).2.2]
    exact hvisit op pos next _ _

variable {α : Type} {s : Script}

theorem run_iterating (stuck : List (Except ScriptFault Operation)) :
    iterating.run s.bytes stuck s.length 0 = s.readings := by
  refine (follows_of_parse iterating
    (fun parsed => parsed.1.map Except.ok ++ if parsed.2.isEmpty then [] else [.error .truncated])
    s.bytes rfl (fun pos tail h => ?_) fun _ _ _ _ _ => rfl).run_whole
  rw [List.isEmpty_eq_false_iff.mpr h]
  rfl

theorem run_decoding (stuck : Except ScriptFault (List Operation)) :
    decoding.run s.bytes stuck s.length 0 = s.decode := by
  refine (follows_of_parse decoding
    (fun parsed => if parsed.2.isEmpty then .ok parsed.1 else .error .truncated)
    s.bytes rfl (fun pos tail h => ?_) fun op pos next ops tail => ?_).run_whole
  · rw [List.isEmpty_eq_false_iff.mpr h]
    rfl
  · cases tail <;> rfl

theorem run_assembling (stuck : List String) :
    " ".intercalate (assembling.run s.bytes stuck s.length 0) = s.assembly := by
  refine congrArg " ".intercalate (follows_of_parse assembling
    (fun parsed => parsed.1.map Operation.assembly ++ if parsed.2.isEmpty then [] else ["[error]"])
    s.bytes rfl (fun pos tail h => ?_) fun _ _ _ _ _ => rfl).run_whole
  rw [List.isEmpty_eq_false_iff.mpr h]
  rfl

theorem run_screening (stuck : Bool) : screening.run s.bytes stuck s.length 0 = s.isPushOnly := by
  refine (follows_of_parse screening
    (fun parsed => parsed.2.isEmpty && parsed.1.all fun op => op.code ≤ Opcode.sixteen)
    s.bytes rfl (fun pos tail h => ?_) fun _ _ _ _ _ => Bool.and_left_comm _ _ _).run_whole
  rw [List.isEmpty_eq_false_iff.mpr h]
  rfl

theorem run_counting (flags : Flags) (accurate : Bool) (stuck : Opcode → Nat) :
    (counting flags accurate).run s.bytes stuck s.length 0 0xff = s.sigOps flags accurate :=
  congrFun (follows_of_parse (counting flags accurate)
    (fun parsed before => Script.countSigOps flags accurate before parsed.1)
    s.bytes rfl (fun _ _ _ => rfl) fun _ _ _ _ _ => rfl).run_whole 0xff

end Walker

namespace Walker

variable {ctx : Context} {script : Script}

/-- Performs each operation that is no longer than an item may be, until one fails. -/
def evaluating (ctx : Context) (script : Script) :
    Walker (State → EStateM.Result Fault Machine Unit) where
  visit op pos next onward st :=
    if op.data.length ≤ Fault.maxItem then
      match Effect.perform ctx op (script.bytes.drop next) st with
      | .ok () st' => onward st'
      | .error fault st' => .error fault ⟨st', script, script.bytes.drop next⟩
    else .error (.pushSize op.data.length) ⟨st, script, script.bytes.drop pos⟩
  broken pos st := .error (.malformedPush pos) ⟨st, script, script.bytes.drop pos⟩
  done st := .ok () ⟨st, script, []⟩

theorem follows_evaluating :
    (evaluating ctx script).Follows script.bytes (fun rest st => Machine.run ctx ⟨st, script, rest⟩) where
  done := funext fun _ => Machine.run_done rfl
  broken pos hpos hr := by
    funext st
    have hfinished : Machine.isFinished ⟨st, script, script.bytes.drop pos⟩ = false := by
      refine List.isEmpty_eq_false_iff.mpr fun hnil => ?_
      rw [List.drop_eq_nil_iff] at hnil
      omega
    have hposition : Machine.position ⟨st, script, script.bytes.drop pos⟩ = pos := by
      simp only [Machine.position, Script.length, List.length_drop]
      omega
    apply Machine.run_step_error hfinished
    rw [Machine.step, Machine.next, hr]
    dsimp only
    rw [hposition]
  visit pos op next hr := by
    funext st
    have hread := (Operation.bounds_of_readAt? hr).2.2
    unfold evaluating
    dsimp only
    split
    · next hl =>
      cases hp : Effect.perform ctx op (script.bytes.drop next) st with
      | ok u st' => exact Machine.run_of_perform_ok hread hl hp
      | error fault st' => exact Machine.run_of_perform_error hread hl hp
    · next hl => exact Machine.run_of_push_size hread hl

theorem run_evaluating (st : State) (stuck : State → EStateM.Result Fault Machine Unit) :
    (evaluating ctx script).run script.bytes stuck script.length 0 st =
      Machine.run ctx ⟨st, script, script.bytes⟩ :=
  congrFun follows_evaluating.run_whole st

end Walker

namespace Operation

/-- Complete operations written one behind the other. -/
inductive Forms : List Operation → Bytes → Prop
  | nil : Forms [] []
  | cons {op : Operation} {ops : List Operation} {written bs : Bytes} (h : Form op written)
      (hs : Forms ops bs) : Forms (op :: ops) (written ++ bs)

theorem forms_iff_parse {ops : List Operation} {bs : Bytes} : Forms ops bs ↔ Script.parse bs = (ops, []) := by
  constructor
  · intro h
    induction h with
    | nil => exact Script.parse_of_none rfl
    | cons h _ ih => rw [Script.parse_of_some (read?_eq_some.mpr ⟨_, h, rfl⟩), ih]
  · intro h
    induction ops generalizing bs with
    | nil =>
      have hbytes := Script.bytes_parse bs
      rw [h] at hbytes
      subst hbytes
      exact .nil
    | cons op ops ih =>
      cases hr : read? bs with
      | none =>
        rw [Script.parse_of_none hr] at h
        cases h
      | some found =>
        obtain ⟨op', rest⟩ := found
        obtain ⟨written, hform, rfl⟩ := read?_eq_some.mp hr
        rw [Script.parse_of_some hr, Prod.mk.injEq, List.cons.injEq] at h
        obtain ⟨⟨rfl, hops⟩, htail⟩ := h
        exact .cons hform (ih (Prod.ext hops htail))

end Operation

theorem Script.decode_ok {bs : Bytes} {ops : List Operation} :
    decode ⟨bs⟩ = .ok ops ↔ parse bs = (ops, []) := by
  unfold decode isWellFormed tail operations
  dsimp only
  cases parse bs with
  | mk read left => cases left <;> simp

open Walker in
/-- Parsing undoes writing and writing undoes parsing, and a script parses exactly if it consists of
complete operations. Whatever is read at an offset ends further on within the script. So all that
goes through a script goes through the same passages, and no more of them than it has bytes. -/
theorem parsing_and_writing (bs : Bytes) :
    (∀ ops, Script.decode ⟨bs⟩ = .ok ops ↔ Operation.Forms ops bs) ∧
    (∀ ops, Script.decode ⟨bs⟩ = .ok ops → ops.flatMap Operation.bytes = bs) ∧
    (∀ ops : List Operation, (∀ op ∈ ops, op.Sized) → (Script.ofOperations ops).decode = .ok ops) ∧
    (∀ pos, Operation.readAt? bs pos =
      (Operation.read? (bs.drop pos)).map fun found => (found.1, bs.length - found.2.length)) ∧
    (∀ pos op next, Operation.readAt? bs pos = some (op, next) → pos < next ∧ next ≤ bs.length) ∧
    (Passage.Connect bs 0 (passages bs).1 (passages bs).2 ∧
      ((passages bs).2 = bs.length ∨
        (passages bs).2 < bs.length ∧ Operation.readAt? bs (passages bs).2 = none) ∧
      (passages bs).1.length ≤ bs.length ∧
      ∀ (α : Type) (w : Walker α) (stuck : α), w.run bs stuck bs.length 0 = w.fold bs.length (passages bs)) ∧
    (∀ stuck, iterating.run bs stuck bs.length 0 = Script.readings ⟨bs⟩) ∧
    (∀ stuck, decoding.run bs stuck bs.length 0 = Script.decode ⟨bs⟩) ∧
    (∀ stuck, " ".intercalate (assembling.run bs stuck bs.length 0) = Script.assembly ⟨bs⟩) ∧
    (∀ stuck, screening.run bs stuck bs.length 0 = Script.isPushOnly ⟨bs⟩) ∧
    (∀ flags accurate stuck,
      (counting flags accurate).run bs stuck bs.length 0 0xff = Script.sigOps ⟨bs⟩ flags accurate) ∧
    ∀ ctx st stuck, (evaluating ctx ⟨bs⟩).run bs stuck bs.length 0 st = Machine.run ctx ⟨st, ⟨bs⟩, bs⟩ := by
  refine ⟨fun ops => Script.decode_ok.trans Operation.forms_iff_parse.symm, fun ops h => ?_, fun ops h => ?_,
    Operation.readAt?_eq bs, fun pos op next h => ?_, passages_spec bs, run_iterating, run_decoding,
    run_assembling, run_screening, run_counting, fun ctx => run_evaluating⟩
  · have hbytes := Script.bytes_parse bs
    rwa [Script.decode_ok.mp h, List.append_nil] at hbytes
  · exact Script.decode_ok.mpr (Script.parse_ofOperations h)
  · obtain ⟨hlt, hle, -⟩ := Operation.bounds_of_readAt? h
    exact ⟨hlt, hle⟩

end CoinScript
