import CoinScript.Proofs.CheckedSteps
import CoinScript.Proofs.OffsetReading
import CoinScript.Proofs.Reading
import Mathlib.Data.List.Forall2

namespace CoinScript.Wire

namespace Field

/-- Appends a count by the number of bytes that it takes. -/
def appendCompact (buffer : Bytes) (n : Nat) : Bytes :=
  match CompactSize.width n with
  | 1 => buffer ++ [UInt8.ofNat n]
  | 3 => buffer ++ [0xfd] ++ Bytes.ofNatLE 2 n
  | 5 => buffer ++ [0xfe] ++ Bytes.ofNatLE 4 n
  | _ => buffer ++ [0xff] ++ Bytes.ofNatLE 8 n

def writeTo (buffer : Bytes) : Field → Bytes
  | .uint8 n => buffer ++ [n]
  | .uint32 n => buffer ++ Bytes.ofNatLE 4 n.toNat
  | .int32 n => buffer ++ Bytes.ofNatLE 4 n.toUInt32.toNat
  | .uint64 n => buffer ++ Bytes.ofNatLE 8 n.toNat
  | .int64 n => buffer ++ Bytes.ofNatLE 8 n.toUInt64.toNat
  | .compact n => appendCompact buffer n.toNat
  | .raw bs => buffer ++ bs
  | .sized bs => appendCompact buffer bs.length ++ bs

/-- Writes fields one after the other into an empty buffer. -/
def writeAll (fields : List Field) : Bytes := fields.foldl writeTo []

/-- What is asked for to read a field back. -/
def kind : Field → FieldKind
  | .uint8 _ => .uint8
  | .uint32 _ | .int32 _ => .uint32
  | .uint64 _ | .int64 _ => .uint64
  | .compact _ => .compact
  | .raw bs => .raw bs.length
  | .sized _ => .sized

/-- What is found. Signed numbers are found in two's complement. -/
def value : Field → FieldValue
  | .uint8 n => .number n.toNat
  | .uint32 n => .number n.toNat
  | .int32 n => .number (n.toInt % 2 ^ 32).toNat
  | .uint64 n => .number n.toNat
  | .int64 n => .number (n.toInt % 2 ^ 64).toNat
  | .compact n => .number n.toNat
  | .raw bs | .sized bs => .bytes bs

theorem appendCompact_eq (buffer : Bytes) (n : Nat) :
    appendCompact buffer n = buffer ++ CompactSize.encode n := by
  unfold appendCompact CompactSize.width CompactSize.encode
  by_cases h1 : n < 0xfd
  · rw [if_pos h1, if_pos h1]
    rfl
  · rw [if_neg h1, if_neg h1]
    by_cases h2 : n < 0x10000
    · rw [if_pos h2, if_pos h2]
      exact List.append_assoc _ _ _
    · rw [if_neg h2, if_neg h2]
      by_cases h4 : n < 0x100000000
      · rw [if_pos h4, if_pos h4]
        exact List.append_assoc _ _ _
      · rw [if_neg h4, if_neg h4]
        exact List.append_assoc _ _ _

theorem writeTo_eq (buffer : Bytes) (f : Field) : f.writeTo buffer = buffer ++ f.encode := by
  cases f with
  | compact n => exact appendCompact_eq buffer n.toNat
  | sized bs => rw [writeTo, appendCompact_eq, encode, CompactSize.sized, List.append_assoc]
  | _ => rfl

theorem writeAll_eq (fs : List Field) : writeAll fs = encodeAll fs := by
  have h (buffer : Bytes) : fs.foldl writeTo buffer = buffer ++ encodeAll fs := by
    induction fs generalizing buffer with
    | nil => exact (List.append_nil buffer).symm
    | cons f fs ih => rw [List.foldl_cons, ih, writeTo_eq, encodeAll_cons, List.append_assoc]
  exact h []

/-- A word spells the residue of the number that it holds. -/
theorem toNat_residue {w : Nat} (word : BitVec w) : (word.toInt % 2 ^ w).toNat = word.toNat := by
  have hlt : (word.toNat : Int) < ((2 ^ w : Nat) : Int) := Int.ofNat_lt.mpr word.isLt
  have hres : word.toInt % ((2 ^ w : Nat) : Int) = word.toNat := by
    rw [BitVec.toInt_eq_toNat_bmod, Int.bmod_emod, Int.emod_eq_of_lt (Int.natCast_nonneg _) hlt]
  rw [Int.natCast_pow] at hres
  exact congrArg Int.toNat hres

variable {f : Field}

/-- A length that is written in front of bytes has to be a word. -/
def Fits : Field → Prop
  | .sized bs => bs.length < 2 ^ 64
  | _ => True

theorem read_takes (h : f.Fits) : Takes f.kind.read f.encode f.value := by
  have hnumber {r : Reader Nat} {form : Bytes} {n : Nat} (hr : Takes r form n) :
      Takes (FieldValue.number <$> r) form (.number n) := by
    rw [← bind_pure_comp]
    exact hr.mapped FieldValue.number
  have hbytes {r : Reader Bytes} {form bs : Bytes} (hr : Takes r form bs) :
      Takes (FieldValue.bytes <$> r) form (.bytes bs) := by
    rw [← bind_pure_comp]
    exact hr.mapped FieldValue.bytes
  cases f with
  | uint8 n => exact hnumber (Reader.byte_takes n)
  | uint32 n => exact hnumber (Reader.nat_takes (k := 4) n.toNat_lt)
  | int32 n =>
    have hvalue : (n.toInt % 2 ^ 32).toNat = n.toUInt32.toNat := toNat_residue n.toBitVec
    rw [value, hvalue]
    exact hnumber (Reader.nat_takes (k := 4) n.toUInt32.toNat_lt)
  | uint64 n => exact hnumber (Reader.nat_takes (k := 8) n.toNat_lt)
  | int64 n =>
    have hvalue : (n.toInt % 2 ^ 64).toNat = n.toUInt64.toNat := toNat_residue n.toBitVec
    rw [value, hvalue]
    exact hnumber (Reader.nat_takes (k := 8) n.toUInt64.toNat_lt)
  | compact n => exact hnumber (Reader.compactSize_takes n.toNat_lt)
  | raw bs => exact hbytes (Reader.bytes_takes bs)
  | sized bs => exact hbytes (Reader.sizedBytes_takes h)

/-- By induction on the fields, each of which is read off the front. -/
theorem readAll_takes {fs : List Field} (h : ∀ f ∈ fs, f.Fits) :
    Takes ((fs.map kind).mapM FieldKind.read) (encodeAll fs) (fs.map value) := by
  induction fs with
  | nil => exact .pure []
  | cons f fs ih =>
    obtain ⟨hf, hfs⟩ := List.forall_mem_cons.mp h
    rw [List.map_cons, List.mapM_cons, encodeAll_cons]
    exact (read_takes hf).bind ((ih hfs).mapped (f.value :: ·))

/-- Fields that are in memory as a whole have lengths that are words. -/
theorem fits_of_length {fs : List Field} (h : (encodeAll fs).length < 2 ^ 64) : ∀ f ∈ fs, f.Fits := by
  intro f hf
  cases f with
  | sized bs =>
    obtain ⟨before, behind, rfl⟩ := List.append_of_mem hf
    rw [encodeAll_append, encodeAll_cons, encode, CompactSize.sized] at h
    simp only [List.length_append] at h
    change bs.length < 2 ^ 64
    omega
  | _ => trivial

end Field

namespace Reader

variable {n k : Nat} {bs rest : Bytes}

theorem nat_lt (h : nat k bs = .ok n rest) : n < 256 ^ k := by
  obtain ⟨form, mid, -, hn⟩ := Effect.bind_ok.mp h
  obtain ⟨rfl, -⟩ := Effect.pure_ok.mp hn
  have hlt := Bytes.toNatLE_lt form.bytes
  rwa [form.length_eq] at hlt

/-- A count is a word, whichever form it is written in. -/
theorem compactSize_lt (h : compactSize bs = .ok n rest) : n < 2 ^ 64 := by
  obtain ⟨marker, mid, hmarker, hn⟩ := Effect.bind_ok.mp h
  split at hn
  · exact nat_lt hn
  · exact Nat.lt_trans (nat_lt hn) (by decide)
  · exact Nat.lt_trans (nat_lt hn) (by decide)
  · obtain ⟨rfl, -⟩ := Effect.pure_ok.mp hn
    exact Nat.lt_trans (nat_lt hmarker) (by decide)

end Reader

structure Cursor where
  data : Bytes
  pos : Nat

/-- A checked step of a cursor. -/
abbrev CursorStep (α : Type) := EStateM (Stop ReadFault) Cursor α

namespace Cursor

open Checked

/-- The next `n` bytes. Neither a sum that is no word nor an offset beyond the data is reached. -/
def bytes (n : Nat) : CursorStep Bytes := do
  let c ← get
  let stop := c.pos + n
  demand (stop < 2 ^ 64 ∧ stop ≤ c.data.length) (.fault .unexpectedEnd)
  let part ← found (c.data.between? c.pos stop)
  set { c with pos := stop }
  return part

/-- The next `n` bytes, copied to where exactly `n` bytes have room. -/
def take (n : Nat) : CursorStep (FixedBytes n) := do found (FixedBytes.ofBytes? (← bytes n))

def nat (n : Nat) : CursorStep Nat := do return Bytes.toNatLE (← take n).bytes

/-- The number that the first byte is, or the one behind it. -/
def announced : Nat → CursorStep Nat
  | 255 => nat 8
  | 254 => nat 4
  | 253 => nat 2
  | n => return n

def compactSize : CursorStep Nat := do announced (← nat 1)

/-- A compact size has to be a word to count bytes. -/
def sizedBytes : CursorStep Bytes := do bytes (← word 64 (← compactSize))

end Cursor

namespace FieldKind

def readAt : FieldKind → CursorStep FieldValue
  | .uint8 => FieldValue.number <$> Cursor.nat 1
  | .uint16 => FieldValue.number <$> Cursor.nat 2
  | .uint32 => FieldValue.number <$> Cursor.nat 4
  | .uint64 => FieldValue.number <$> Cursor.nat 8
  | .compact => FieldValue.number <$> Cursor.compactSize
  | .raw n => FieldValue.bytes <$> Cursor.bytes n
  | .sized => FieldValue.bytes <$> Cursor.sizedBytes

/-- Readings of as many bytes as they are told, which are taken as they are. -/
def IsPlain : FieldKind → Prop
  | .uint8 | .uint16 | .uint32 | .uint64 | .raw _ => True
  | .compact | .sized => False

/-- Each reading goes on from where the cursor is, whether the one before it failed or not. There is
no answer once a reading has broken. -/
def readAllAt : List FieldKind → Cursor → Option (List (Except ReadFault FieldValue × Cursor))
  | [], _ => some []
  | kind :: kinds, c =>
    match kind.readAt c with
    | .ok v c => (readAllAt kinds c).map ((.ok v, c) :: ·)
    | .error (.fault f) c => (readAllAt kinds c).map ((.error f, c) :: ·)
    | .error .broken _ => none

end FieldKind

namespace Cursor

open Checked

/-- The cursor is within the data, and these bytes are left. -/
structure At (data rest : Bytes) (c : Cursor) : Prop where
  data_eq : c.data = data
  pos_le : c.pos ≤ data.length
  drop_eq : data.drop c.pos = rest

variable {data front rest : Bytes} {c : Cursor} {n : Nat}

theorem At.start (data : Bytes) : At data data ⟨data, 0⟩ := ⟨rfl, Nat.zero_le _, rfl⟩

theorem At.pos_eq (h : At data rest c) : c.pos = data.length - rest.length := by
  have hle := h.pos_le
  rw [← h.drop_eq, List.length_drop]
  omega

theorem At.next (h : At data (front ++ rest) c) : At data rest ⟨c.data, c.pos + front.length⟩ where
  data_eq := h.data_eq
  pos_le := by
    have hle := h.pos_le
    have hlength := congrArg List.length h.drop_eq
    rw [List.length_drop, List.length_append] at hlength
    change c.pos + front.length ≤ data.length
    omega
  drop_eq := by
    change data.drop (c.pos + front.length) = rest
    rw [← List.drop_drop, h.drop_eq, List.drop_left]

theorem exists_front (h : n ≤ rest.length) :
    ∃ front behind, rest = front ++ behind ∧ front.length = n :=
  ⟨rest.take n, rest.drop n, (List.take_append_drop n rest).symm, List.length_take_of_le h⟩

theorem At.between_eq (h : At data (front ++ rest) c) :
    c.data.between? c.pos (c.pos + front.length) = some front := by
  have hnext := h.next.pos_le
  rw [Bytes.between?, h.data_eq, if_pos ⟨Nat.le_add_right _ _, hnext⟩, h.drop_eq, Nat.add_sub_cancel_left,
    List.take_left]

theorem bytes_of_append (hdata : data.length < 2 ^ 64) (h : At data (front ++ rest) c) :
    bytes front.length c = .ok front ⟨c.data, c.pos + front.length⟩ := by
  have hnext : c.pos + front.length ≤ data.length := h.next.pos_le
  have hstop : c.pos + front.length < 2 ^ 64 ∧ c.pos + front.length ≤ c.data.length :=
    ⟨Nat.lt_of_le_of_lt hnext hdata, h.data_eq.symm ▸ hnext⟩
  change (demand _ _ >>= fun _ => found _ >>= fun part => _) c = _
  rw [demand_eq (decide_eq_true hstop), h.between_eq]
  rfl

theorem bytes_of_short (h : At data rest c) (hn : rest.length < n) :
    bytes n c = .error (.fault .unexpectedEnd) c := by
  have hlength := congrArg List.length h.drop_eq
  rw [List.length_drop] at hlength
  have hstop : ¬ (c.pos + n < 2 ^ 64 ∧ c.pos + n ≤ c.data.length) := by
    rw [h.data_eq]
    omega
  change (demand _ _ >>= fun _ => _) c = _
  exact Effect.bind_of_error (demand_stop (mt of_decide_eq_true hstop))

theorem announced_of_ne (h8 : n ≠ 255) (h4 : n ≠ 254) (h2 : n ≠ 253) : announced n = pure n := by
  unfold announced
  split
  · exact absurd rfl h8
  · exact absurd rfl h4
  · exact absurd rfl h2
  · rfl

variable (hdata : data.length < 2 ^ 64)
include hdata

theorem bytes_simulates (n : Nat) : Simulates (At data) (bytes n) (Reader.bytes n) := by
  refine .of_outcomes fun rest c h => ?_
  rcases Nat.lt_or_ge rest.length n with hn | hn
  · exact .inr ⟨_, rest, c, Effect.bind_of_error (Reader.take_short hn), bytes_of_short h hn, h⟩
  · obtain ⟨front, behind, rfl, rfl⟩ := exists_front hn
    exact .inl ⟨front, behind, _, Reader.bytes_append front behind, bytes_of_append hdata h, h.next⟩

theorem take_simulates (n : Nat) : Simulates (At data) (take n) (Reader.take n) := by
  refine .of_outcomes fun rest c h => ?_
  rcases Nat.lt_or_ge rest.length n with hn | hn
  · exact .inr ⟨_, rest, c, Reader.take_short hn, Effect.bind_of_error (bytes_of_short h hn), h⟩
  · obtain ⟨front, behind, rfl, rfl⟩ := exists_front hn
    refine .inl ⟨⟨front, rfl⟩, behind, _, Reader.take_append front behind rfl, ?_, h.next⟩
    rw [take, Effect.bind_of_ok (bytes_of_append hdata h), FixedBytes.ofBytes?, dif_pos rfl]
    rfl

theorem nat_simulates (n : Nat) : Simulates (At data) (nat n) (Reader.nat n) :=
  (take_simulates hdata n).bind fun _ _ => .pure _

theorem compactSize_simulates : Simulates (At data) compactSize Reader.compactSize := by
  refine (nat_simulates hdata 1).bind fun marker _ => ?_
  split
  · exact nat_simulates hdata 8
  · exact nat_simulates hdata 4
  · exact nat_simulates hdata 2
  · next h8 h4 h2 =>
    rw [announced_of_ne h8 h4 h2]
    exact .pure marker

theorem sizedBytes_simulates : Simulates (At data) sizedBytes Reader.sizedBytes := by
  refine (compactSize_simulates hdata).bind fun n hn => ?_
  obtain ⟨bs, rest, hn⟩ := hn
  rw [word_eq (Reader.compactSize_lt hn), pure_bind]
  exact bytes_simulates hdata n

theorem readAt_simulates (kind : FieldKind) : Simulates (At data) kind.readAt kind.read := by
  cases kind with
  | uint8 => exact (nat_simulates hdata 1).map
  | uint16 => exact (nat_simulates hdata 2).map
  | uint32 => exact (nat_simulates hdata 4).map
  | uint64 => exact (nat_simulates hdata 8).map
  | compact => exact (compactSize_simulates hdata).map
  | raw n => exact (bytes_simulates hdata n).map
  | sized => exact (sizedBytes_simulates hdata).map

end Cursor

/-- An answer and what is left of the data, against the same answer and where the cursor is. -/
def Agrees (data : Bytes) (step : Except ReadFault FieldValue × Bytes)
    (stepAt : Except ReadFault FieldValue × Cursor) : Prop :=
  step.1 = stepAt.1 ∧ Cursor.At data step.2 stepAt.2

theorem within_of_agrees {data : Bytes} {steps : List (Except ReadFault FieldValue × Bytes)}
    {stepsAt : List (Except ReadFault FieldValue × Cursor)}
    (h : List.Forall₂ (Agrees data) steps stepsAt) :
    ∀ step ∈ stepsAt, step.2.data = data ∧ step.2.pos ≤ data.length := by
  induction h with
  | nil => exact fun _ hstep => absurd hstep List.not_mem_nil
  | cons hagrees _ ih => exact List.forall_mem_cons.mpr ⟨⟨hagrees.2.data_eq, hagrees.2.pos_le⟩, ih⟩

namespace FieldKind

variable {data rest : Bytes} {c : Cursor}

/-- By induction on the readings. A reading that fails leaves the cursor within the data as well. -/
theorem readAllAt_agrees (hdata : data.length < 2 ^ 64) (kinds : List FieldKind)
    (h : Cursor.At data rest c) : ∃ steps, readAllAt kinds c = some steps ∧
      List.Forall₂ (Agrees data) (readAll kinds rest) steps := by
  induction kinds generalizing rest c with
  | nil => exact ⟨[], rfl, .nil⟩
  | cons kind kinds ih =>
    have hkind := Cursor.readAt_simulates hdata kind
    unfold readAllAt readAll
    cases hread : kind.read rest with
    | ok v behind =>
      obtain ⟨c', hc, hat⟩ := hkind.ok h hread
      obtain ⟨steps, hsteps, hall⟩ := ih hat
      rw [hc]
      exact ⟨(.ok v, c') :: steps, congrArg (Option.map _) hsteps, .cons ⟨rfl, hat⟩ hall⟩
    | error fault behind =>
      obtain ⟨c', hc, hat⟩ := hkind.error h hread
      obtain ⟨steps, hsteps, hall⟩ := ih hat
      rw [hc]
      exact ⟨(.error fault, c') :: steps, congrArg (Option.map _) hsteps, .cons ⟨rfl, hat⟩ hall⟩

end FieldKind

namespace Cursor

variable {α β : Type} {c c' : Cursor}

/-- Where the step fails, the cursor is where it was. -/
def Stays (step : CursorStep α) : Prop := ∀ c fault c', step c = .error (.fault fault) c' → c' = c

/-- What comes after the step does not fail. -/
theorem Stays.bind {step : CursorStep α} {next : α → CursorStep β} (h : Stays step)
    (hn : ∀ a c fault c', next a c ≠ .error (.fault fault) c') : Stays (step >>= next) := by
  intro c fault c' hb
  rcases Effect.bind_error.mp hb with hs | ⟨a, mid, -, ha⟩
  · exact h c fault c' hs
  · exact absurd ha (hn a mid fault c')

theorem Stays.map {f : α → β} {step : CursorStep α} (h : Stays step) : Stays (f <$> step) := by
  rw [← bind_pure_comp]
  exact h.bind fun _ _ _ _ hp => by cases hp

theorem found_ne_fault {answer : Option α} {fault : ReadFault} :
    (Checked.found answer : CursorStep α) c ≠ .error (.fault fault) c' := by
  intro h
  cases answer <;> cases h

theorem bytes_stays (n : Nat) : Stays (bytes n) := by
  intro c fault c' h
  change (Checked.demand _ _ >>= fun _ => Checked.found _ >>= fun part => _) c = _ at h
  by_cases hstop : c.pos + n < 2 ^ 64 ∧ c.pos + n ≤ c.data.length
  · rw [Checked.demand_eq (decide_eq_true hstop), pure_bind] at h
    rcases Effect.bind_error.mp h with hf | ⟨part, mid, -, hset⟩
    · exact absurd hf found_ne_fault
    · cases hset
  · rw [Effect.bind_of_error (Checked.demand_stop (mt of_decide_eq_true hstop))] at h
    cases h
    rfl

theorem take_stays (n : Nat) : Stays (take n) := (bytes_stays n).bind fun _ _ _ _ => found_ne_fault

theorem nat_stays (n : Nat) : Stays (nat n) := (take_stays n).bind fun _ _ _ _ hp => by cases hp

theorem readAt_stays {kind : FieldKind} (h : kind.IsPlain) : Stays kind.readAt := by
  cases kind with
  | uint8 => exact (nat_stays 1).map
  | uint16 => exact (nat_stays 2).map
  | uint32 => exact (nat_stays 4).map
  | uint64 => exact (nat_stays 8).map
  | raw n => exact (bytes_stays n).map
  | compact => exact h.elim
  | sized => exact h.elim

end Cursor

/-- What is read of fields that have been written, with a tail behind them. -/
structure ReadsBack (fs : List Field) (tail : Bytes) : Prop where
  written : Field.writeAll fs = Field.encodeAll fs
  read : (fs.map Field.kind).mapM FieldKind.read (Field.writeAll fs ++ tail) = .ok (fs.map Field.value) tail
  readAt : (fs.map Field.kind).mapM FieldKind.readAt ⟨Field.writeAll fs ++ tail, 0⟩ =
    .ok (fs.map Field.value) ⟨Field.writeAll fs ++ tail, (Field.writeAll fs).length⟩

theorem readsBack {fs : List Field} {tail : Bytes} (h : (Field.writeAll fs ++ tail).length < 2 ^ 64) :
    ReadsBack fs tail := by
  have hwritten := Field.writeAll_eq fs
  have hfields : (Field.encodeAll fs).length < 2 ^ 64 := by
    rw [List.length_append, hwritten] at h
    omega
  have hread := Field.readAll_takes (Field.fits_of_length hfields) tail
  rw [← hwritten] at hread
  have hsimulates := Simulates.mapM (Cursor.readAt_simulates h) (fs.map Field.kind)
  obtain ⟨c, hc, hat⟩ := hsimulates.ok (Cursor.At.start _) hread
  have hpos : c.pos = (Field.writeAll fs).length := by
    rw [hat.pos_eq, List.length_append]
    omega
  have hcursor : c = ⟨Field.writeAll fs ++ tail, (Field.writeAll fs).length⟩ := by
    rw [← hpos, ← hat.data_eq]
  exact ⟨hwritten, hread, hcursor ▸ hc⟩

/-- Whatever fields are written, reading them gives what was written, and the tail is left. Whatever is
read of whatever data, the cursor gives the answers of the readings, never breaks, and is never beyond
the data. If it fails to read a number of fixed width or a number of bytes, it does not move. -/
theorem fields_read_back :
    (∀ fs tail, (Field.writeAll fs ++ tail).length < 2 ^ 64 → ReadsBack fs tail) ∧
      (∀ data kinds, data.length < 2 ^ 64 → ∃ steps, FieldKind.readAllAt kinds ⟨data, 0⟩ = some steps ∧
        List.Forall₂ (Agrees data) (FieldKind.readAll kinds data) steps ∧
        ∀ step ∈ steps, step.2.data = data ∧ step.2.pos ≤ data.length) ∧
      (∀ kind : FieldKind, kind.IsPlain → Cursor.Stays kind.readAt) ∧
      ∀ n, Cursor.Stays (Cursor.take n) := by
  refine ⟨fun fs tail h => readsBack h, fun data kinds h => ?_, fun kind h => Cursor.readAt_stays h,
    Cursor.take_stays⟩
  obtain ⟨steps, hsteps, hall⟩ := FieldKind.readAllAt_agrees h kinds (Cursor.At.start data)
  exact ⟨steps, hsteps, hall, within_of_agrees hall⟩

/-- A negative number and a length in front of its bytes; then a length whose bytes are missing, and a
number of which one byte is there. -/
theorem fields_read_back_negative :
    let fs : List Field := [.uint8 0x42, .uint32 0xdeadbeef, .int64 (-5), .sized [1, 2, 3]]
    let whole : Bytes := Field.writeAll fs ++ [7]
    let values : List FieldValue :=
      [.number 0x42, .number 0xdeadbeef, .number (2 ^ 64 - 5), .bytes [1, 2, 3]]
    let short : Bytes := [5, 1]
    whole.length < 2 ^ 64 ∧
      (fs.map Field.kind).mapM FieldKind.readAt ⟨whole, 0⟩ = .ok values ⟨whole, 17⟩ ∧
      short.length < 2 ^ 64 ∧
      (∃ steps, FieldKind.readAllAt [.sized, .uint16] ⟨short, 0⟩ = some steps ∧
        ∀ step ∈ steps, step.2.data = short ∧ step.2.pos ≤ short.length) ∧
      FieldKind.uint16.IsPlain ∧ Cursor.Stays FieldKind.uint16.readAt := by
  intro fs whole values short
  obtain ⟨hback, hany, hstays, -⟩ := fields_read_back
  have hwhole : whole.length < 2 ^ 64 := by decide
  have hshort : short.length < 2 ^ 64 := by decide
  have hvalues : fs.map Field.value = values := by decide
  have hlength : (Field.writeAll fs).length = 17 := by decide
  have hread := (hback fs [7] hwhole).readAt
  rw [hvalues, hlength] at hread
  obtain ⟨steps, hsteps, -, hwithin⟩ := hany short [.sized, .uint16] hshort
  exact ⟨hwhole, hread, hshort, ⟨steps, hsteps, hwithin⟩, trivial, hstays .uint16 trivial⟩

end CoinScript.Wire
