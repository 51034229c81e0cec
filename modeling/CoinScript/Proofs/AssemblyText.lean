import CoinScript.Proofs.OperationNames
import CoinScript.Proofs.HexDigits
import CoinScript.Script.Assembly

namespace CoinScript

namespace Text

variable {word rest : List Char} {c : Char}

theorem splitAt_of_forall (h : ∀ c ∈ word, isBlank c = false) : splitAt isBlank word = [word] := by
  induction word with
  | nil => rfl
  | cons c cs ih =>
    obtain ⟨hc, hcs⟩ := List.forall_mem_cons.mp h
    simp [splitAt, hc, ih hcs]

theorem splitAt_append (h : ∀ c ∈ word, isBlank c = false) (hc : isBlank c = true) :
    splitAt isBlank (word ++ c :: rest) = word :: splitAt isBlank rest := by
  induction word with
  | nil => simp [splitAt, hc]
  | cons c cs ih =>
    obtain ⟨hc, hcs⟩ := List.forall_mem_cons.mp h
    simp [splitAt, hc, ih hcs]

/-- A word that a text can be cut into. -/
def IsWord (word : List Char) : Prop := word ≠ [] ∧ ∀ c ∈ word, isBlank c = false

theorem words_singleton (h : IsWord word) : words word = [word] := by
  simp [words, splitAt_of_forall h.2, h.1]

theorem words_append (h : IsWord word) (hc : isBlank c = true) : words (word ++ c :: rest) = word :: words rest := by
  simp [words, splitAt_append h.2 hc, h.1]

/-- Words that are joined by blanks are told apart again. -/
theorem words_intercalate : ∀ {ws : List (List Char)}, (∀ w ∈ ws, IsWord w) → words ([' '].intercalate ws) = ws
  | [], _ => rfl
  | [w], h => by
    rw [List.intercalate_singleton]
    exact words_singleton (h w List.mem_cons_self)
  | w :: w' :: ws, h => by
    obtain ⟨hw, hws⟩ := List.forall_mem_cons.mp h
    rw [List.intercalate_cons_cons, List.append_assoc, List.singleton_append, words_append hw rfl,
      words_intercalate hws]

/-- Blanks come before the first of these characters, or after ASCII. -/
theorem isBlank_of_isNameChar (h : Opcode.IsNameChar c) : isBlank c = false := by
  have hrange : 33 ≤ c.toNat ∧ c.toNat < 127 := by
    rcases h with h | h | rfl | rfl | rfl
    · have hupper := toNat_of_isUpper h
      omega
    · have hdigit := toNat_of_isDigit h
      omega
    all_goals decide
  simp only [isBlank, Bool.or_eq_false_iff, Bool.and_eq_false_imp, decide_eq_false_iff_not, decide_eq_true_eq,
    beq_eq_false_iff_ne]
  omega

theorem isWord_of_isName {op : Opcode} (h : Opcode.IsName word op) : IsWord word := by
  obtain ⟨c, hc, -⟩ := h.exists_isUpper
  exact ⟨List.ne_nil_of_mem hc, fun c hc => isBlank_of_isNameChar (h.isNameChar hc)⟩

end Text

namespace Hex

variable {bs : Bytes} {c : Char}

theorem hexDigit_small {n : Nat} (h : n < 16) :
    (Text.Quoted.hexDigit n).isUpper = false ∧ Text.isBlank (Text.Quoted.hexDigit n) = false := by
  have hall : ∀ n < 16, (Text.Quoted.hexDigit n).isUpper = false ∧
      Text.isBlank (Text.Quoted.hexDigit n) = false := by decide
  exact hall n h

theorem mem_encode (h : c ∈ (encode bs).toList) : c.isUpper = false ∧ Text.isBlank c = false := by
  rw [encode, String.toList_ofList] at h
  obtain ⟨b, -, hc⟩ := List.mem_flatMap.mp h
  have hb := b.toNat_lt
  simp only [pairChars, List.mem_cons, List.not_mem_nil, or_false] at hc
  rcases hc with rfl | rfl
  · exact hexDigit_small (by omega)
  · exact hexDigit_small (by omega)

/-- Written bytes are no name. -/
theorem ofName?_encode (bs : Bytes) : Opcode.ofName? (encode bs).toList = none := by
  cases hname : Opcode.ofName? (encode bs).toList with
  | none => rfl
  | some op =>
    obtain ⟨c, hc, hupper⟩ := (Opcode.ofName?_iff.mp hname).exists_isUpper
    cases hupper.symm.trans (mem_encode hc).1

theorem isWord_encode (h : bs ≠ []) : Text.IsWord (encode bs).toList := by
  refine ⟨?_, fun c hc => (mem_encode hc).2⟩
  cases bs with
  | nil => exact absurd rfl h
  | cons b bs => simp [encode, pairChars]

end Hex

namespace Operation

variable {op : Operation} {code : Opcode} {data : Bytes}

theorem assembly_of_number (h : code = Opcode.zero ∨ Opcode.isOneToSixteen code = true) :
    assembly ⟨code, data⟩ = "OP_" ++ toString (Opcode.smallNumber code) := by
  have hsmall : Opcode.isSmallNumber code = true := by
    rcases h with rfl | h
    · rfl
    · simp [Opcode.isSmallNumber, h]
  have hne : code ≠ Opcode.negativeOne := by
    rintro rfl
    rcases h with h | h <;> cases h
  rw [assembly, if_pos hsmall, if_neg hne]

theorem assembly_negativeOne : assembly ⟨Opcode.negativeOne, data⟩ = "OP_" ++ "1NEGATE" := by
  rfl

theorem assembly_of_name (h : code = Opcode.reserved ∨ Opcode.sixteen < code) (hp : Opcode.pushData4 < code) :
    assembly ⟨code, data⟩ = Opcode.name code := by
  have hpush : (Operation.mk code data).isPush = false := decide_eq_false (UInt8.not_le.mpr hp)
  simp [assembly, Opcode.isSmallNumber_eq_false h, hpush]

/-- A code that is written by name is read back from it. -/
theorem ofName?_assembly (h : code = Opcode.zero ∨ Opcode.pushData4 < code) (hd : code < Opcode.firstUndefined) :
    Opcode.ofName? (assembly ⟨code, data⟩).toList = some code := by
  have hnumber (hn : code = Opcode.zero ∨ Opcode.isOneToSixteen code = true) :
      Opcode.ofName? (assembly ⟨code, data⟩).toList = some code := by
    rw [assembly_of_number hn, Opcode.ofName?_smallNumber hn]
  rcases h with hzero | hp
  · exact hnumber (.inl hzero)
  by_cases h16 : code ≤ Opcode.sixteen
  · obtain hreserved | rfl | hone := Opcode.reserved_or_number hp h16
    · rw [assembly_of_name (.inl hreserved) hp, Opcode.ofName?_name (.inl hreserved) hd]
    · rw [assembly_negativeOne]
      exact Opcode.ofName?_lead (List.mem_append_left _ (by simp [Opcode.aliases, Opcode.negativeOne]))
    · exact hnumber (.inr hone)
  · rw [assembly_of_name (.inr (UInt8.not_le.mp h16)) hp, Opcode.ofName?_name (.inr (UInt8.not_le.mp h16)) hd]

/-- Operations that assembly can say: their data is behind the shortest code and length that fit it, and their code
has a meaning. -/
structure IsSaid (op : Operation) : Prop where
  shortest : op.isPush = true → Script.pushBytes op.data = .ok op.bytes
  defined : op.code < Opcode.firstUndefined

theorem Sized.data_of_zero (h : op.Sized) (hz : op.code = Opcode.zero) : op.data = [] := by
  rw [Sized, hz] at h
  exact List.length_eq_zero_iff.mp h

theorem IsSaid.eq_pushing (h : op.IsSaid) (hs : op.Sized) (hp : op.isPush = true) : op = pushing op.data := by
  obtain ⟨hl, hbytes⟩ := pushBytes_ok.mp (h.shortest hp)
  exact hs.eq_of_bytes (sized_pushing hl) hbytes.symm

theorem assembly_of_data (hp : op.isPush = true) (hz : op.code ≠ Opcode.zero) : op.assembly = Hex.encode op.data := by
  have hle : op.code ≤ Opcode.pushData4 := of_decide_eq_true hp
  have hne : op.code ≠ Opcode.negativeOne := fun hc => absurd (hc ▸ hle) (by decide)
  have hone : Opcode.isOneToSixteen op.code = false := by
    rw [← Bool.not_eq_true]
    intro hone
    cases (isPush_of_number hone).symm.trans hp
  simp [assembly, Opcode.isSmallNumber, hz, hne, hone, hp]

/-- An operation is written as a name, or has data, which is then written as digits. -/
theorem IsSaid.cases (h : op.IsSaid) (hs : op.Sized) :
    (op.data = [] ∧ (op.code = Opcode.zero ∨ Opcode.pushData4 < op.code)) ∨
    (op.data ≠ [] ∧ op.isPush = true ∧ op.assembly = Hex.encode op.data) := by
  cases hp : op.isPush with
  | false => exact .inl ⟨hs.bare hp, .inr (UInt8.not_le.mp (of_decide_eq_false hp))⟩
  | true =>
    by_cases hdata : op.data = []
    · refine .inl ⟨hdata, .inl ?_⟩
      rw [h.eq_pushing hs hp, hdata]
      rfl
    · exact .inr ⟨hdata, rfl, assembly_of_data hp fun hz => hdata (hs.data_of_zero hz)⟩

/-- The word of an operation is one, and stands for its bytes. -/
theorem IsSaid.word (h : op.IsSaid) (hs : op.Sized) :
    Text.IsWord op.assembly.toList ∧ Script.assemblyWord op.assembly.toList = .ok op.bytes := by
  rcases h.cases hs with ⟨hdata, hcode⟩ | ⟨hdata, hp, hword⟩
  · have hname : Opcode.ofName? op.assembly.toList = some op.code := ofName?_assembly hcode h.defined
    refine ⟨Text.isWord_of_isName (Opcode.ofName?_iff.mp hname), ?_⟩
    have hkept : (op.code > Opcode.pushData4 || op.code == Opcode.zero) = true := by
      simpa [or_comm] using hcode
    have hbytes : op.bytes = [op.code] := by
      rw [← (bare_code hcode).2, ← hdata]
    rw [Script.assemblyWord, hname, Option.filter_some, if_pos hkept, hbytes]
  · rw [hword]
    refine ⟨Hex.isWord_encode hdata, ?_⟩
    rw [Script.assemblyWord, Hex.ofName?_encode, Option.filter_none, String.ofList_toList, Hex.decode_encode]
    exact h.shortest hp

/-- Whatever a word stands for is one operation that assembly can say. -/
theorem isSaid_of_assemblyWord {word : List Char} {bs : Bytes} (h : Script.assemblyWord word = .ok bs) :
    ∃ op : Operation, op.Sized ∧ op.IsSaid ∧ op.bytes = bs := by
  rw [Script.assemblyWord] at h
  split at h
  · next code hname =>
    obtain ⟨hname, hkept⟩ := Option.filter_eq_some_iff.mp hname
    have hcode : code = Opcode.zero ∨ Opcode.pushData4 < code := by simpa [or_comm] using hkept
    obtain ⟨hsized, hbytes⟩ := bare_code hcode
    have hdefined := (Opcode.ofName?_iff.mp hname).lt_firstUndefined
    refine ⟨⟨code, []⟩, hsized, ⟨fun hp => ?_, hdefined⟩, hbytes.trans (Except.ok.inj h)⟩
    obtain rfl : code = Opcode.zero := hcode.resolve_right (UInt8.not_lt.mpr (of_decide_eq_true hp))
    rfl
  · split at h
    · next data _ =>
      obtain ⟨hl, rfl⟩ := pushBytes_ok.mp h
      refine ⟨pushing data, sized_pushing hl, ⟨fun _ => h, ?_⟩, rfl⟩
      exact UInt8.lt_of_le_of_lt (pushCode_le _) (by decide)
    · cases h

end Operation

namespace Script

open Operation

variable {s : Script} {ops : List Operation}

theorem assemble_assembly (hs : ∀ op ∈ ops, op.Sized) (h : ∀ op ∈ ops, op.IsSaid) :
    assemble (ops.map fun op => op.assembly.toList) = .ok (ofOperations ops).bytes := by
  induction ops with
  | nil => rfl
  | cons op ops ih =>
    obtain ⟨hop, hs⟩ := List.forall_mem_cons.mp hs
    obtain ⟨hsaid, h⟩ := List.forall_mem_cons.mp h
    rw [List.map_cons, assemble, (hsaid.word hop).2, ih hs h]
    rfl

theorem isSaid_of_assemble {words : List (List Char)} {bs : Bytes} (h : assemble words = .ok bs) :
    ∃ ops : List Operation, (∀ op ∈ ops, op.Sized) ∧ (∀ op ∈ ops, op.IsSaid) ∧ (ofOperations ops).bytes = bs := by
  induction words generalizing bs with
  | nil =>
    cases h
    exact ⟨[], List.forall_mem_nil _, List.forall_mem_nil _, rfl⟩
  | cons word words ih =>
    rw [assemble] at h
    obtain ⟨first, hfirst, h⟩ := except_bind_ok.mp h
    obtain ⟨more, hmore, h⟩ := except_bind_ok.mp h
    obtain ⟨op, hop, hsaid, rfl⟩ := isSaid_of_assemblyWord hfirst
    obtain ⟨ops, hops, hsaids, rfl⟩ := ih hmore
    obtain rfl := except_pure_ok.mp h
    exact ⟨op :: ops, List.forall_mem_cons.mpr ⟨hop, hops⟩, List.forall_mem_cons.mpr ⟨hsaid, hsaids⟩, rfl⟩

/-- Scripts that assembly can say. -/
def IsSaid (s : Script) : Prop := s.isWellFormed = true ∧ ∀ op ∈ s.operations, op.IsSaid

theorem IsSaid.ofAssembly_assembly (h : s.IsSaid) : ofAssembly s.assembly = .ok s := by
  have hsized : ∀ op ∈ s.operations, op.Sized := sized_parse s.bytes
  have hwords : ∀ word ∈ s.operations.map (fun op => op.assembly.toList), Text.IsWord word := by
    intro word hword
    obtain ⟨op, hop, rfl⟩ := List.mem_map.mp hword
    exact ((h.2 op hop).word (hsized op hop)).1
  have htext : s.assembly.toList = [' '].intercalate (s.operations.map fun op => op.assembly.toList) := by
    simp [assembly, h.1, String.toList_intercalate, Function.comp_def]
  rw [ofAssembly, htext, Text.words_intercalate hwords, assemble_assembly hsized h.2]
  exact congrArg Except.ok (ofOperations_operations h.1)

theorem isSaid_of_ofAssembly {text : String} (h : ofAssembly text = .ok s) : s.IsSaid := by
  rw [ofAssembly] at h
  cases hbytes : assemble (Text.words text.toList) with
  | error fault => simp [hbytes, Except.map] at h
  | ok bs =>
    obtain ⟨ops, hsized, hsaid, rfl⟩ := isSaid_of_assemble hbytes
    obtain rfl : ofOperations ops = s := by simpa [hbytes, Except.map] using h
    have hparse := parse_ofOperations hsized
    rw [IsSaid, isWellFormed, tail, operations, hparse]
    exact ⟨rfl, hsaid⟩

/-- Reading assembly gives back the script that it was written from exactly if the script is whole, every push in it
announces its data in the shortest way, and every code in it has a meaning; and nothing else is ever read from
assembly. -/
theorem assembly_read_back_iff (s : Script) :
    (ofAssembly s.assembly = .ok s ↔
      s.isWellFormed = true ∧
      (∀ op ∈ s.operations, op.isPush = true → pushBytes op.data = .ok op.bytes) ∧
      ∀ op ∈ s.operations, op.code < Opcode.firstUndefined) ∧
    ((∃ text, ofAssembly text = .ok s) ↔ ofAssembly s.assembly = .ok s) := by
  have hsaid : ofAssembly s.assembly = .ok s ↔ s.IsSaid := ⟨isSaid_of_ofAssembly, IsSaid.ofAssembly_assembly⟩
  refine ⟨?_, ?_⟩
  · rw [hsaid]
    constructor
    · rintro ⟨hwhole, hops⟩
      exact ⟨hwhole, fun op hop => (hops op hop).shortest, fun op hop => (hops op hop).defined⟩
    · rintro ⟨hwhole, hshortest, hdefined⟩
      exact ⟨hwhole, fun op hop => ⟨hshortest op hop, hdefined op hop⟩⟩
  · constructor
    · rintro ⟨text, h⟩
      exact hsaid.mpr (isSaid_of_ofAssembly h)
    · intro h
      exact ⟨_, h⟩

end Script

end CoinScript
