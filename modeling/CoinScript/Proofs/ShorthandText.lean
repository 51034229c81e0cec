import CoinScript.Proofs.AssemblyText
import CoinScript.Script.Shorthand

namespace CoinScript

namespace Text

/-- The code points with the Unicode property White_Space. -/
def whiteSpace : List Nat :=
  List.range' 0x9 5 ++ [0x20, 0x85, 0xa0, 0x1680] ++ List.range' 0x2000 11 ++
    [0x2028, 0x2029, 0x202f, 0x205f, 0x3000]

/-- What stands between white space, in order. -/
inductive Cut : List Char → List (List Char) → Prop
  | nil : Cut [] []
  | blank {c : Char} {cs : List Char} {words : List (List Char)} (hc : c.toNat ∈ whiteSpace) (rest : Cut cs words) :
      Cut (c :: cs) words
  | last {word : List Char} (hne : word ≠ []) (hw : ∀ c ∈ word, c.toNat ∉ whiteSpace) : Cut word [word]
  | word {word : List Char} {c : Char} {cs : List Char} {words : List (List Char)} (hne : word ≠ [])
      (hw : ∀ c ∈ word, c.toNat ∉ whiteSpace) (hc : c.toNat ∈ whiteSpace) (rest : Cut cs words) :
      Cut (word ++ c :: cs) (word :: words)

variable {c : Char} {cs word : List Char} {ws : List (List Char)}

theorem isBlank_iff : isBlank c = true ↔ c.toNat ∈ whiteSpace := by
  simp only [isBlank, whiteSpace, Bool.or_eq_true, Bool.and_eq_true, decide_eq_true_eq, beq_iff_eq,
    List.mem_append, List.mem_range'_1, List.mem_cons, List.not_mem_nil, or_false]
  omega

theorem isBlank_eq_false_iff : isBlank c = false ↔ c.toNat ∉ whiteSpace := by
  rw [← isBlank_iff, Bool.not_eq_true]

theorem words_blank (h : isBlank c = true) : words (c :: cs) = words cs := by
  simp [words, splitAt, h]

theorem Cut.words_eq (h : Cut cs ws) : words cs = ws := by
  induction h with
  | nil => rfl
  | blank hc _ ih => rw [words_blank (isBlank_iff.mpr hc), ih]
  | last hne hw => exact words_singleton ⟨hne, fun c hc => isBlank_eq_false_iff.mpr (hw c hc)⟩
  | word hne hw hc _ ih =>
    rw [words_append ⟨hne, fun c hc => isBlank_eq_false_iff.mpr (hw c hc)⟩ (isBlank_iff.mpr hc), ih]

/-- Every text can be cut. A character that is not blank begins a word of its own or goes in front of the one that
begins behind it. -/
theorem exists_cut (cs : List Char) : ∃ ws, Cut cs ws := by
  induction cs with
  | nil => exact ⟨[], .nil⟩
  | cons c cs ih =>
    obtain ⟨ws, h⟩ := ih
    by_cases hc : c.toNat ∈ whiteSpace
    · exact ⟨ws, .blank hc h⟩
    · have halone : ∀ d ∈ [c], d.toNat ∉ whiteSpace := List.forall_mem_singleton.mpr hc
      cases h with
      | nil => exact ⟨[[c]], .last (List.cons_ne_nil _ _) halone⟩
      | blank hd rest => exact ⟨[c] :: ws, .word (List.cons_ne_nil _ _) halone hd rest⟩
      | last _ hw => exact ⟨[c :: cs], .last (List.cons_ne_nil _ _) (List.forall_mem_cons.mpr ⟨hc, hw⟩)⟩
      | word _ hw hd rest =>
        exact ⟨_, .word (List.cons_ne_nil _ _) (List.forall_mem_cons.mpr ⟨hc, hw⟩) hd rest⟩

theorem words_eq_iff : words cs = ws ↔ Cut cs ws := by
  refine ⟨fun h => ?_, Cut.words_eq⟩
  obtain ⟨ws', hcut⟩ := exists_cut cs
  rw [← h, hcut.words_eq]
  exact hcut

end Text

namespace Script.Shorthand

/-- What a word says. -/
inductive Token
  | number (n : Int)
  | raw (bs : Bytes)
  | text (cs : List Char)
  | name (op : Opcode)

/-- The words that say it. Numbers have 64 bits with a sign, but are never the least one. -/
inductive Says : List Char → Token → Prop
  | natural {digits : List Char} {n : Nat} (h : Text.IsNumeral digits n) (hr : n < 2 ^ 63) : Says digits (.number n)
  | negative {digits : List Char} {n : Nat} (h : Text.IsNumeral digits n) (hr : n < 2 ^ 63) :
      Says ('-' :: digits) (.number (-n))
  | raw {digits : List Char} {bs : Bytes} (hne : digits ≠ []) (h : Hex.Spells digits bs) :
      Says ('0' :: 'x' :: digits) (.raw bs)
  | text (cs : List Char) : Says ('\'' :: (cs ++ ['\''])) (.text cs)
  | name {word : List Char} {op : Opcode} (h : Opcode.IsName word op) : Says word (.name op)

namespace Token

/-- What is added to the script. A text is pushed in UTF-8, and only a text can be too long to be pushed. -/
def bytes? : Token → Except ScriptFault Bytes
  | number n => .ok (numberBytes n)
  | raw bs => .ok bs
  | text cs => pushBytes (cs.flatMap String.utf8EncodeChar)
  | name op => .ok [op]

/-- How many bytes the next word adds, given how many were announced for this one. -/
def announces (announced : Nat) : Token → Nat
  | raw [b] => if announced = 0 ∧ b.toNat ≤ 75 then b.toNat else 0
  | name op =>
    if op = Opcode.pushData1 then 1 else if op = Opcode.pushData2 then 2 else if op = Opcode.pushData4 then 4 else 0
  | _ => 0

end Token

/-- How many bytes are announced for a word, if `first` are for the one at the front. -/
def announcedAt (first : Nat) (ts : List Token) : Nat → Nat
  | 0 => first
  | i + 1 => (ts[i]?.map (Token.announces (announcedAt first ts i))).getD 0

/-- What is announced is kept. -/
def Honoured (first : Nat) (ts : List Token) (parts : List Bytes) : Prop :=
  ∀ i part, parts[i]? = some part → announcedAt first ts i ≠ 0 → part.length = announcedAt first ts i

variable {text : String} {word digits cs : List Char} {words : List (List Char)} {announced first : Nat}
  {c : Contribution} {n : Int} {t : Token} {ts : List Token} {part bs : Bytes} {parts : List Bytes}

theorem isDecimal_iff :
    isDecimal word = true ↔ ∃ digits, Text.isDigits digits = true ∧ (word = digits ∨ word = '-' :: digits) := by
  have hsign (digits : List Char) : ¬ Text.isDigits ('-' :: digits) = true := fun h => by
    cases (Text.isDigits_iff.mp h).2 '-' List.mem_cons_self
  cases hlead : Text.dropLead ['-'] word with
  | some digits =>
    obtain rfl : word = '-' :: digits := Text.dropLead_eq_some.mp hlead
    simp only [isDecimal, hlead, Option.getD_some]
    constructor
    · intro h
      exact ⟨digits, h, .inr rfl⟩
    · rintro ⟨_, h, rfl | hd⟩
      · exact absurd h (hsign digits)
      · rwa [(List.cons.inj hd).2]
  | none =>
    simp only [isDecimal, hlead, Option.getD_none]
    constructor
    · intro h
      exact ⟨word, h, .inl rfl⟩
    · rintro ⟨digits, h, rfl | rfl⟩
      · exact h
      · cases hlead

theorem isDecimal_eq_false {c : Char} (hc : c ∈ word) (hdigit : c.isDigit = false) (hsign : c ≠ '-') :
    isDecimal word = false := by
  rw [← Bool.not_eq_true, isDecimal_iff]
  rintro ⟨digits, hdigits, hword⟩
  have hmem : c ∈ digits := by
    rcases hword with rfl | rfl
    · exact hc
    · exact (List.mem_cons.mp hc).resolve_left hsign
  cases hdigit.symm.trans ((Text.isDigits_iff.mp hdigits).2 c hmem)

theorem digits?_eq_some : digits? word = some digits ↔ digits ≠ [] ∧ word = '0' :: 'x' :: digits := by
  simp [digits?, Option.filter_eq_some_iff, Text.dropLead_eq_some, and_comm]

theorem quoted?_eq_some : quoted? word = some cs ↔ word = '\'' :: (cs ++ ['\'']) := by
  unfold quoted?
  split
  · next rest =>
    rw [Option.ite_none_right_eq_some, Option.some.injEq, List.cons.injEq, List.getLast?_eq_some_iff]
    constructor
    · rintro ⟨⟨front, rfl⟩, rfl⟩
      simp
    · rintro ⟨-, rfl⟩
      simp
  · next hquote =>
    refine iff_of_false nofun fun h => hquote _ h

theorem decimal_ok (h : Text.integer? word = some n) :
    decimal word = .ok c ↔ (-(2 ^ 63) < n ∧ n < 2 ^ 63) ∧ ⟨numberBytes n, 0⟩ = c := by
  simp only [decimal, h, Number.inRange, Bool.and_eq_true, decide_eq_true_eq]
  split
  · split
    · exact iff_of_false nofun (by omega)
    · rw [Except.ok.injEq]
      exact (and_iff_right (by omega)).symm
  · exact iff_of_false nofun (by omega)

theorem decimal_announced (h : decimal word = .ok c) : c.announced = 0 := by
  unfold decimal at h
  split at h
  · split at h
    · split at h
      · cases h
      · cases h
        rfl
    · cases h
  · cases h

theorem inserted_of_decode (h : Hex.decode (String.ofList digits) = .ok bs) :
    inserted announced word digits = .ok ⟨bs, (Token.raw bs).announces announced⟩ := by
  simp only [inserted, h]
  split
  · next hfault => cases hfault
  · next b hb =>
    cases hb
    have hdirect : b < Opcode.pushData1 ↔ b.toNat ≤ 75 := UInt8.lt_iff_toNat_lt.trans Nat.lt_succ_iff
    simp [Token.announces, hdirect]
  · next bs hlong hbs =>
    cases hbs
    have hnone : (Token.raw bs).announces announced = 0 := by
      unfold Token.announces
      split
      · next b hb =>
        cases hb
        exact absurd rfl (hlong b)
      · next hname => cases hname
      · rfl
    rw [hnone]

theorem inserted_ok : inserted announced word digits = .ok c ↔
    ∃ bs, Hex.Spells digits bs ∧ ⟨bs, (Token.raw bs).announces announced⟩ = c := by
  simp only [← Hex.decode_ok_iff]
  cases hdecode : Hex.decode (String.ofList digits) with
  | error fault => simp [inserted, hdecode]
  | ok bs => simp [inserted_of_decode hdecode]

/-- The name of an operation is neither a number nor bytes nor a text. -/
theorem kinds_of_isName {op : Opcode} (h : Opcode.IsName word op) :
    isDecimal word = false ∧ digits? word = none ∧ quoted? word = none := by
  refine ⟨?_, ?_, ?_⟩
  · obtain ⟨c, hc, hupper⟩ := h.exists_isUpper
    refine isDecimal_eq_false hc (Text.isDigit_of_isUpper hupper) ?_
    rintro rfl
    cases hupper
  · cases hdigits : digits? word with
    | none => rfl
    | some digits =>
      have hc := h.isNameChar (show 'x' ∈ word by simp [(digits?_eq_some.mp hdigits).2])
      exact absurd hc (by decide)
  · cases hquoted : quoted? word with
    | none => rfl
    | some cs =>
      have hc := h.isNameChar (show '\'' ∈ word by simp [quoted?_eq_some.mp hquoted])
      exact absurd hc (by decide)

theorem kinds_of_raw (h : digits ≠ []) :
    isDecimal ('0' :: 'x' :: digits) = false ∧ digits? ('0' :: 'x' :: digits) = some digits := by
  refine ⟨?_, digits?_eq_some.mpr ⟨h, rfl⟩⟩
  exact @isDecimal_eq_false _ 'x' (by simp) rfl (by decide)

theorem kinds_of_text (cs : List Char) :
    isDecimal ('\'' :: (cs ++ ['\''])) = false ∧ digits? ('\'' :: (cs ++ ['\''])) = none ∧
      quoted? ('\'' :: (cs ++ ['\''])) = some cs := by
  refine ⟨?_, rfl, quoted?_eq_some.mpr rfl⟩
  exact @isDecimal_eq_false _ '\'' (by simp) rfl (by decide)

theorem textBytes_eq (cs : List Char) : textBytes cs = cs.flatMap String.utf8EncodeChar := Hex.utf8_ofList cs

/-- A word is read as what it says. -/
theorem Says.readWord_eq (h : Says word t) :
    readWord text announced word = t.bytes?.map fun bs => ⟨bs, t.announces announced⟩ := by
  cases h with
  | natural h hr =>
    rw [readWord, if_pos (isDecimal_iff.mpr ⟨_, h.isDigits, .inl rfl⟩)]
    exact (decimal_ok h.integer?_eq).mpr ⟨by omega, rfl⟩
  | negative h hr =>
    rw [readWord, if_pos (isDecimal_iff.mpr ⟨_, h.isDigits, .inr rfl⟩)]
    exact (decimal_ok h.integer?_neg).mpr ⟨by omega, rfl⟩
  | raw hne h =>
    obtain ⟨hdecimal, hdigits⟩ := kinds_of_raw hne
    simp only [readWord, hdecimal, hdigits]
    exact inserted_ok.mpr ⟨_, h, rfl⟩
  | text cs =>
    obtain ⟨hdecimal, hdigits, hquoted⟩ := kinds_of_text cs
    simp only [readWord, hdecimal, hdigits, hquoted, textBytes_eq]
    rfl
  | name h =>
    obtain ⟨hdecimal, hdigits, hquoted⟩ := kinds_of_isName h
    simp only [readWord, hdecimal, hdigits, hquoted, Opcode.ofName?_iff.mpr h]
    rfl

/-- Whatever is read says something. -/
theorem exists_says (h : readWord text announced word = .ok c) : ∃ t, Says word t := by
  unfold readWord at h
  split at h
  · next hdecimal =>
    obtain ⟨digits, hd, rfl | rfl⟩ := isDecimal_iff.mp hdecimal
    · have hd := Text.isNumeral_of_isDigits hd
      obtain ⟨hrange, -⟩ := (decimal_ok hd.integer?_eq).mp h
      exact ⟨_, .natural hd (by omega)⟩
    · have hd := Text.isNumeral_of_isDigits hd
      obtain ⟨hrange, -⟩ := (decimal_ok hd.integer?_neg).mp h
      exact ⟨_, .negative hd (by omega)⟩
  · split at h
    · next digits hdigits =>
      obtain ⟨hne, rfl⟩ := digits?_eq_some.mp hdigits
      obtain ⟨bs, hspells, -⟩ := inserted_ok.mp h
      exact ⟨_, .raw hne hspells⟩
    · split at h
      · next cs hquoted =>
        rw [quoted?_eq_some.mp hquoted]
        exact ⟨_, .text cs⟩
      · split at h
        · next op hname => exact ⟨_, .name (Opcode.ofName?_iff.mp hname)⟩
        · cases h

/-- Reading a word gives what it says, and only that. -/
theorem readWord_ok : readWord text announced word = .ok c ↔
    ∃ t, Says word t ∧ t.bytes? = .ok c.bytes ∧ t.announces announced = c.announced := by
  have hread (t : Token) : (t.bytes?.map fun bs => ⟨bs, t.announces announced⟩) = Except.ok c ↔
      t.bytes? = .ok c.bytes ∧ t.announces announced = c.announced := by
    obtain ⟨bytes, next⟩ := c
    cases t.bytes? <;> simp [Except.map]
  constructor
  · intro h
    obtain ⟨t, ht⟩ := exists_says h
    rw [ht.readWord_eq, hread] at h
    exact ⟨t, ht, h⟩
  · rintro ⟨t, ht, h⟩
    rw [ht.readWord_eq]
    exact (hread t).mpr h

theorem announcedAt_cons (i : Nat) :
    announcedAt first (t :: ts) (i + 1) = announcedAt (t.announces first) ts i := by
  induction i with
  | zero => rfl
  | succ i ih =>
    rw [announcedAt, ih, List.getElem?_cons_succ]
    rfl

theorem honoured_nil : Honoured first ts [] := nofun

theorem honoured_cons : Honoured first (t :: ts) (part :: parts) ↔
    (first ≠ 0 → part.length = first) ∧ Honoured (t.announces first) ts parts := by
  constructor
  · intro h
    refine ⟨fun hfirst => h 0 part rfl hfirst, fun i next hi hnext => ?_⟩
    have hkept := h (i + 1) next hi
    rw [announcedAt_cons] at hkept
    exact hkept hnext
  · rintro ⟨hpart, h⟩ i next hi hnext
    cases i with
    | zero =>
      cases hi
      exact hpart hnext
    | succ i =>
      rw [announcedAt_cons] at hnext ⊢
      exact h i next hi hnext

theorem readWords_cons_ok : readWords text first (word :: words) = .ok bs ↔
    ∃ c more, readWord text first word = .ok c ∧ (first ≠ 0 → c.bytes.length = first) ∧
      readWords text c.announced words = .ok more ∧ c.bytes ++ more = bs := by
  rw [readWords, except_bind_ok]
  refine exists_congr fun c => ?_
  by_cases hbroken : first ≠ 0 ∧ c.bytes.length ≠ first
  · rw [if_pos hbroken]
    refine iff_of_false (fun h => ?_) fun ⟨_, _, hkept, _⟩ => hbroken.2 (hkept hbroken.1)
    cases h.2
  · have hkept : first ≠ 0 → c.bytes.length = first := by
      intro hfirst
      by_contra hlength
      exact hbroken ⟨hfirst, hlength⟩
    rw [if_neg hbroken]
    simp only [except_bind_ok, except_pure_ok]
    constructor
    · rintro ⟨hword, more, hwords, hbs⟩
      exact ⟨more, hword, hkept, hwords, hbs⟩
    · rintro ⟨more, hword, -, hwords, hbs⟩
      exact ⟨hword, more, hwords, hbs⟩

/-- Reading words takes what each of them says, and keeps what is announced. By induction on the words; what the
first one announces goes on to the others. -/
theorem readWords_ok : readWords text first words = .ok bs ↔
    ∃ ts parts, List.Forall₂ Says words ts ∧ List.Forall₂ (fun t part => t.bytes? = .ok part) ts parts ∧
      Honoured first ts parts ∧ parts.flatten = bs := by
  induction words generalizing first bs with
  | nil =>
    constructor
    · intro h
      cases h
      exact ⟨[], [], .nil, .nil, honoured_nil, rfl⟩
    · rintro ⟨ts, parts, hsays, hparts, -, rfl⟩
      cases hsays
      cases hparts
      rfl
  | cons word words ih =>
    rw [readWords_cons_ok]
    constructor
    · rintro ⟨c, more, hword, hkept, hwords, rfl⟩
      obtain ⟨t, hsays, hbytes, hnext⟩ := readWord_ok.mp hword
      obtain ⟨ts, parts, hall, hparts, hhonoured, rfl⟩ := ih.mp hwords
      rw [← hnext] at hhonoured
      exact ⟨t :: ts, c.bytes :: parts, .cons hsays hall, .cons hbytes hparts,
        honoured_cons.mpr ⟨hkept, hhonoured⟩, rfl⟩
    · rintro ⟨_, _, hsays, hparts, hhonoured, rfl⟩
      cases hsays with
      | @cons _ t _ ts hsays hall =>
      cases hparts with
      | @cons _ part _ parts hpart hparts =>
      obtain ⟨hkept, hhonoured⟩ := honoured_cons.mp hhonoured
      exact ⟨⟨part, t.announces first⟩, parts.flatten, readWord_ok.mpr ⟨t, hsays, hpart, rfl⟩, hkept,
        ih.mpr ⟨ts, parts, hall, hparts, hhonoured, rfl⟩, rfl⟩

/-- What is carried from word to word: what was read, how much of it there was before the last word, how many bytes
were announced for that word, and how many for the next one. -/
structure Progress where
  result : Bytes
  before : Nat
  due : Nat
  nextDue : Nat

namespace Progress

variable {p : Progress}

/-- Whether the last word added what was announced for it. -/
def check (p : Progress) : Except ScriptFault PUnit :=
  if p.due ≠ 0 ∧ p.result.length - p.before ≠ p.due then .error .announcementBroken else .ok ⟨⟩

/-- Goes on to the next word. -/
def next (p : Progress) : Progress := ⟨p.result, p.result.length, p.nextDue, 0⟩

def add (p : Progress) (bs : Bytes) (announced : Nat) : Progress :=
  { p with result := p.result ++ bs, nextDue := announced }

/-- Takes one word in. Only bytes are compared with their announcement at once. -/
def takeWord (text : String) (p : Progress) (word : List Char) : Except ScriptFault Progress :=
  if isDecimal word then
    (decimal word).map fun c => p.add c.bytes 0
  else match digits? word with
    | some digits =>
      match Hex.decode (String.ofList digits) with
      | .error _ => .error (.notWholeBytes (String.ofList word))
      | .ok raw =>
        if p.due ≠ 0 ∧ raw.length ≠ p.due then .error .announcementBroken
        else .ok (p.add raw ((Token.raw raw).announces p.due))
    | none =>
      match quoted? word with
      | some cs => (pushBytes (textBytes cs)).map fun bs => p.add bs 0
      | none =>
        match Opcode.ofName? word with
        | some op => .ok (p.add [op] (announcedBy op))
        | none => .error (.unknownWord (String.ofList word) text)

/-- Takes words in, each after the one before it has been checked, and checks the last one. -/
def run (text : String) (p : Progress) : List (List Char) → Except ScriptFault Bytes
  | [] => do
    p.check
    return p.result
  | word :: words => do
    p.check
    (← p.next.takeWord text word).run text words

theorem check_add_bind {α : Type} (bs : Bytes) (announced : Nat) (x : Except ScriptFault α) :
    ((p.next.add bs announced).check >>= fun _ => x) =
      if p.nextDue ≠ 0 ∧ bs.length ≠ p.nextDue then .error .announcementBroken else x := by
  have hlength : (p.result ++ bs).length - p.result.length = bs.length := by simp
  simp only [check, next, add, hlength]
  split <;> rfl

/-- A word that is taken in and then checked is read, and then has to keep what was announced. -/
theorem takeWord_check_bind {α : Type} (k : Progress → Except ScriptFault α) :
    (p.next.takeWord text word >>= fun q => q.check >>= fun _ => k q) =
      (readWord text p.nextDue word >>= fun c =>
        if p.nextDue ≠ 0 ∧ c.bytes.length ≠ p.nextDue then .error .announcementBroken
        else k (p.next.add c.bytes c.announced)) := by
  have hadd (bs : Bytes) (announced : Nat) :=
    @check_add_bind p α bs announced (k (p.next.add bs announced))
  cases hdecimal : isDecimal word with
  | true =>
    simp only [takeWord, readWord, hdecimal, if_true]
    cases hnumber : decimal word with
    | error fault => rfl
    | ok c =>
      have hnone := decimal_announced hnumber
      refine (hadd c.bytes 0).trans ?_
      rw [← hnone]
      rfl
  | false =>
    cases hdigits : digits? word with
    | some digits =>
      simp only [takeWord, readWord, hdecimal, hdigits]
      cases hdecode : Hex.decode (String.ofList digits) with
      | error fault =>
        simp only [inserted, hdecode]
        rfl
      | ok bs =>
        simp only [inserted_of_decode hdecode]
        by_cases hbroken : p.nextDue ≠ 0 ∧ bs.length ≠ p.nextDue
        · rw [if_pos (show p.next.due ≠ 0 ∧ bs.length ≠ p.next.due from hbroken)]
          exact (if_pos hbroken).symm
        · rw [if_neg (show ¬ (p.next.due ≠ 0 ∧ bs.length ≠ p.next.due) from hbroken)]
          exact hadd bs ((Token.raw bs).announces p.nextDue)
    | none =>
      cases hquoted : quoted? word with
      | some cs =>
        simp only [takeWord, readWord, hdecimal, hdigits, hquoted]
        cases pushBytes (textBytes cs) with
        | error fault => rfl
        | ok bs => exact hadd bs 0
      | none =>
        simp only [takeWord, readWord, hdecimal, hdigits, hquoted]
        cases Opcode.ofName? word with
        | none => rfl
        | some op => exact hadd [op] (announcedBy op)

/-- By induction on the words. What has been read stays in front, and the check of the last word comes first. -/
theorem run_eq : p.run text words =
    (p.check >>= fun _ => (readWords text p.nextDue words).map (p.result ++ ·)) := by
  induction words generalizing p with
  | nil =>
    simp only [run, readWords, Except.map, List.append_nil]
    rfl
  | cons word words ih =>
    simp only [run, readWords, ih, takeWord_check_bind]
    cases p.check with
    | error fault => rfl
    | ok _ =>
      cases readWord text p.nextDue word with
      | error fault => rfl
      | ok c =>
        by_cases hbroken : p.nextDue ≠ 0 ∧ c.bytes.length ≠ p.nextDue
        · simp only [bind, Except.bind, if_pos hbroken]
          rfl
        · simp only [bind, Except.bind, if_neg hbroken]
          change (readWords text c.announced words).map (fun more => p.result ++ c.bytes ++ more) = _
          cases readWords text c.announced words with
          | error fault => rfl
          | ok more => exact congrArg Except.ok (List.append_assoc _ _ _)

end Progress

end Script.Shorthand

/-- Reads a text with counters, from none. -/
def Script.ofShorthandByCounters (text : String) : Except ScriptFault Script :=
  (Shorthand.Progress.run text ⟨[], 0, 0, 0⟩ (Text.words text.toList)).map Script.mk

open Script.Shorthand in
/-- Shorthand is read exactly if each word between white space says something, what it says can be added, and as many
bytes are added as were announced; the script is then all that was added, in order. The reader with counters finds the
same script or the same fault. What a word says can always be added, but for a text that is too long to be pushed. -/
theorem Script.shorthand_read_iff (text : String) :
    ofShorthandByCounters text = ofShorthand text ∧
    (∀ s, ofShorthand text = .ok s ↔ ∃ words ts parts, Text.Cut text.toList words ∧ List.Forall₂ Says words ts ∧
      List.Forall₂ (fun t part => t.bytes? = .ok part) ts parts ∧ Honoured 0 ts parts ∧ s.bytes = parts.flatten) ∧
    ∀ t : Token, (∃ part, t.bytes? = .ok part) ∨
      ∃ cs, t = .text cs ∧ 0xffffffff < (cs.flatMap String.utf8EncodeChar).length := by
  refine ⟨?_, fun s => ?_, fun t => ?_⟩
  · rw [ofShorthandByCounters, Progress.run_eq, ofShorthand]
    change ((readWords text 0 (Text.words text.toList)).map ([] ++ ·)).map Script.mk = _
    cases readWords text 0 (Text.words text.toList) <;> rfl
  · have hread : ofShorthand text = .ok s ↔ readWords text 0 (Text.words text.toList) = .ok s.bytes := by
      rw [ofShorthand]
      obtain ⟨bytes⟩ := s
      cases readWords text 0 (Text.words text.toList) <;> simp [Except.map]
    rw [hread, readWords_ok]
    constructor
    · rintro ⟨ts, parts, hsays, hparts, hhonoured, hflat⟩
      exact ⟨_, ts, parts, Text.words_eq_iff.mp rfl, hsays, hparts, hhonoured, hflat.symm⟩
    · rintro ⟨words, ts, parts, hcut, hsays, hparts, hhonoured, hflat⟩
      rw [Text.words_eq_iff.mpr hcut]
      exact ⟨ts, parts, hsays, hparts, hhonoured, hflat.symm⟩
  · cases t with
    | number n => exact .inl ⟨_, rfl⟩
    | raw bs => exact .inl ⟨_, rfl⟩
    | name op => exact .inl ⟨_, rfl⟩
    | text cs =>
      by_cases hlength : (cs.flatMap String.utf8EncodeChar).length ≤ 0xffffffff
      · exact .inl ⟨_, Operation.pushBytes_eq hlength⟩
      · exact .inr ⟨cs, rfl, Nat.lt_of_not_le hlength⟩

/-- A text is pushed as it stands between its quotes, and what is written in bytes is not pushed. -/
example : (Script.ofShorthand "'é' 0x01 0x07 DUP -1").toOption = some ⟨[2, 0xc3, 0xa9, 1, 7, 0x76, 0x4f]⟩ := by
  decide +kernel

end CoinScript
