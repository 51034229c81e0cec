import CoinScript.Proofs.PushedNumbers

namespace CoinScript

namespace Text

variable {cs digits : List Char} {c : Char}

theorem dropLead_eq_some {lead rest : List Char} : dropLead lead cs = some rest ↔ cs = lead ++ rest := by
  unfold dropLead
  constructor
  · intro h
    obtain ⟨hlead, hrest⟩ := Option.ite_none_right_eq_some.mp h
    obtain ⟨more, rfl⟩ := List.isPrefixOf_iff_prefix.mp hlead
    simp only [List.drop_left, Option.some.injEq] at hrest
    rw [hrest]
  · rintro rfl
    simp

theorem isDigits_iff : isDigits cs = true ↔ cs ≠ [] ∧ ∀ c ∈ cs, c.isDigit = true := by
  rw [isDigits, Bool.and_eq_true, List.all_eq_true]
  simp [Char.isDigit, Char.le_def]

/-- Figures, and the number that they spell in base 10. -/
structure IsNumeral (digits : List Char) (n : Nat) : Prop where
  nonempty : digits ≠ []
  figures : ∀ c ∈ digits, c.isDigit = true
  value : Nat.ofDigitChars 10 digits 0 = n

/-- A number in figures, with a sign or without one. -/
inductive Denotes : List Char → Int → Prop
  | bare {digits : List Char} {n : Nat} (h : IsNumeral digits n) : Denotes digits n
  | plus {digits : List Char} {n : Nat} (h : IsNumeral digits n) : Denotes ('+' :: digits) n
  | minus {digits : List Char} {n : Nat} (h : IsNumeral digits n) : Denotes ('-' :: digits) (-n)

theorem isNumeral_of_isDigits (h : isDigits digits = true) : IsNumeral digits (decimalValue digits) :=
  ⟨(isDigits_iff.mp h).1, (isDigits_iff.mp h).2, rfl⟩

theorem IsNumeral.isDigits {n : Nat} (h : IsNumeral digits n) : isDigits digits = true :=
  isDigits_iff.mpr ⟨h.nonempty, h.figures⟩

theorem IsNumeral.integer?_eq {n : Nat} (h : IsNumeral digits n) : integer? digits = some (n : Int) := by
  have hvalue : decimalValue digits = n := h.value
  unfold integer?
  split
  · cases h.figures '-' List.mem_cons_self
  · cases h.figures '+' List.mem_cons_self
  · rw [if_pos h.isDigits, hvalue]

theorem IsNumeral.integer?_neg {n : Nat} (h : IsNumeral digits n) :
    integer? ('-' :: digits) = some (-(n : Int)) := by
  have hvalue : decimalValue digits = n := h.value
  rw [integer?, if_pos h.isDigits, hvalue]

theorem integer?_eq_some {n : Int} : integer? cs = some n ↔ Denotes cs n := by
  constructor
  · intro h
    unfold integer? at h
    split at h
    all_goals
      obtain ⟨hdigits, hn⟩ := Option.ite_none_right_eq_some.mp h
      obtain rfl := Option.some.inj hn
    · exact .minus (isNumeral_of_isDigits hdigits)
    · exact .plus (isNumeral_of_isDigits hdigits)
    · exact .bare (isNumeral_of_isDigits hdigits)
  · intro h
    cases h with
    | bare h => exact h.integer?_eq
    | @plus digits n h =>
      have hvalue : decimalValue digits = n := h.value
      rw [integer?, if_pos h.isDigits, hvalue]
    | minus h => exact h.integer?_neg

theorem Denotes.isNumberChar {n : Int} (h : Denotes cs n) (hc : c ∈ cs) :
    c.isDigit = true ∨ c = '+' ∨ c = '-' := by
  cases h with
  | bare h => exact .inl (h.figures c hc)
  | plus h => exact (List.mem_cons.mp hc).elim (fun hc => .inr (.inl hc)) fun hc => .inl (h.figures c hc)
  | minus h => exact (List.mem_cons.mp hc).elim (fun hc => .inr (.inr hc)) fun hc => .inl (h.figures c hc)

theorem toNat_of_isUpper (h : c.isUpper = true) : 65 ≤ c.toNat ∧ c.toNat ≤ 90 := by
  have hval : 'A'.val ≤ c.val ∧ c.val ≤ 'Z'.val := of_decide_eq_true h
  exact ⟨UInt32.le_iff_toNat_le.mp hval.1, UInt32.le_iff_toNat_le.mp hval.2⟩

theorem toNat_of_isDigit (h : c.isDigit = true) : 48 ≤ c.toNat ∧ c.toNat ≤ 57 := by
  obtain ⟨hlow, hhigh⟩ := Bool.and_eq_true _ _ ▸ h
  exact ⟨UInt32.le_iff_toNat_le.mp (of_decide_eq_true hlow), UInt32.le_iff_toNat_le.mp (of_decide_eq_true hhigh)⟩

theorem isDigit_of_isUpper (h : c.isUpper = true) : c.isDigit = false := by
  rw [← Bool.not_eq_true]
  intro hdigit
  have hupper := toNat_of_isUpper h
  have hdigit := toNat_of_isDigit hdigit
  omega

theorem integer?_of_isUpper (hc : c ∈ cs) (hupper : c.isUpper = true) : integer? cs = none := by
  cases hn : integer? cs with
  | none => rfl
  | some n =>
    rcases (integer?_eq_some.mp hn).isNumberChar hc with hdigit | rfl | rfl
    · cases (isDigit_of_isUpper hupper).symm.trans hdigit
    · cases hupper
    · cases hupper

end Text

namespace Opcode

variable {op : Opcode} {table : List (Opcode × String)} {word : String} {cs : List Char} {c : Char}

/-- The first code that has no meaning. -/
def firstUndefined : Opcode := 0xbd

theorem words_checked : ∀ e ∈ aliases ++ named, e.1 < firstUndefined ∧ e.2.toList.any Char.isUpper = true ∧
    (e.2.toList.all fun c => c.isUpper || c.isDigit) = true := by
  decide +kernel

theorem exists_isUpper_word (h : (op, word) ∈ aliases ++ named) : ∃ c ∈ word.toList, c.isUpper = true :=
  List.any_eq_true.mp (words_checked _ h).2.1

theorem words_nodup : ((aliases ++ named).map Prod.snd).Nodup := by
  decide +kernel

/-- Every code after the numbers has a word, up to the first one without a meaning. -/
theorem exists_word (h : op = reserved ∨ sixteen < op) (hd : op < firstUndefined) :
    ∃ word, named.lookup op = some word := by
  have hall : ∀ k < 189, UInt8.ofNat k = reserved ∨ sixteen < UInt8.ofNat k →
      (named.lookup (UInt8.ofNat k)).isSome = true := by decide +kernel
  have hop := hall op.toNat (UInt8.lt_iff_toNat_lt.mp hd)
  rw [UInt8.ofNat_toNat] at hop
  exact Option.isSome_iff_exists.mp (hop h)

/-- The codes that the program goes by are those of their words. -/
theorem constants_named :
    [(zero, "FALSE"), (pushData1, "PUSHDATA1"), (pushData2, "PUSHDATA2"), (pushData4, "PUSHDATA4"),
      (negativeOne, "1NEGATE"), (reserved, "RESERVED"), (one, "TRUE"), (branchIf, "IF"), (branchEnd, "ENDIF"),
      (drop, "DROP"), (dup, "DUP"), (abort, "RETURN"), (equal, "EQUAL"), (equalVerify, "EQUALVERIFY"),
      (hash160, "HASH160"), (hash256, "HASH256"), (codeSeparator, "CODESEPARATOR"), (checkSig, "CHECKSIG"),
      (checkSigVerify, "CHECKSIGVERIFY"), (checkMultisig, "CHECKMULTISIG"),
      (checkMultisigVerify, "CHECKMULTISIGVERIFY"), (checkLockTimeVerify, "CHECKLOCKTIMEVERIFY"),
      (checkDataSig, "CHECKDATASIG"), (checkDataSigVerify, "CHECKDATASIGVERIFY")] ⊆ aliases ++ named := by
  decide +kernel

/-- The codes that are refused wherever they stand, by their words. -/
theorem isDisabled_iff : isDisabled op = true ↔
    ∃ word ∈ ["2MUL", "2DIV", "INVERT", "MUL", "LSHIFT", "RSHIFT"], (op, word) ∈ named := by
  have hall : ∀ k < 256, isDisabled (UInt8.ofNat k) = true ↔
      ∃ word ∈ ["2MUL", "2DIV", "INVERT", "MUL", "LSHIFT", "RSHIFT"], (UInt8.ofNat k, word) ∈ named := by
    decide +kernel
  have hop := hall op.toNat op.toNat_lt
  rwa [UInt8.ofNat_toNat] at hop

theorem spelled?_eq_some (h : spelled? table cs = some op) : ∃ word, (op, word) ∈ table ∧ word.toList = cs := by
  obtain ⟨⟨code, word⟩, hfind, rfl⟩ := Option.map_eq_some_iff.mp h
  exact ⟨word, List.mem_of_find?_eq_some hfind, by simpa using List.find?_some hfind⟩

theorem spelled?_of_mem (hd : (table.map Prod.snd).Nodup) (h : (op, word) ∈ table) :
    spelled? table word.toList = some op := by
  induction table with
  | nil => cases h
  | cons e table ih =>
    obtain ⟨hfirst, hd⟩ := List.nodup_cons.mp hd
    rcases List.mem_cons.mp h with rfl | h
    · simp [spelled?]
    · have hne : e.2 ≠ word := fun he => hfirst (List.mem_map.mpr ⟨_, h, he.symm⟩)
      have hskip : (e.2.toList == word.toList) = false := by simpa [String.toList_inj] using hne
      simp only [spelled?, List.find?_cons, hskip]
      exact ih hd h

theorem mem_of_lookup (h : table.lookup op = some word) : (op, word) ∈ table := by
  obtain ⟨before, after, rfl, -⟩ := List.lookup_eq_some_iff.mp h
  simp

/-- A name is a word, with or without `OP_` before it, or that and a number from 0 to 16. -/
inductive IsName : List Char → Opcode → Prop
  | word {op : Opcode} {word : String} (h : (op, word) ∈ aliases ++ named) : IsName word.toList op
  | lead {op : Opcode} {word : String} (h : (op, word) ∈ aliases ++ named) : IsName ("OP_" ++ word).toList op
  | number {op : Opcode} {rest : List Char} {n : Int} (hn : Text.Denotes rest n) (h0 : 0 ≤ n)
      (hop : ofSmallNumber? n = some op) : IsName ("OP_".toList ++ rest) op

theorem isName_of_ofName? (h : ofName? cs = some op) : IsName cs op := by
  cases hlead : Text.dropLead "OP_".toList cs with
  | none =>
    simp only [ofName?, hlead] at h
    obtain ⟨word, hword, rfl⟩ := spelled?_eq_some h
    exact .word hword
  | some rest =>
    obtain rfl := Text.dropLead_eq_some.mp hlead
    have hspelled {table : List (Opcode × String)} (h : spelled? table rest = some op)
        (hsub : table ⊆ aliases ++ named) : IsName ("OP_".toList ++ rest) op := by
      obtain ⟨word, hword, rfl⟩ := spelled?_eq_some h
      rw [← String.toList_append]
      exact .lead (hsub hword)
    simp only [ofName?, hlead] at h
    split at h
    · next found halias =>
      cases h
      exact hspelled halias (List.subset_append_left _ _)
    · split at h
      · next n hn =>
        obtain ⟨h0, hop⟩ := Option.ite_none_right_eq_some.mp h
        exact .number (Text.integer?_eq_some.mp hn) h0 hop
      · exact hspelled h (List.subset_append_right _ _)

/-- The characters that names are made of. -/
def IsNameChar (c : Char) : Prop := c.isUpper = true ∨ c.isDigit = true ∨ c = '_' ∨ c = '+' ∨ c = '-'

instance : DecidablePred IsNameChar :=
  fun c => inferInstanceAs (Decidable (c.isUpper = true ∨ c.isDigit = true ∨ c = '_' ∨ c = '+' ∨ c = '-'))

theorem isUpper_or_isDigit (h : (op, word) ∈ aliases ++ named) (hc : c ∈ word.toList) :
    c.isUpper = true ∨ c.isDigit = true :=
  Bool.or_eq_true _ _ ▸ List.all_eq_true.mp (words_checked _ h).2.2 c hc

theorem IsName.isNameChar (h : IsName cs op) (hc : c ∈ cs) : IsNameChar c := by
  have hlead (hc : c ∈ "OP_".toList) : IsNameChar c := by
    simp only [String.reduceToList, List.mem_cons, List.not_mem_nil, or_false] at hc
    rcases hc with rfl | rfl | rfl <;> decide
  cases h with
  | word h => exact (isUpper_or_isDigit h hc).imp_right .inl
  | lead h =>
    rw [String.toList_append] at hc
    exact (List.mem_append.mp hc).elim hlead fun hc => (isUpper_or_isDigit h hc).imp_right .inl
  | number hn =>
    exact (List.mem_append.mp hc).elim hlead fun hc => .inr ((hn.isNumberChar hc).imp_right .inr)

theorem IsName.exists_isUpper (h : IsName cs op) : ∃ c ∈ cs, c.isUpper = true := by
  cases h with
  | word h => exact exists_isUpper_word h
  | lead h => exact ⟨'O', by simp, by decide⟩
  | number => exact ⟨'O', by simp, by decide⟩

theorem IsName.lt_firstUndefined (h : IsName cs op) : op < firstUndefined := by
  cases h with
  | word h => exact (words_checked _ h).1
  | lead h => exact (words_checked _ h).1
  | @number _ _ n _ h0 hop =>
    obtain ⟨rfl, hcode⟩ | ⟨rfl, -⟩ | ⟨k, -, h16, rfl, hcode⟩ | ⟨-, hcode⟩ := ofSmallNumber?_cases n
    · cases hop.symm.trans hcode
      decide
    · omega
    · cases hop.symm.trans hcode
      rw [UInt8.lt_iff_toNat_lt, UInt8.toNat_ofNat_of_lt' (show 80 + k < 256 by omega)]
      exact Nat.lt_of_le_of_lt (Nat.add_le_add_left h16 80) (by decide)
    · cases hop.symm.trans hcode

theorem ofName?_number {rest : List Char} {n : Int} (hn : Text.integer? rest = some n) (h0 : 0 ≤ n) :
    ofName? ("OP_".toList ++ rest) = ofSmallNumber? n := by
  have hlead : Text.dropLead "OP_".toList ("OP_".toList ++ rest) = some rest := Text.dropLead_eq_some.mpr rfl
  have halias : spelled? aliases rest = none := by
    cases hspelled : spelled? aliases rest with
    | none => rfl
    | some other =>
      obtain ⟨word, hmem, rfl⟩ := spelled?_eq_some hspelled
      obtain ⟨c, hc, hupper⟩ := exists_isUpper_word (List.mem_append_left named hmem)
      cases (Text.integer?_of_isUpper hc hupper).symm.trans hn
  simp only [ofName?, hlead, halias, hn, if_pos h0]

theorem ofName?_lead (h : (op, word) ∈ aliases ++ named) : ofName? ("OP_" ++ word).toList = some op := by
  have hnodup := words_nodup
  rw [List.map_append] at hnodup
  obtain ⟨haliases, hnamed, hdisjoint⟩ := List.nodup_append.mp hnodup
  have hlead : Text.dropLead "OP_".toList ("OP_" ++ word).toList = some word.toList :=
    Text.dropLead_eq_some.mpr String.toList_append
  rcases List.mem_append.mp h with halias | hname
  · simp only [ofName?, hlead, spelled?_of_mem haliases halias]
  · have hnone : spelled? aliases word.toList = none := by
      cases hspelled : spelled? aliases word.toList with
      | none => rfl
      | some other =>
        obtain ⟨word', hmem, hword⟩ := spelled?_eq_some hspelled
        obtain rfl := String.toList_inj.mp hword
        cases hdisjoint _ (List.mem_map_of_mem hmem) _ (List.mem_map_of_mem hname) rfl
    obtain ⟨c, hc, hupper⟩ := exists_isUpper_word h
    simp only [ofName?, hlead, hnone, Text.integer?_of_isUpper hc hupper, spelled?_of_mem hnamed hname]

theorem ofName?_word (h : (op, word) ∈ aliases ++ named) : ofName? word.toList = some op := by
  have hlead : Text.dropLead "OP_".toList word.toList = none := by
    cases hlead : Text.dropLead "OP_".toList word.toList with
    | none => rfl
    | some rest =>
      have hmem : '_' ∈ word.toList := by
        rw [Text.dropLead_eq_some.mp hlead]
        simp
      rcases isUpper_or_isDigit h hmem with hc | hc <;> cases hc
  simp only [ofName?, hlead, spelled?_of_mem words_nodup h]

/-- The names of the tables are read, and no others. -/
theorem ofName?_iff : ofName? cs = some op ↔ IsName cs op := by
  refine ⟨isName_of_ofName?, fun h => ?_⟩
  cases h with
  | word h => exact ofName?_word h
  | lead h => exact ofName?_lead h
  | number hn h0 hop => rw [ofName?_number (Text.integer?_eq_some.mpr hn) h0, hop]

theorem isSmallNumber_eq_false (h : op = reserved ∨ sixteen < op) : isSmallNumber op = false := by
  rcases h with rfl | h
  · rfl
  · have hne {small : Opcode} (hle : small ≤ sixteen) : op ≠ small := by
      rintro rfl
      exact UInt8.not_lt.mpr hle h
    simp [isSmallNumber, isOneToSixteen, hne (show zero ≤ sixteen by decide),
      hne (show negativeOne ≤ sixteen by decide), h]

/-- A code after the numbers is read back from its name. -/
theorem ofName?_name (h : op = reserved ∨ sixteen < op) (hd : op < firstUndefined) :
    ofName? (name op).toList = some op := by
  obtain ⟨word, hword⟩ := exists_word h hd
  have hsmall := isSmallNumber_eq_false h
  have hvalid : op ≠ 0xff := by
    rintro rfl
    exact absurd hd (by decide)
  have hname : name op = "OP_" ++ word := by simp [name, hsmall, hvalid, hword]
  rw [hname]
  exact ofName?_lead (List.mem_append_right _ (mem_of_lookup hword))

theorem ofName?_ofNat {k : Nat} (hk : k ≤ 16) :
    ofName? ("OP_" ++ toString (k : Int)).toList = ofSmallNumber? k := by
  have hall : ∀ k : Nat, k < 17 → ofName? ("OP_" ++ toString (k : Int)).toList = ofSmallNumber? k := by decide
  exact hall k (Nat.lt_succ_of_le hk)

/-- So is a number. -/
theorem ofName?_smallNumber (h : op = zero ∨ isOneToSixteen op = true) :
    ofName? ("OP_" ++ toString (smallNumber op)).toList = some op := by
  obtain ⟨⟨h0, h16⟩, hcode⟩ := smallNumber_iff.mp ⟨h, rfl⟩
  obtain ⟨k, hk⟩ := Int.eq_ofNat_of_zero_le h0
  rw [hk] at h16 hcode ⊢
  rw [ofName?_ofNat (by omega), hcode]

end Opcode

end CoinScript
