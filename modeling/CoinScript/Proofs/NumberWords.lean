import CoinScript.Proofs.SignMagnitude

namespace CoinScript.Number

/-- A number in two's complement. -/
abbrev Word := BitVec 64

namespace Word

variable {word : Word} {bs : Bytes} {k m : Nat}

/-- A shift to the left by less than the width of a word. -/
def shiftLeft? (word : Word) (k : Nat) : Option Word := if k < 64 then some (word <<< k) else none

/-- The negative of a word, unless a word does not hold it. -/
def negate? (word : Word) : Option Word := if word = BitVec.intMin 64 then none else some (-word)

/-- Puts bytes into a word one above the other, from a place on. -/
def fill? : Word → Nat → Bytes → Option Word
  | word, _, [] => some word
  | word, place, b :: bs => do
    fill? (word ||| (← shiftLeft? (b.toBitVec.setWidth 64) (8 * place))) (place + 1) bs

/-- The number of a byte string. The sign is masked out of the last byte. -/
def decode? (bs : Bytes) : Option Word :=
  match bs.length with
  | 0 => some 0
  | n + 1 => do
    let word ← fill? 0 0 bs
    if (← bs[n]?) &&& 0x80 = 0 then return word
    negate? (word &&& ~~~(← shiftLeft? 0x80 (8 * n)))

/-- The bytes of a word up to the last that is not zero, least first. -/
def lowBytes (word : Word) : Bytes :=
  if word = 0 then [] else ⟨(word &&& 0xff).setWidth 8⟩ :: lowBytes (word >>> 8)
termination_by word.toNat
decreasing_by
  rename_i h
  have hpos : word.toNat ≠ 0 := fun h0 => h (BitVec.eq_of_toNat_eq h0)
  rw [BitVec.toNat_ushiftRight, Nat.shiftRight_eq_div_pow]
  exact Nat.div_lt_self (Nat.pos_of_ne_zero hpos) (by decide)

/-- The shortest string for a number, its sign in the top bit of the last byte or in one of its own. -/
def encode? (word : Word) : Option Bytes :=
  if word = 0 then some []
  else
    let digits := lowBytes word.abs
    match digits.length with
    | 0 => none
    | n + 1 => do
      let top ← digits[n]?
      if top &&& 0x80 ≠ 0 then return digits ++ [if word.toInt < 0 then 0x80 else 0x00]
      if word.toInt < 0 then return digits.set n (top ||| 0x80)
      return digits

theorem shiftLeft?_eq (word : Word) (h : k < 64) : shiftLeft? word k = some (word <<< k) := if_pos h

theorem negate?_eq (h : word.toNat < 2 ^ 63) :
    ∃ negative, negate? word = some negative ∧ negative.toInt = -(word.toNat : Int) := by
  have hmin : word ≠ BitVec.intMin 64 := by
    rintro rfl
    exact absurd h (by decide)
  refine ⟨-word, if_neg hmin, ?_⟩
  rw [BitVec.toInt_neg_of_ne_intMin hmin, BitVec.toInt_eq_toNat_of_lt (by omega)]

/-- Bytes stand above what is in the word already. -/
theorem fill?_eq {place : Nat} (hp : place + bs.length ≤ 8) (hw : word.toNat < 256 ^ place) :
    ∃ filled, fill? word place bs = some filled ∧
      filled.toNat = word.toNat + 256 ^ place * Bytes.toNatLE bs := by
  induction bs generalizing word place with
  | nil => exact ⟨word, rfl, by simp [Bytes.toNatLE]⟩
  | cons b bs ih =>
    rw [List.length_cons] at hp
    have hb := b.toNat_lt
    have hpow : 256 ^ place = 2 ^ (8 * place) := (Nat.pow_mul 2 8 place).symm
    have hshifted : (b.toBitVec.setWidth 64 <<< (8 * place)).toNat = 256 ^ place * b.toNat := by
      have hroom : 256 ^ (place + 1) ≤ 256 ^ 8 := Nat.pow_le_pow_right (by decide) (by omega)
      have hmul := Nat.mul_lt_mul_of_pos_left hb (Nat.pow_pos (n := place) (by decide : 0 < 256))
      rw [Nat.pow_succ] at hroom
      rw [BitVec.toNat_shiftLeft, BitVec.toNat_setWidth_of_le (by decide), Nat.shiftLeft_eq, ← hpow,
        Nat.mul_comm]
      exact Nat.mod_eq_of_lt (by change 256 ^ place * b.toNat < _; omega)
    have hnext : (word ||| b.toBitVec.setWidth 64 <<< (8 * place)).toNat =
        word.toNat + 256 ^ place * b.toNat := by
      rw [BitVec.toNat_or, hshifted, hpow, Nat.or_comm,
        ← Nat.two_pow_add_eq_or_of_lt (hpow ▸ hw), Nat.add_comm]
    have hlt : word.toNat + 256 ^ place * b.toNat < 256 ^ (place + 1) := by
      have hmul := Nat.mul_le_mul_left (256 ^ place) (Nat.succ_le_of_lt hb)
      rw [Nat.mul_succ] at hmul
      rw [Nat.pow_succ]
      omega
    obtain ⟨filled, hfill, hvalue⟩ := ih (by omega) (hnext ▸ hlt)
    refine ⟨filled, ?_, ?_⟩
    · rw [fill?, shiftLeft?_eq _ (by omega)]
      exact hfill
    · rw [hvalue, hnext, Bytes.toNatLE, Nat.pow_succ, Nat.mul_add, Nat.mul_assoc, Nat.add_assoc]

theorem fill?_zero (h : bs.length ≤ 8) :
    ∃ filled, fill? 0 0 bs = some filled ∧ filled.toNat = Bytes.toNatLE bs := by
  obtain ⟨filled, hfill, hvalue⟩ := @fill?_eq 0 bs 0 (by omega) (by decide)
  exact ⟨filled, hfill, by simpa using hvalue⟩

/-- Masking out the greatest bit leaves what is below it. -/
theorem toNat_and_not_bit (hk : k < 64) (hm : m < 2 ^ k) (hw : word.toNat = 2 ^ k + m) :
    (word &&& ~~~(BitVec.twoPow 64 k)).toNat = m := by
  have hbelow : m < 2 ^ 64 := Nat.lt_trans hm (Nat.pow_lt_pow_right (by decide) hk)
  have hword : word = BitVec.twoPow 64 k ||| BitVec.ofNat 64 m := by
    apply BitVec.eq_of_toNat_eq
    have hor := Nat.two_pow_add_eq_or_of_lt hm 1
    rw [Nat.mul_one] at hor
    rw [BitVec.toNat_or, BitVec.toNat_twoPow_of_lt hk, BitVec.toNat_ofNat, Nat.mod_eq_of_lt hbelow, hw, hor]
  have hrest : word &&& ~~~(BitVec.twoPow 64 k) = BitVec.ofNat 64 m := by
    apply BitVec.eq_of_getLsbD_eq
    intro i hi
    rw [hword]
    simp only [BitVec.getLsbD_and, BitVec.getLsbD_or, BitVec.getLsbD_not, BitVec.getLsbD_twoPow,
      BitVec.getLsbD_ofNat, hk, hi, decide_true, Bool.true_and]
    by_cases hik : k = i
    · subst hik
      simp [Nat.testBit_lt_two_pow hm]
    · simp [hik]
  rw [hrest, BitVec.toNat_ofNat, Nat.mod_eq_of_lt hbelow]

/-- Reading into a word gives the number, for as many bytes as a word has. -/
theorem decode?_eq (h : bs.length ≤ 8) :
    ∃ word, decode? bs = some word ∧ word.toInt = signMagnitude bs := by
  rcases List.eq_nil_or_concat bs with rfl | ⟨below, last, rfl⟩
  · exact ⟨0, rfl, rfl⟩
  · rw [List.concat_eq_append] at h ⊢
    obtain ⟨word, hfill, hword⟩ := fill?_zero h
    have hlength : (below ++ [last]).length = below.length + 1 := by simp
    have hget : (below ++ [last])[below.length]? = some last := List.getElem?_concat_length
    have hroom : 256 ^ (below.length + 1) ≤ 256 ^ 8 := Nat.pow_le_pow_right (by decide) (by omega)
    have hsmall := two_mul_magnitude_lt (below ++ [last])
    have hsingle : Bytes.toNatLE [last] = last.toNat := by simp [Bytes.toNatLE]
    have hlow := toNat_low last
    have hlast := last.toNat_lt
    rw [Bytes.toNatLE_append, hsingle] at hword
    rw [hlength, magnitude_concat] at hsmall
    rw [decode?, signMagnitude, isNegative_concat, magnitude_concat]
    simp only [hlength, hfill, hget, Option.bind_eq_bind, Option.bind_some]
    by_cases hs : 0x80 ≤ last
    · have h128 : 128 ≤ last.toNat := UInt8.le_iff_toNat_le.mp hs
      have hk : 8 * below.length + 7 < 64 := by omega
      have hbit : (0x80 : Word) <<< (8 * below.length) = BitVec.twoPow 64 (8 * below.length + 7) := by
        rw [BitVec.twoPow_eq, Nat.add_comm, BitVec.shiftLeft_add]
        rfl
      have hpow : 2 ^ (8 * below.length + 7) = 128 * 256 ^ below.length := by
        rw [Nat.pow_add, Nat.pow_mul, Nat.mul_comm]
      have hsplit : last.toNat = 128 + (last &&& 0x7f).toNat := by omega
      rw [hsplit, Nat.mul_add, Nat.mul_comm _ 128, Nat.add_left_comm, ← hpow] at hword
      have hmasked := toNat_and_not_bit hk (by omega) hword
      have hheld : (word &&& ~~~BitVec.twoPow 64 (8 * below.length + 7)).toNat < 2 ^ 63 := by omega
      obtain ⟨negative, hnegate, hvalue⟩ := negate?_eq hheld
      rw [if_neg (fun h0 => high_eq_zero.mp h0 hs), decide_eq_true hs,
        shiftLeft?_eq _ (Nat.lt_of_le_of_lt (Nat.le_add_right _ 7) hk), Option.bind_some, hbit]
      refine ⟨negative, hnegate, ?_⟩
      rw [hvalue, hmasked]
      rfl
    · have h128 : last.toNat < 128 := UInt8.lt_iff_toNat_lt.mp (UInt8.not_le.mp hs)
      have hsame : (last &&& 0x7f).toNat = last.toNat := by omega
      rw [if_pos (high_eq_zero.mpr hs), decide_eq_false hs]
      rw [hsame] at hsmall ⊢
      refine ⟨word, rfl, ?_⟩
      rw [BitVec.toInt_eq_toNat_of_lt (by omega), hword]
      rfl

theorem toNat_abs (word : Word) : word.abs.toNat = word.toInt.natAbs := by
  have hword := word.isLt
  rw [BitVec.toNat_abs, BitVec.toInt_eq_msb_cond]
  split <;> omega

theorem lowBytes_eq (word : Word) : lowBytes word = Bytes.digits word.toNat := by
  induction word using lowBytes.induct with
  | case1 =>
    rw [lowBytes, if_pos rfl, Bytes.digits]
    rfl
  | case2 word hne ih =>
    have hpos : word.toNat ≠ 0 := fun h0 => hne (BitVec.eq_of_toNat_eq h0)
    have hbyte : (⟨(word &&& 0xff).setWidth 8⟩ : UInt8) = UInt8.ofNat word.toNat := by
      rw [← UInt8.toNat_inj, UInt8.toNat_ofNat']
      change ((word &&& 0xff).setWidth 8).toNat = _
      rw [BitVec.toNat_setWidth, BitVec.toNat_and]
      change (word.toNat &&& 2 ^ 8 - 1) % 2 ^ 8 = _
      rw [Nat.and_two_pow_sub_one_eq_mod, Nat.mod_mod]
    rw [lowBytes, if_neg hne, Bytes.digits, if_neg hpos, ih, hbyte, BitVec.toNat_ushiftRight,
      Nat.shiftRight_eq_div_pow]

/-- Writing from a word gives the encoding of its number, the least one included. -/
theorem encode?_eq (word : Word) : encode? word = some (encode word.toInt) := by
  by_cases h0 : word = 0
  · subst h0
    rw [encode?, if_pos rfl]
    exact congrArg some encode_zero.symm
  · have hne : Bytes.digits word.toInt.natAbs ≠ [] := by
      intro hempty
      have hzero := Bytes.toNatLE_digits word.toInt.natAbs
      rw [hempty] at hzero
      exact h0 (BitVec.eq_of_toInt_eq (Int.natAbs_eq_zero.mp hzero.symm))
    obtain ⟨below, top, hdigits⟩ := (List.eq_nil_or_concat _).resolve_left hne
    rw [List.concat_eq_append] at hdigits
    have hlength : (below ++ [top]).length = below.length + 1 := by simp
    have hget : (below ++ [top])[below.length]? = some top := List.getElem?_concat_length
    have hset (b : UInt8) : (below ++ [top]).set below.length b = below ++ [b] := by simp
    rw [encode?, if_neg h0, encode, lowBytes_eq, toNat_abs, hdigits, List.reverse_append, signByte]
    simp only [hlength, hget, hset, List.reverse_singleton, List.singleton_append, signed, ne_eq,
      high_eq_zero, Decidable.not_not, Option.bind_eq_bind, Option.bind_some]
    by_cases ht : 0x80 ≤ top
    · rw [if_pos ht, if_pos ht]
      simp
    · rw [if_neg ht, if_neg ht]
      split
      · simp
      · simp

end Word

variable {bs : Bytes} {limit : Nat} {n : Int}

/-- A number that is read in the shortest form is the one whose encoding was there. -/
theorem decode_minimal_ok (hlimit : limit ≤ 8) :
    decode true limit bs = .ok n ↔ bs.length ≤ limit ∧ bs = encode n := by
  rw [decode, Nat.min_eq_left hlimit, Bool.true_and]
  by_cases hlength : limit < bs.length
  · rw [if_pos hlength]
    exact ⟨nofun, fun h => absurd h.1 (Nat.not_le.mpr hlength)⟩
  · rw [if_neg hlength]
    cases hminimal : isMinimal bs with
    | false =>
      refine ⟨nofun, fun h => ?_⟩
      rw [h.2, isMinimal_encode] at hminimal
      cases hminimal
    | true =>
      rw [Bool.not_true, if_neg Bool.false_ne_true, value_eq]
      constructor
      · intro h
        cases h
        exact ⟨Nat.not_lt.mp hlength, isMinimal_iff.mp hminimal⟩
      · rintro ⟨-, rfl⟩
        rw [signMagnitude_encode]

theorem decode_too_long (h : min limit 8 < bs.length) (minimal : Bool) :
    decode minimal limit bs = .error (.numberTooLong bs limit) := if_pos h

/-- Any string that is not too long stands for a number. -/
theorem decode_any (h : bs.length ≤ min limit 8) : decode false limit bs = .ok (signMagnitude bs) := by
  rw [decode, if_neg (Nat.not_lt.mpr h), Bool.false_and, if_neg Bool.false_ne_true, value_eq]

/-- Numbers that take no more bytes than a word has are numbers of a word. -/
theorem exists_word (h : (encode n).length ≤ 8) :
    ∃ word : Word, word ≠ BitVec.intMin 64 ∧ word.toInt = n := by
  have hn : 2 * n.natAbs < 256 ^ 8 := length_encode_le_iff.mp h
  have htoInt : (BitVec.ofInt 64 n).toInt = n := by
    rw [BitVec.toInt_ofInt]
    exact Int.bmod_eq_of_le (by omega) (by omega)
  refine ⟨BitVec.ofInt 64 n, fun hmin => ?_, htoInt⟩
  rw [hmin] at htoInt
  change -(2 ^ 63) = n at htoInt
  omega

/-- Between the numbers of a word and the shortest strings of up to `limit` bytes, reading and encoding
are inverse: a number that takes more bytes is too long, and any other string is refused where the
shortest is asked for. Words are written and read in the same way. -/
theorem codec_inverse (limit : Nat) (hlimit : limit ≤ 8) :
    (∀ word : Word, word ≠ BitVec.intMin 64 → Word.encode? word = some (encode word.toInt) ∧
      decode true limit (encode word.toInt) =
        if 2 * word.toInt.natAbs < 2 ^ (8 * limit) then .ok word.toInt
        else .error (.numberTooLong (encode word.toInt) limit)) ∧
    (∀ bs : Bytes, bs.length ≤ limit →
      (∀ n, decode true limit bs = .ok n ↔
        n = signMagnitude bs ∧ ∃ word : Word, word ≠ BitVec.intMin 64 ∧ word.toInt = n ∧ bs = encode n) ∧
      decode false limit bs = .ok (signMagnitude bs) ∧
      ∃ word, Word.decode? bs = some word ∧ word.toInt = signMagnitude bs) ∧
    ∀ item, (Fault.numberTooLong item limit).code = .numberOverflow := by
  have hpow : 256 ^ limit = 2 ^ (8 * limit) := (Nat.pow_mul 2 8 limit).symm
  refine ⟨fun word _ => ⟨Word.encode?_eq word, ?_⟩, fun bs hlength => ⟨fun n => ?_, ?_, ?_⟩, fun _ => rfl⟩
  · by_cases hfits : 2 * word.toInt.natAbs < 2 ^ (8 * limit)
    · rw [if_pos hfits]
      exact (decode_minimal_ok hlimit).mpr ⟨length_encode_le_iff.mpr (hpow ▸ hfits), rfl⟩
    · rw [if_neg hfits]
      refine decode_too_long ?_ true
      rw [Nat.min_eq_left hlimit]
      exact Nat.not_le.mp fun hle => hfits (hpow ▸ length_encode_le_iff.mp hle)
  · rw [decode_minimal_ok hlimit]
    constructor
    · rintro ⟨-, rfl⟩
      obtain ⟨word, hmin, hword⟩ := exists_word (Nat.le_trans hlength hlimit)
      exact ⟨(signMagnitude_encode n).symm, word, hmin, hword, rfl⟩
    · rintro ⟨-, word, -, -, hbs⟩
      exact ⟨hlength, hbs⟩
  · exact decode_any (Nat.le_min.mpr ⟨hlength, Nat.le_trans hlength hlimit⟩)
  · exact Word.decode?_eq (Nat.le_trans hlength hlimit)

/-- The greatest number of a word takes all of its eight bytes, and a lone sign is zero unless the
shortest form is asked for. -/
theorem codec_inverse_eight_bytes :
    7 ≤ 8 ∧ 8 ≤ 8 ∧ BitVec.intMax 64 ≠ BitVec.intMin 64 ∧
      decode true 8 (encode (2 ^ 63 - 1)) = .ok (2 ^ 63 - 1) ∧
      decode true 7 (encode (2 ^ 63 - 1)) = .error (.numberTooLong (encode (2 ^ 63 - 1)) 7) ∧
      [0x80].length ≤ 8 ∧ decode false 8 [0x80] = .ok 0 ∧ ∀ n, decode true 8 [0x80] ≠ .ok n := by
  have hne : BitVec.intMax 64 ≠ BitVec.intMin 64 := by decide
  obtain ⟨hseven, -, -⟩ := codec_inverse 7 (by decide)
  obtain ⟨height, hstring, -⟩ := codec_inverse 8 (by decide)
  obtain ⟨hminimal, hany, -⟩ := hstring [0x80] (by decide)
  refine ⟨by decide, by decide, hne, (height _ hne).2, (hseven _ hne).2, by decide, hany, ?_⟩
  intro n hn
  obtain ⟨rfl, -, -, -, hzero⟩ := (hminimal n).mp hn
  rw [show signMagnitude [0x80] = 0 from rfl, encode_zero] at hzero
  cases hzero

end CoinScript.Number
