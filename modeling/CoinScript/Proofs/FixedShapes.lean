import CoinScript.Proofs.PushedNumbers
import CoinScript.Proofs.ScriptWalks

namespace CoinScript

namespace Bytes

variable {front last part bs : Bytes} {n k : Nat}

/-- Data of one length between fixed bytes, told from the length and from the byte at each place outside it. -/
def isFramed (front : Bytes) (n : Nat) (last bs : Bytes) : Bool :=
  bs.length == front.length + n + last.length &&
    (front.zipIdx.all (fun (b, i) => bs[i]? == some b) &&
      (last.zipIdx (front.length + n)).all fun (b, i) => bs[i]? == some b)

/-- Bytes that stand at consecutive places are a part of the string. By induction on the bytes. -/
theorem all_zipIdx_iff :
    ((part.zipIdx k).all fun (b, i) => bs[i]? == some b) = true ↔ part <+: bs.drop k := by
  induction part generalizing k with
  | nil => simp
  | cons b part ih =>
    rw [List.zipIdx_cons, List.all_cons, Bool.and_eq_true, ih, beq_iff_eq]
    by_cases hk : k < bs.length
    · rw [List.drop_eq_getElem_cons hk, List.getElem?_eq_getElem hk, List.cons_prefix_cons, Option.some.injEq,
        eq_comm]
    · have hend : bs.length ≤ k := Nat.le_of_not_lt hk
      simp [List.drop_eq_nil_of_le hend, List.getElem?_eq_none hend]

theorem isFramed_iff :
    isFramed front n last bs = true ↔ ∃ data : Bytes, data.length = n ∧ bs = front ++ (data ++ last) := by
  rw [isFramed, Bool.and_eq_true, Bool.and_eq_true, all_zipIdx_iff, all_zipIdx_iff, List.drop_zero, beq_iff_eq]
  constructor
  · intro h
    obtain ⟨hlength, ⟨rest, rfl⟩, hlast⟩ := h
    have hrest : rest.length = n + last.length := by
      rw [List.length_append] at hlength
      omega
    rw [List.drop_append, List.drop_eq_nil_of_le (Nat.le_add_right _ n), List.nil_append,
      Nat.add_sub_cancel_left] at hlast
    have hend : last = rest.drop n := hlast.eq_of_length (by rw [List.length_drop]; omega)
    refine ⟨rest.take n, by rw [List.length_take]; omega, ?_⟩
    rw [hend, List.take_append_drop]
  · intro h
    obtain ⟨data, rfl, rfl⟩ := h
    refine ⟨by simp only [List.length_append]; omega, List.prefix_append _ _, ?_⟩
    have hdrop : (front ++ (data ++ last)).drop (front.length + data.length) = last := by
      rw [← List.append_assoc, ← List.length_append, List.drop_left]
    exact ⟨[], by rw [hdrop, List.append_nil]⟩

end Bytes

namespace Script

variable {s : Script} {ops : List Operation} {v : Int} {p : Bytes}

theorem decode_eq_ok_iff (h : ∀ op ∈ ops, op.Sized) : s.decode = .ok ops ↔ s.bytes = ops.flatMap Operation.bytes := by
  cases s with
  | mk bs =>
    rw [decode_ok]
    constructor
    · intro hparse
      have hbytes := bytes_parse bs
      rw [hparse, List.append_nil] at hbytes
      exact hbytes.symm
    · rintro rfl
      exact parse_ofOperations h

def isP2sh20ByPlaces (bs : Bytes) : Bool :=
  bs.length == 23 && bs[0]? == some Opcode.hash160 && bs[1]? == some 20 && bs[22]? == some Opcode.equal

def isP2sh32ByPlaces (bs : Bytes) : Bool :=
  bs.length == 35 && bs[0]? == some Opcode.hash256 && bs[1]? == some 32 && bs[34]? == some Opcode.equal

def isP2pkhByPlaces (bs : Bytes) : Bool :=
  bs.length == 25 && bs[0]? == some Opcode.dup && bs[1]? == some Opcode.hash160 && bs[2]? == some 20 &&
    bs[23]? == some Opcode.equalVerify && bs[24]? == some Opcode.checkSig

/-- The version is at the first place, and the length of the rest at the second. -/
def witnessProgramByPlaces? (bs : Bytes) : Option (Int × Bytes) :=
  if bs.length < 4 ∨ 42 < bs.length then none
  else do
    let version ← bs[0]?
    if version ≠ 0 ∧ ¬ Opcode.isOneToSixteen version then none
    else
      let n ← bs[1]?
      if n.toNat + 2 ≠ bs.length then none else some (Opcode.smallNumber version, bs.drop 2)

theorem isP2sh20ByPlaces_eq (bs : Bytes) :
    isP2sh20ByPlaces bs = Bytes.isFramed [Opcode.hash160, 20] 20 [Opcode.equal] bs := by
  simp [isP2sh20ByPlaces, Bytes.isFramed, Bool.and_assoc]

theorem isP2sh32ByPlaces_eq (bs : Bytes) :
    isP2sh32ByPlaces bs = Bytes.isFramed [Opcode.hash256, 32] 32 [Opcode.equal] bs := by
  simp [isP2sh32ByPlaces, Bytes.isFramed, Bool.and_assoc]

theorem isP2pkhByPlaces_eq (bs : Bytes) :
    isP2pkhByPlaces bs =
      Bytes.isFramed [Opcode.dup, Opcode.hash160, 20] 20 [Opcode.equalVerify, Opcode.checkSig] bs := by
  simp [isP2pkhByPlaces, Bytes.isFramed, Bool.and_assoc]

/-- Codes that carry no data are written as they are. -/
theorem bare_codes {codes : List Opcode} (h : ∀ code ∈ codes, Opcode.pushData4 < code) :
    (∀ op ∈ codes.map (Operation.mk · []), op.Sized) ∧
      (codes.map (Operation.mk · [])).flatMap Operation.bytes = codes := by
  induction codes with
  | nil => simp
  | cons code codes ih =>
    obtain ⟨hcode, hcodes⟩ := List.forall_mem_cons.mp h
    obtain ⟨hsized, hbytes⟩ := ih hcodes
    constructor
    · exact List.forall_mem_cons.mpr ⟨Operation.sized_bare hcode, hsized⟩
    · rw [List.map_cons, List.flatMap_cons, hbytes, Operation.bytes_bare hcode, List.singleton_append]

/-- A shape with one push of a hash is that of the codes around it. -/
theorem isFramed_iff_decode {n : Nat} {before after : List Opcode} (h75 : n ≤ 75)
    (hcodes : (before ++ after).all (Opcode.pushData4 < ·) = true) :
    Bytes.isFramed (before ++ [UInt8.ofNat n]) n after s.bytes = true ↔ ∃ hash, hash.length = n ∧
      s.decode = .ok (before.map (Operation.mk · []) ++ ⟨UInt8.ofNat n, hash⟩ :: after.map (Operation.mk · [])) := by
  simp only [List.all_eq_true, decide_eq_true_eq] at hcodes
  obtain ⟨hbefore, hafter⟩ := List.forall_mem_append.mp hcodes
  obtain ⟨hb, hbb⟩ := bare_codes hbefore
  obtain ⟨ha, hab⟩ := bare_codes hafter
  rw [Bytes.isFramed_iff]
  refine exists_congr fun hash => and_congr_right fun hl => ?_
  have hpush : Operation.Sized ⟨UInt8.ofNat n, hash⟩ := by
    rw [← hl] at h75 ⊢
    exact Operation.sized_direct h75
  rw [decode_eq_ok_iff (List.forall_mem_append.mpr ⟨hb, List.forall_mem_cons.mpr ⟨hpush, ha⟩⟩),
    List.flatMap_append, List.flatMap_cons, hbb, hab, Operation.bytes_direct (Operation.direct_lt h75)]
  simp

theorem keyHash?_eq_some {hash : FixedBytes 20} : s.keyHash? = some hash ↔ s = payTo (.key hash) := by
  constructor
  · intro h
    exact Template.keyHash?_shape (by rw [Template.keyHash?, h]; rfl)
  · rintro rfl
    have hl := hash.length_bytes
    simpa [keyHash?, payTo, hl] using FixedBytes.ofBytes?_eq_some.mpr rfl

/-- A hash that is looked for in a script is found if the script has the shape around some data. -/
theorem isSome_iff_framed {n : Nat} {found : Option (FixedBytes n)} {front last : Bytes}
    (h : ∀ hash, found = some hash ↔ s.bytes = front ++ (hash.bytes ++ last)) :
    found.isSome = Bytes.isFramed front n last s.bytes := by
  apply Bool.eq_iff_iff.mpr
  rw [Option.isSome_iff_exists, Bytes.isFramed_iff]
  constructor
  · intro hfound
    obtain ⟨hash, hhash⟩ := hfound
    exact ⟨hash.bytes, hash.length_bytes, (h hash).mp hhash⟩
  · intro hshape
    obtain ⟨data, hl, hs⟩ := hshape
    exact ⟨⟨data, hl⟩, (h ⟨data, hl⟩).mpr hs⟩

theorem isP2sh20_eq (s : Script) : s.isP2sh20 = isP2sh20ByPlaces s.bytes := by
  rw [isP2sh20ByPlaces_eq]
  apply isSome_iff_framed
  intro hash
  rw [scriptHash20?_eq_some, eq_iff_bytes]
  simp [payTo]

theorem isP2sh32_eq (s : Script) : s.isP2sh32 = isP2sh32ByPlaces s.bytes := by
  rw [isP2sh32ByPlaces_eq]
  apply isSome_iff_framed
  intro hash
  rw [scriptHash32?_eq_some, eq_iff_bytes]
  simp [payTo]

theorem isP2pkh_eq (s : Script) : s.isP2pkh = isP2pkhByPlaces s.bytes := by
  rw [isP2pkhByPlaces_eq]
  apply isSome_iff_framed
  intro hash
  rw [keyHash?_eq_some, eq_iff_bytes]
  simp [payTo]

theorem witnessProgram?_eq (s : Script) : s.witnessProgram? = witnessProgramByPlaces? s.bytes := by
  unfold witnessProgram? witnessProgramByPlaces? length
  match s.bytes with
  | [] => rfl
  | [_] => rfl
  | version :: n :: program =>
    simp only [List.length_cons, List.getElem?_cons_zero, List.getElem?_cons_succ, List.drop_succ_cons,
      List.drop_zero, Option.bind_eq_bind, Option.bind_some]
    split
    · next h =>
      obtain ⟨hmin, hmax, hversion, hn⟩ := h
      have hfirst : ¬ (version ≠ 0 ∧ ¬ Opcode.isOneToSixteen version = true) := by tauto
      rw [if_neg (by omega), if_neg hfirst, if_neg (by omega)]
    · next h =>
      split
      · rfl
      · split
        · rfl
        · next hrange hfirst =>
          rw [if_pos]
          intro hn
          exact h ⟨by omega, by omega, by tauto, by omega⟩

/-- The versions are the numbers up to 16, each written by its code. -/
theorem exists_version (hv : 0 ≤ v ∧ v ≤ 16) : ∃ code, Opcode.ofSmallNumber? v = some code := by
  obtain ⟨h0, h16⟩ := hv
  lift v to Nat using h0
  rcases Nat.eq_zero_or_pos v with rfl | hpos
  · exact ⟨Opcode.zero, rfl⟩
  · exact ⟨_, Opcode.ofSmallNumber?_ofNat hpos (by omega)⟩

theorem witnessProgram?_eq_some :
    s.witnessProgram? = some (v, p) ↔ (2 ≤ p.length ∧ p.length ≤ 40) ∧ ∃ code,
      ((code = 0 ∨ Opcode.isOneToSixteen code = true) ∧ Opcode.smallNumber code = v) ∧
        s.bytes = code :: UInt8.ofNat p.length :: p := by
  constructor
  · intro h
    unfold witnessProgram? at h
    split at h
    · next version n program hs =>
      obtain ⟨⟨hmin, hmax, hversion, hn⟩, hfound⟩ := Option.ite_none_right_eq_some.mp h
      cases hfound
      rw [length, hs, List.length_cons, List.length_cons] at hmin hmax
      refine ⟨by omega, version, ⟨hversion, rfl⟩, ?_⟩
      rw [hs, ← hn, UInt8.ofNat_toNat]
    · cases h
  · rintro ⟨hlength, code, ⟨hversion, rfl⟩, hs⟩
    have hn : (UInt8.ofNat p.length).toNat = p.length := Operation.toNat_direct (by omega)
    have hmin : 4 ≤ p.length + 2 := by omega
    have hmax : p.length + 2 ≤ 42 := by omega
    simp [witnessProgram?, length, hs, hn, hmin, hmax, hversion]

/-- A version and one direct push, told from the bytes or from the operations. -/
theorem witnessProgram?_iff_decode :
    s.witnessProgram? = some (v, p) ↔ (0 ≤ v ∧ v ≤ 16) ∧ (2 ≤ p.length ∧ p.length ≤ 40) ∧
      s.decode = .ok [.ofInt v, ⟨UInt8.ofNat p.length, p⟩] := by
  have hdecode (code : Opcode) (hversion : code = 0 ∨ Opcode.isOneToSixteen code = true) (hp : p.length ≤ 40) :
      s.decode = .ok [⟨code, []⟩, ⟨UInt8.ofNat p.length, p⟩] ↔ s.bytes = code :: UInt8.ofNat p.length :: p := by
    have hdirect : UInt8.ofNat p.length < Opcode.pushData1 := Operation.direct_lt (by omega)
    have hcode := Operation.bare_code (hversion.imp_right fun h =>
      UInt8.not_le.mp (of_decide_eq_false (@Operation.isPush_of_number ⟨code, []⟩ h)))
    have hpush : Operation.Sized ⟨UInt8.ofNat p.length, p⟩ := Operation.sized_direct (by omega)
    rw [decode_eq_ok_iff (List.forall_mem_cons.mpr ⟨hcode.1, List.forall_mem_singleton.mpr hpush⟩)]
    simp [hcode.2, Operation.bytes_direct hdirect]
  rw [witnessProgram?_eq_some]
  constructor
  · rintro ⟨hlength, code, hcode, hs⟩
    obtain ⟨hrange, hop⟩ := Opcode.smallNumber_iff.mp hcode
    rw [Operation.ofInt_of_some hop]
    exact ⟨hrange, hlength, (hdecode code hcode.1 hlength.2).mpr hs⟩
  · rintro ⟨hrange, hlength, hs⟩
    obtain ⟨code, hop⟩ := exists_version hrange
    rw [Operation.ofInt_of_some hop] at hs
    have hcode := Opcode.smallNumber_iff.mpr ⟨hrange, hop⟩
    exact ⟨hlength, code, hcode, (hdecode code hcode.1 hlength.2).mp hs⟩

/-- A script is told to pay to a hash, by the bytes at their places, exactly if it reads as the operations of the
shape around one direct push of 20 or 32 bytes; and a version and a program are told exactly if it reads as the
code of a number up to 16 and one direct push of 2 to 40 bytes. -/
theorem fixed_shapes_decoded (s : Script) :
    (isP2sh20ByPlaces s.bytes = s.isP2sh20 ∧ (s.isP2sh20 = true ↔ ∃ hash, hash.length = 20 ∧
      s.decode = .ok [⟨Opcode.hash160, []⟩, ⟨20, hash⟩, ⟨Opcode.equal, []⟩])) ∧
    (isP2sh32ByPlaces s.bytes = s.isP2sh32 ∧ (s.isP2sh32 = true ↔ ∃ hash, hash.length = 32 ∧
      s.decode = .ok [⟨Opcode.hash256, []⟩, ⟨32, hash⟩, ⟨Opcode.equal, []⟩])) ∧
    (isP2pkhByPlaces s.bytes = s.isP2pkh ∧ (s.isP2pkh = true ↔ ∃ hash, hash.length = 20 ∧
      s.decode = .ok [⟨Opcode.dup, []⟩, ⟨Opcode.hash160, []⟩, ⟨20, hash⟩, ⟨Opcode.equalVerify, []⟩,
        ⟨Opcode.checkSig, []⟩])) ∧
    witnessProgramByPlaces? s.bytes = s.witnessProgram? ∧
    ∀ v p, s.witnessProgram? = some (v, p) ↔ (0 ≤ v ∧ v ≤ 16) ∧ (2 ≤ p.length ∧ p.length ≤ 40) ∧
      s.decode = .ok [.ofInt v, ⟨UInt8.ofNat p.length, p⟩] := by
  refine ⟨⟨(isP2sh20_eq s).symm, ?_⟩, ⟨(isP2sh32_eq s).symm, ?_⟩, ⟨(isP2pkh_eq s).symm, ?_⟩,
    (witnessProgram?_eq s).symm, fun v p => witnessProgram?_iff_decode⟩
  · rw [isP2sh20_eq, isP2sh20ByPlaces_eq]
    exact @isFramed_iff_decode s 20 [Opcode.hash160] [Opcode.equal] (by decide) rfl
  · rw [isP2sh32_eq, isP2sh32ByPlaces_eq]
    exact @isFramed_iff_decode s 32 [Opcode.hash256] [Opcode.equal] (by decide) rfl
  · rw [isP2pkh_eq, isP2pkhByPlaces_eq]
    exact @isFramed_iff_decode s 20 [Opcode.dup, Opcode.hash160] [Opcode.equalVerify, Opcode.checkSig]
      (by decide) rfl

end Script

end CoinScript
