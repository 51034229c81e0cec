import CoinScript.Proofs.CurveGenerator
import CoinScript.Proofs.Numerals
import CoinScript.Signature.Schnorr

namespace CoinScript.Schnorr

open Curve WeierstrassCurve.Affine

variable {C : Curve}

theorem verify_append (key : PublicKey C) (digest r s : FixedBytes 32) :
    verify key digest (r.bytes ++ s.bytes) = accepts key digest r.toNatBE s.toNatBE := by
  rw [verify, List.length_append, r.length_eq, s.length_eq, List.take_left' r.length_eq,
    List.drop_left' r.length_eq]
  rfl

theorem verify_ofNatBE (key : PublicKey C) (digest : FixedBytes 32) {r s : Nat} (hr : r < 2 ^ 256)
    (hs : s < 2 ^ 256) :
    verify key digest (Bytes.ofNatBE 32 r ++ Bytes.ofNatBE 32 s) = accepts key digest r s := by
  have hword : ∀ n < 2 ^ 256, (FixedBytes.ofNatBE 32 n).toNatBE = n := fun n hn =>
    (Bytes.toNatBE_ofNatBE 32 n).trans (Nat.mod_eq_of_lt hn)
  exact (verify_append key digest (.ofNatBE 32 r) (.ofNatBE 32 s)).trans
    (by rw [hword r hr, hword s hs])

/-- A key is verified against in its compressed form, whichever form it is written in. -/
theorem verify_compressed (key : PublicKey C) (compressed : Bool) (digest : FixedBytes 32)
    (sig : Bytes) :
    verify ({ key with compressed } : PublicKey C) digest sig = verify key digest sig := rfl

variable [C.Lawful]

/-- What verification asks for, in the group. -/
theorem accepts_iff {key : PublicKey C} {A : C.equation.Point} (hkey : coordinates A = key.point)
    (digest : FixedBytes 32) (r s : Nat) :
    accepts key digest r s = true ↔ r < C.prime ∧ s < C.order ∧
      ∃ x y h, s • C.generator - challenge key r digest • A = .some x y h ∧
        C.isSquare y.val = true ∧ x.val = r := by
  rw [accepts, smul_base, ← hkey, smul_coordinates, neg_coordinates, add_coordinates,
    ← sub_eq_add_neg, Bool.and_eq_true, Bool.and_eq_true, decide_eq_true_eq, decide_eq_true_eq,
    and_assoc]
  match s • C.generator - challenge key r digest • A with
  | .zero => simp [coordinates]
  | .some x y h => simp [coordinates, h]

/-- Of two opposite points only one has a square for its second coordinate. -/
theorem y_eq_of_isSquare {x y y' : ZMod C.prime} (h : C.equation.Nonsingular x y)
    (h' : C.equation.Nonsingular x y') (hy : C.isSquare y.val = true)
    (hy' : C.isSquare y'.val = true) : y = y' := by
  obtain heq | hopposite := Y_eq_of_X_eq h.1 h'.1 rfl
  · exact heq
  · rw [negY_equation] at hopposite
    rw [hopposite, isSquare_neg (ne_zero_of_isSquare hy'), hy'] at hy
    cases hy

theorem accepts_unique {key : PublicKey C} {A : C.equation.Point} (hkey : coordinates A = key.point)
    {digest : FixedBytes 32} {r s s' : Nat} (hs : accepts key digest r s = true)
    (hs' : accepts key digest r s' = true) : s = s' := by
  obtain ⟨-, hlt, x, y, h, hnonce, hsquare, hx⟩ := (accepts_iff hkey digest r s).mp hs
  obtain ⟨-, hlt', x', y', h', hnonce', hsquare', hx'⟩ := (accepts_iff hkey digest r s').mp hs'
  -- Both scalars lead to the one point that the nonce means, so their multiples of the base agree.
  cases ZMod.val_injective _ (hx.trans hx'.symm)
  cases y_eq_of_isSquare h h' hsquare hsquare'
  refine eq_of_nsmul_generator_eq hlt hlt' ?_
  exact sub_left_inj.mp (hnonce.trans hnonce'.symm)

theorem coordinates_publicKey (key : PrivateKey C) :
    coordinates (key.scalar • C.generator) = key.publicKey.point := by
  obtain ⟨x, y, h, hpoint⟩ := exists_nsmul_generator key.pos key.lt_order
  rw [PrivateKey.publicKey, smul_base, hpoint]
  rfl

theorem contains_publicKey (key : PrivateKey C) : C.Contains key.publicKey.point = true :=
  contains_iff_coordinates.mpr ⟨_, coordinates_publicKey key⟩

/-- The scalar of a signature takes the key back out of the nonce. -/
theorem response_nsmul (k e d : Nat) :
    ((k + e * d) % C.order) • C.generator - e • d • C.generator = k • C.generator := by
  rw [mod_order_nsmul_generator, add_nsmul, ← mul_nsmul', add_sub_cancel_right]

theorem order_sub_nsmul {k : Nat} (hk : k ≤ C.order) :
    (C.order - k) • C.generator = -(k • C.generator) := by
  rw [eq_neg_iff_add_eq_zero, ← add_nsmul, Nat.sub_add_cancel hk, order_nsmul_generator]

/-- Of a nonce and its negative one means a point that verification can find again. -/
theorem exists_square_nonce {k : Nat} {x y : ZMod C.prime} {h : C.equation.Nonsingular x y}
    (hk : k • C.generator = .some x y h) (hle : k ≤ C.order) :
    ∃ y' h', (if C.isSquare y.val then k else C.order - k) • C.generator = .some x y' h' ∧
      C.isSquare y'.val = true := by
  split
  case isTrue hsquare => exact ⟨y, h, hk, hsquare⟩
  case isFalse hsquare =>
    refine ⟨C.equation.negY x y, (nonsingular_neg x y).mpr h, ?_, ?_⟩
    · rw [order_sub_nsmul hle, hk, Point.neg_some]
    · rw [negY_equation, isSquare_neg (y_ne_zero_of_nsmul_generator hk), Bool.not_eq_true']
      exact Bool.eq_false_iff.mpr hsquare

theorem accepts_signed (key : PrivateKey C) (digest : FixedBytes 32) {k : Nat} (hpos : 0 < k)
    (hlt : k < C.order) :
    ∃ r y, C.smul k C.base = .affine r y ∧ r < C.prime ∧
      accepts key.publicKey digest r (((if C.isSquare y then k else C.order - k) +
        challenge key.publicKey r digest * key.scalar) % C.order) = true := by
  obtain ⟨x, y, h, hk⟩ := exists_nsmul_generator hpos hlt
  obtain ⟨y', h', hnonce, hsquare⟩ := exists_square_nonce hk hlt.le
  refine ⟨x.val, y.val, ?_, ZMod.val_lt x, ?_⟩
  · rw [smul_base, hk]
    rfl
  · rw [accepts_iff (coordinates_publicKey key)]
    refine ⟨ZMod.val_lt x, Nat.mod_lt _ Lawful.order_prime.pos, x, y', h', ?_, hsquare, rfl⟩
    rw [response_nsmul, hnonce]

/-- Signing fails only for want of a nonce, and what it signs verifies. -/
theorem signed_digest_verifies (key : PrivateKey secp256k1) (digest : FixedBytes 32) :
    (nonce key digest = 0 ∧ sign key digest = .error .nonceZero) ∨
      (nonce key digest ≠ 0 ∧ ∃ sig, sign key digest = .ok sig ∧
        ∀ compressed, verify ({ key.publicKey with compressed } : PublicKey secp256k1) digest
          sig.bytes = true) := by
  by_cases hzero : nonce key digest = 0
  · exact .inl ⟨hzero, by rw [sign, if_pos hzero]⟩
  · have hlt : nonce key digest < secp256k1.order := Nat.mod_lt _ (by decide)
    obtain ⟨r, y, hpoint, hr, haccepts⟩ :=
      accepts_signed key digest (Nat.pos_of_ne_zero hzero) hlt
    refine .inr ⟨hzero, ?_⟩
    rw [sign, if_neg hzero, hpoint]
    refine ⟨_, rfl, fun compressed => ?_⟩
    rw [verify_compressed, verify_ofNatBE _ _ (Nat.lt_trans hr (by decide))
      (Nat.lt_trans (Nat.mod_lt _ (by decide)) (by decide))]
    exact haccepts

/-- A nonce is completed to a signature by at most one scalar. -/
theorem completing_scalar_unique (key : PublicKey secp256k1)
    (hkey : secp256k1.Contains key.point = true) (digest r s s' : FixedBytes 32)
    (hs : verify key digest (r.bytes ++ s.bytes) = true)
    (hs' : verify key digest (r.bytes ++ s'.bytes) = true) : s = s' := by
  obtain ⟨A, hA⟩ := contains_iff_coordinates.mp hkey
  rw [verify_append] at hs hs'
  have hbytes : s.bytes = s'.bytes := Bytes.toNatBE_inj (s.length_eq.trans s'.length_eq.symm)
    (accepts_unique hA hs hs')
  cases s
  cases s'
  cases hbytes
  rfl

/-- The two halves of a signature, and its scalar computed again from nonce, challenge and key. -/
theorem completing_scalar_unique_message :
    let key : PrivateKey secp256k1 :=
      ⟨0x12b004fff7f4b69ef8650e767f18f11ede158148b425660723b9f9a66e61f747, by decide, by decide, true⟩
    let digest := Hash.sha256 [0x6d, 0x65, 0x73, 0x73, 0x61, 0x67, 0x65]
    let r : FixedBytes 32 :=
      .ofNatBE 32 0x554195fea614bd23dd39b077c4141bacfd598edf67b36d9371dcf468de0594e4
    let s : FixedBytes 32 :=
      .ofNatBE 32 0x59796dd1d3310c7d6b01543e4ca216ebcd20f52bbbe38ac68f1ab41161e4ba81
    let s' : FixedBytes 32 := .ofNatBE 32 ((secp256k1.order - nonce key digest +
      challenge key.publicKey r.toNatBE digest * key.scalar) % secp256k1.order)
    secp256k1.Contains key.publicKey.point = true ∧
      verify key.publicKey digest (r.bytes ++ s.bytes) = true ∧
      verify key.publicKey digest (r.bytes ++ s'.bytes) = true ∧ s = s' := by
  intro key digest r s s'
  have hkey : secp256k1.Contains key.publicKey.point = true := contains_publicKey key
  have hs : verify key.publicKey digest (r.bytes ++ s.bytes) = true := by decide +kernel
  have hs' : verify key.publicKey digest (r.bytes ++ s'.bytes) = true := by decide +kernel
  exact ⟨hkey, hs, hs', completing_scalar_unique key.publicKey hkey digest r s s' hs hs'⟩

end CoinScript.Schnorr
