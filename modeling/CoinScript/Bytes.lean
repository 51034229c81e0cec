namespace CoinScript

/-- A library that builds on this one may bring powers of its own. The ones meant here, also in what
is proved, are those of the core language. -/
@[default_instance high]
instance (priority := high) intPower : Pow Int Nat := ⟨Int.pow⟩

/-- Where nothing tells the numbers apart, they are natural ones, so this instance comes last. -/
@[default_instance high]
instance (priority := high) natPower : Pow Nat Nat := ⟨Nat.pow⟩

abbrev Bytes := List UInt8

namespace Bytes

/-- The `k` lowest digits of a number, least first. -/
def ofNatLE : Nat → Nat → Bytes
  | 0, _ => []
  | k + 1, n => UInt8.ofNat n :: ofNatLE k (n / 256)

/-- The number whose base-256 digits these are, the least first. -/
def toNatLE : Bytes → Nat
  | [] => 0
  | b :: bs => b.toNat + 256 * toNatLE bs

/-- The `k` lowest digits of a number, greatest first. -/
def ofNatBE (k n : Nat) : Bytes := (ofNatLE k n).reverse

def toNatBE (bs : Bytes) : Nat := toNatLE bs.reverse

def replicate (n : Nat) (part : Bytes) : Bytes := (List.replicate n part).flatten

/-- The digits of a number without leading zeros, least first. -/
def digits (n : Nat) : Bytes :=
  if n = 0 then [] else UInt8.ofNat n :: digits (n / 256)
termination_by n

/-- Dictionary order, in which a byte string comes before its own extensions. -/
def precedes : Bytes → Bytes → Bool
  | [], _ => true
  | _ :: _, [] => false
  | a :: as, b :: bs => a < b || (a == b && precedes as bs)

/-- The first `n` bytes and the rest, if there are that many. -/
def split? : Nat → Bytes → Option (Bytes × Bytes)
  | 0, bs => some ([], bs)
  | _ + 1, [] => none
  | n + 1, b :: bs => (split? n bs).map fun (front, rest) => (b :: front, rest)

@[simp] theorem length_ofNatLE (k n : Nat) : (ofNatLE k n).length = k := by
  induction k generalizing n with
  | zero => rfl
  | succ k ih => simp [ofNatLE, ih]

@[simp] theorem length_ofNatBE (k n : Nat) : (ofNatBE k n).length = k := by
  simp [ofNatBE]

theorem toNatLE_ofNatLE (k n : Nat) : toNatLE (ofNatLE k n) = n % 256 ^ k := by
  induction k generalizing n with
  | zero => simp [ofNatLE, toNatLE, Nat.mod_one]
  | succ k ih =>
    have h : n % 256 ^ (k + 1) = n % 256 + 256 * (n / 256 % 256 ^ k) := by
      rw [Nat.pow_succ, Nat.mul_comm, Nat.mod_mul]
    simp [ofNatLE, toNatLE, ih, h]

theorem toNatLE_lt (bs : Bytes) : toNatLE bs < 256 ^ bs.length := by
  induction bs with
  | nil => simp [toNatLE]
  | cons b bs ih =>
    have := b.toNat_lt
    simp only [toNatLE, List.length_cons, Nat.pow_succ]
    omega

theorem ofNatLE_toNatLE (bs : Bytes) : ofNatLE bs.length (toNatLE bs) = bs := by
  induction bs with
  | nil => rfl
  | cons b bs ih =>
    have := b.toNat_lt
    have hd : (b.toNat + 256 * toNatLE bs) / 256 = toNatLE bs := by omega
    have hm : UInt8.ofNat (b.toNat + 256 * toNatLE bs) = b := by
      apply UInt8.toNat_inj.mp
      simp only [UInt8.toNat_ofNat']
      omega
    simp only [List.length_cons, ofNatLE, toNatLE, hd, hm, ih]

theorem toNatBE_ofNatBE (k n : Nat) : toNatBE (ofNatBE k n) = n % 256 ^ k := by
  simp [toNatBE, ofNatBE, toNatLE_ofNatLE]

theorem toNatBE_lt (bs : Bytes) : toNatBE bs < 256 ^ bs.length := by
  simpa [toNatBE] using toNatLE_lt bs.reverse

theorem ofNatBE_toNatBE (bs : Bytes) : ofNatBE bs.length (toNatBE bs) = bs := by
  have h := ofNatLE_toNatLE bs.reverse
  simp only [List.length_reverse] at h
  simp [toNatBE, ofNatBE, h]

theorem split?_append (front rest : Bytes) : split? front.length (front ++ rest) = some (front, rest) := by
  induction front with
  | nil => rfl
  | cons b front ih => simp [split?, ih]

theorem split?_eq_some {n : Nat} {bs front rest : Bytes} :
    split? n bs = some (front, rest) ↔ front.length = n ∧ bs = front ++ rest := by
  constructor
  · intro h
    induction n generalizing bs front with
    | zero => simp [split?] at h; simp [← h.1, h.2]
    | succ n ih =>
      cases bs with
      | nil => simp [split?] at h
      | cons b bs =>
        simp only [split?, Option.map_eq_some_iff, Prod.mk.injEq] at h
        obtain ⟨⟨front', rest'⟩, hs, rfl, rfl⟩ := h
        obtain ⟨hl, hb⟩ := ih hs
        exact ⟨by simp [hl], by simp [hb]⟩
  · rintro ⟨rfl, rfl⟩
    exact split?_append front rest

theorem split?_eq_none {n : Nat} {bs : Bytes} : split? n bs = none ↔ bs.length < n := by
  induction n generalizing bs with
  | zero => simp [split?]
  | succ n ih =>
    cases bs with
    | nil => simp [split?]
    | cons b bs => simp [split?, ih]

end Bytes

/-- A byte string of a known length. -/
structure FixedBytes (n : Nat) where
  bytes : Bytes
  length_eq : bytes.length = n
deriving DecidableEq

namespace FixedBytes

instance {n : Nat} : CoeOut (FixedBytes n) Bytes := ⟨FixedBytes.bytes⟩

def ofBytes? {n : Nat} (bs : Bytes) : Option (FixedBytes n) :=
  if h : bs.length = n then some ⟨bs, h⟩ else none

def zero (n : Nat) : FixedBytes n := ⟨List.replicate n 0, by simp⟩

def ofNatLE (n value : Nat) : FixedBytes n := ⟨Bytes.ofNatLE n value, by simp⟩

def ofNatBE (n value : Nat) : FixedBytes n := ⟨Bytes.ofNatBE n value, by simp⟩

def toNatBE {n : Nat} (w : FixedBytes n) : Nat := Bytes.toNatBE w.bytes

def reverse {n : Nat} (w : FixedBytes n) : FixedBytes n :=
  ⟨w.bytes.reverse, by simp [w.length_eq]⟩

@[simp] theorem length_bytes {n : Nat} (w : FixedBytes n) : w.bytes.length = n := w.length_eq

theorem ofBytes?_bytes {n : Nat} (w : FixedBytes n) : ofBytes? w.bytes = some w := by
  simp [ofBytes?]

end FixedBytes

end CoinScript
