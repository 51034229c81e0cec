import CoinScript.Proofs.Outcome
import CoinScript.Wire.Field

namespace CoinScript

open Wire (Reader Field CompactSize.encode CompactSize.sized)

/-- The reading finds the value where its written form stands, and leaves what follows. -/
def Takes {ε α : Type} (r : EStateM ε Bytes α) (form : Bytes) (a : α) : Prop :=
  ∀ rest, r (form ++ rest) = .ok a rest

/-- What the reading finds, it also finds when more bytes follow. -/
def Steady {ε α : Type} (r : EStateM ε Bytes α) : Prop :=
  ∀ bs a rest more, r bs = .ok a rest → r (bs ++ more) = .ok a (rest ++ more)

section Readings

variable {ε α β : Type} {r : EStateM ε Bytes α} {next : α → EStateM ε Bytes β}
  {form form' rest rest' : Bytes} {a a' : α} {b : β}

namespace Takes

theorem pure (a : α) : Takes (pure a : EStateM ε Bytes α) [] a := fun _ => rfl

theorem bind (h : Takes r form a) (hn : Takes (next a) form' b) :
    Takes (r >>= next) (form ++ form') b := by
  intro rest
  rw [List.append_assoc, Effect.bind_of_ok (h _)]
  exact hn rest

/-- A reading at the end of a record, whose value is then put together. -/
theorem last (h : Takes r form a) (hn : Takes (next a) [] b) : Takes (r >>= next) form b := by
  have hb := h.bind hn
  rw [List.append_nil] at hb
  exact hb

theorem mapped (f : α → β) (h : Takes r form a) : Takes (do return f (← r)) form (f a) :=
  h.last (.pure (f a))

/-- Written forms that one reading takes back tell their values apart. -/
theorem inj (h : Takes r form a) (h' : Takes r form' a') (hf : form ++ rest = form' ++ rest') :
    a = a' ∧ rest = rest' := by
  have hr := h rest
  rw [hf, h' rest'] at hr
  cases hr
  exact ⟨rfl, rfl⟩

/-- Values written one after another, none of them as nothing, are taken back one after another. -/
theorem flatMap_inj {written : α → Bytes} {as as' : List α}
    (h : ∀ a ∈ as, Takes r (written a) a) (h' : ∀ a ∈ as', Takes r (written a) a)
    (hne : ∀ a, written a ≠ []) (hf : as.flatMap written = as'.flatMap written) : as = as' := by
  induction as generalizing as' with
  | nil =>
    cases as' with
    | nil => rfl
    | cons a' as' => exact absurd (List.append_eq_nil_iff.mp hf.symm).1 (hne a')
  | cons a as ih =>
    cases as' with
    | nil => exact absurd (List.append_eq_nil_iff.mp hf).1 (hne a)
    | cons a' as' =>
      obtain ⟨ha, has⟩ := List.forall_mem_cons.mp h
      obtain ⟨ha', has'⟩ := List.forall_mem_cons.mp h'
      rw [List.flatMap_cons, List.flatMap_cons] at hf
      obtain ⟨rfl, hrest⟩ := ha.inj ha' hf
      rw [ih has has' hrest]

/-- A written form that has been cut short is not read to its end. -/
theorem error_of_cut (h : Takes r form a) (hr : Steady r) {front more : Bytes}
    (hf : form = front ++ more) (hm : more ≠ []) : ∃ fault rest, r front = .error fault rest := by
  cases hc : r front with
  | error fault rest => exact ⟨fault, rest, rfl⟩
  | ok b rest =>
    have hwhole := h []
    rw [List.append_nil, hf, hr _ _ _ more hc] at hwhole
    injection hwhole with _ hnil
    exact absurd (List.append_eq_nil_iff.mp hnil).2 hm

end Takes

namespace Steady

theorem pure (a : α) : Steady (pure a : EStateM ε Bytes α) := by
  intro bs b rest more h
  obtain ⟨rfl, rfl⟩ := Effect.pure_ok.mp h
  rfl

theorem bind (h : Steady r) (hn : ∀ a, Steady (next a)) : Steady (r >>= next) := by
  intro bs b rest more hb
  obtain ⟨a, mid, ha, hb⟩ := Effect.bind_ok.mp hb
  exact Effect.bind_ok.mpr ⟨a, mid ++ more, h _ _ _ more ha, hn a _ _ _ more hb⟩

end Steady

end Readings

namespace Wire.Field

theorem encodeAll_nil : encodeAll [] = [] := List.flatMap_nil

theorem encodeAll_append (fs gs : List Field) : encodeAll (fs ++ gs) = encodeAll fs ++ encodeAll gs :=
  List.flatMap_append

theorem encodeAll_cons (f : Field) (fs : List Field) : encodeAll (f :: fs) = f.encode ++ encodeAll fs :=
  List.flatMap_cons

theorem encodeAll_flatMap {α : Type} (items : List α) (fields : α → List Field) :
    encodeAll (items.flatMap fields) = items.flatMap fun a => encodeAll (fields a) :=
  List.flatMap_assoc

end Wire.Field

namespace Wire.Reader

variable {n : Nat}

theorem take_takes (form : FixedBytes n) : Takes (take n) form.bytes form :=
  fun rest => take_append form.bytes rest form.length_eq

theorem bytes_takes (bs : Bytes) : Takes (bytes bs.length) bs bs := fun rest => bytes_append bs rest

theorem nat_takes {k : Nat} (h : n < 256 ^ k) : Takes (nat k) (Bytes.ofNatLE k n) n := by
  intro rest
  rw [nat_append _ rest (Bytes.length_ofNatLE k n), Bytes.toNatLE_ofNatLE, Nat.mod_eq_of_lt h]

theorem byte_takes (b : UInt8) : Takes (nat 1) [b] b.toNat := by
  have h := nat_takes (n := b.toNat) (k := 1) b.toNat_lt
  rw [Bytes.ofNatLE, Bytes.ofNatLE, UInt8.ofNat_toNat] at h
  exact h

theorem uint32_takes (n : UInt32) : Takes uint32 (Bytes.ofNatLE 4 n.toNat) n := by
  have hn := (nat_takes (k := 4) n.toNat_lt).mapped UInt32.ofNat
  rw [UInt32.ofNat_toNat] at hn
  exact hn

theorem uint64_takes (n : UInt64) : Takes uint64 (Bytes.ofNatLE 8 n.toNat) n := by
  have hn := (nat_takes (k := 8) n.toNat_lt).mapped UInt64.ofNat
  rw [UInt64.ofNat_toNat] at hn
  exact hn

/-- Each of the four forms is read back; the first byte tells which one it is. -/
theorem compactSize_takes (h : n < 2 ^ 64) : Takes compactSize (CompactSize.encode n) n := by
  unfold CompactSize.encode
  split
  · next hn =>
    refine (nat_takes (Nat.lt_trans hn (by decide))).last ?_
    split
    · omega
    · omega
    · omega
    · exact .pure n
  · split
    · next hn => exact (byte_takes 253).bind (nat_takes hn)
    · split
      · next hn => exact (byte_takes 254).bind (nat_takes hn)
      · exact (byte_takes 255).bind (nat_takes h)

theorem sizedBytes_takes {bs : Bytes} (h : bs.length < 2 ^ 64) :
    Takes sizedBytes (CompactSize.sized bs) bs :=
  (compactSize_takes h).bind (bytes_takes bs)

theorem take_ok {form : FixedBytes n} {bs rest : Bytes} :
    take n bs = .ok form rest ↔ bs = form.bytes ++ rest := by
  constructor
  · intro h
    unfold take at h
    split at h
    · next front mid hs =>
      cases h
      exact (Bytes.split?_eq_some.mp hs).2
    · cases h
  · rintro rfl
    exact take_takes form rest

theorem take_steady (n : Nat) : Steady (take n) := by
  intro bs form rest more h
  rw [take_ok.mp h, List.append_assoc]
  exact take_takes form _

theorem bytes_steady (n : Nat) : Steady (bytes n) := (take_steady n).bind fun _ => .pure _

theorem nat_steady (n : Nat) : Steady (nat n) := (take_steady n).bind fun _ => .pure _

theorem uint32_steady : Steady uint32 := (nat_steady 4).bind fun _ => .pure _

theorem uint64_steady : Steady uint64 := (nat_steady 8).bind fun _ => .pure _

theorem compactSize_steady : Steady compactSize := by
  refine (nat_steady 1).bind fun marker => ?_
  split
  · exact nat_steady 8
  · exact nat_steady 4
  · exact nat_steady 2
  · exact .pure marker

theorem sizedBytes_steady : Steady sizedBytes := compactSize_steady.bind fun n => bytes_steady n

end Wire.Reader

end CoinScript
