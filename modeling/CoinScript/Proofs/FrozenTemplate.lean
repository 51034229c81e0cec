import CoinScript.Proofs.PushedNumbers

namespace CoinScript.Template

variable {flags : Flags} {s : Script} {first push : Operation} {lockTime key : Bytes}

/-- What comes first, the check of the lock time, and a key that has to sign. -/
def frozenOperations (first push : Operation) : List Operation :=
  [first, ⟨Opcode.checkLockTimeVerify, []⟩, ⟨Opcode.drop, []⟩, push, ⟨Opcode.checkSig, []⟩]

/-- A script of the template, by the operation in the place of the lock time and the push of a key. -/
structure IsFrozen (s : Script) (first push : Operation) : Prop where
  first_sized : first.Sized
  push_sized : push.Sized
  short : ∃ n, first.data.length ≤ 5 ∧ first.data = Number.encode n
  announced : PublicKey.hasAnnouncedLength push.data = true
  eq : s = Script.ofOperations (frozenOperations first push)

namespace IsFrozen

theorem operations?_eq (h : IsFrozen s first push) : operations? s = some (frozenOperations first push) := by
  rw [h.eq]
  refine operations?_ofOperations ?_
  simp only [frozenOperations, List.forall_mem_cons]
  exact ⟨h.first_sized, Operation.sized_bare (by decide), Operation.sized_bare (by decide), h.push_sized,
    Operation.sized_bare (by decide), fun _ h => nomatch h⟩

theorem frozen?_eq (h : IsFrozen s first push) : frozen? s = some (.frozen first.data push.data) := by
  obtain ⟨n, hl, hn⟩ := h.short
  have hshort : (shortNumber? first.data).isSome = true := by
    rw [shortNumber?_eq_some.mpr ⟨hl, hn⟩]
    rfl
  rw [frozen?, h.operations?_eq]
  exact if_pos ⟨hshort, rfl, rfl, h.announced, rfl⟩

/-- The last byte is another. -/
theorem ne_payTo_script (h : IsFrozen s first push) (id : ScriptId) : s ≠ Script.payTo (.script id) := by
  intro hs
  have hpaid : s.bytes = (id.code :: UInt8.ofNat id.bytes.length :: id.bytes) ++ [Opcode.equal] := by
    rw [hs, id.payTo_bytes]
    rfl
  have hfrozen : s.bytes = (frozenOperations first push).dropLast.flatMap Operation.bytes ++
      [Opcode.checkSig] := by
    rw [h.eq, Script.ofOperations, show frozenOperations first push =
      (frozenOperations first push).dropLast ++ [⟨Opcode.checkSig, []⟩] from rfl, List.flatMap_append]
    rfl
  have hlast : [Opcode.equal] = [Opcode.checkSig] := (List.append_inj' (hpaid.symm.trans hfrozen) rfl).2
  cases hlast

/-- The check of the lock time does not push. -/
theorem not_isPublic (h : IsFrozen s first push) (ops : List Operation) : ¬ IsPublic s ops := by
  rintro ⟨hops, hpublic⟩
  rw [h.operations?_eq] at hops
  obtain ⟨-, rfl⟩ := List.cons.inj (Option.some.inj hops)
  cases hpublic

theorem key?_eq_none (h : IsFrozen s first push) : key? s = none := by
  rw [key?, h.operations?_eq]
  rfl

/-- After `OP_DUP` a hash is taken there. -/
theorem keyHash?_eq_none (h : IsFrozen s first push) : keyHash? s = none := by
  cases hk : keyHash? s with
  | none => rfl
  | some t =>
    obtain ⟨hash, -, rfl⟩ := Option.map_eq_some_iff.mp hk
    have hs := Script.eq_iff_bytes.mp (h.eq.symm.trans (keyHash?_shape hk))
    have hdup : first = ⟨Opcode.dup, []⟩ := h.first_sized.eq_bare (List.cons.inj hs).1 (by decide)
    rw [hdup] at hs
    have hsecond : Opcode.checkLockTimeVerify = Opcode.hash160 := (List.cons.inj (List.cons.inj hs).2).1
    exact absurd hsecond (by decide)

theorem recognized (h : IsFrozen s first push) : ofScript flags s = .frozen first.data push.data := by
  rw [ofScript_of_private h.ne_payTo_script h.not_isPublic, h.key?_eq_none, h.keyHash?_eq_none, h.frozen?_eq]
  rfl

/-- A key has bytes, and only a push has data. -/
theorem isPush_push (h : IsFrozen s first push) : push.isPush = true := by
  refine Bool.of_not_eq_false fun hp => ?_
  have hannounced := h.announced
  rw [h.push_sized.bare hp] at hannounced
  cases hannounced

end IsFrozen

theorem frozen_shape (h : ofScript flags s = .frozen lockTime key) :
    ∃ first push, IsFrozen s first push ∧ first.data = lockTime ∧ push.data = key := by
  obtain ⟨ops, ho, hops⟩ := Option.bind_eq_some_iff.mp (recognizer_of_ofScript h)
  obtain ⟨rfl, hsized⟩ := operations?_shape ho
  split at hops
  · next first checkLock drop push check =>
    obtain ⟨⟨hshort, hcheckLock, hdrop, hkey, hcheck⟩, ht⟩ := Option.ite_none_right_eq_some.mp hops
    cases ht
    simp only [List.forall_mem_cons] at hsized
    obtain ⟨hfirst, hs2, hs3, hpush, hs5, -⟩ := hsized
    obtain rfl := hs2.eq_bare hcheckLock (by decide)
    obtain rfl := hs3.eq_bare hdrop (by decide)
    obtain rfl := hs5.eq_bare hcheck (by decide)
    obtain ⟨n, hn⟩ := Option.isSome_iff_exists.mp hshort
    exact ⟨first, push, ⟨hfirst, hpush, ⟨n, shortNumber?_eq_some.mp hn⟩, hkey, rfl⟩, rfl, rfl⟩
  · cases hops

theorem ofScript_eq_frozen_iff :
    ofScript flags s = .frozen lockTime key ↔
      ∃ first push, IsFrozen s first push ∧ first.data = lockTime ∧ push.data = key := by
  constructor
  · exact frozen_shape
  · rintro ⟨first, push, h, rfl, rfl⟩
    exact h.recognized

/-- What is written for a lock time and a key. -/
theorem payFrozen_isFrozen {n : Int} (hn : n.natAbs < 2 ^ 39) (key : PublicKey secp256k1) :
    IsFrozen (Script.payFrozen n key) (.ofInt n) (.pushing key.bytes) := by
  have h75 := length_encode_le_direct hn
  have hkey := key.announced_bytes
  refine ⟨Operation.sized_ofInt h75, (Operation.runs_key hkey true).1, ?_, hkey, ?_⟩
  · exact ⟨_, shortNumber?_eq_some.mp (shortNumber?_ofInt hn)⟩
  · rw [Script.eq_iff_bytes, Script.payFrozen, Script.pushNumber, Operation.numberBytes_eq h75,
      Script.ofOperations, frozenOperations]
    simp only [List.flatMap_cons, bytes_pushing_announced hkey]
    rfl

/-- A frozen key is recovered with the data of its first operation: this is the encoding of the lock time,
or nothing where the code carries it. Whatever has data that reads as a number can come first, and what does
not push is recovered as nothing, too. -/
theorem frozen_template_solved (flags : Flags) :
    (∀ (n : Int) (key : PublicKey secp256k1), n.natAbs < 2 ^ 39 →
      solution flags (Script.payFrozen n key) =
        (.frozen, [if Opcode.InCode n then [] else Number.encode n, key.bytes])) ∧
    ∀ (s : Script) (lockTime key : Bytes), solution flags s = (.frozen, [lockTime, key]) ↔
      ∃ first push, IsFrozen s first push ∧
        (first.isPush = true ∧ first.item = lockTime ∨ first.isPush = false ∧ lockTime = []) ∧
        push.isPush = true ∧ push.item = key := by
  refine ⟨fun n key hn => ?_, fun s lockTime key => ?_⟩
  · rw [solution, eq_frozen_iff, (payFrozen_isFrozen hn key).recognized, Operation.data_ofInt]
    rfl
  · rw [solution, eq_frozen_iff, ofScript_eq_frozen_iff]
    refine exists_congr fun first => exists_congr fun push => and_congr_right fun h => ?_
    have hpush := h.isPush_push
    rw [Operation.item_of_push hpush]
    cases hp : first.isPush with
    | true => simp [Operation.item_of_push hp, hpush]
    | false =>
      have hdata : first.data = [] := h.first_sized.bare hp
      simp [hdata, hpush, eq_comm]

/-- The lock time 5 is not recovered, and a key that is frozen is recovered where `OP_DUP` stands in the place
of the lock time. -/
theorem frozen_lock_time_lost :
    let key : PublicKey secp256k1 := ⟨secp256k1.baseX, secp256k1.baseY, true⟩
    let s : Script := ⟨[Opcode.dup, Opcode.checkLockTimeVerify, Opcode.drop] ++ Script.keyCheck key⟩
    solution .none (Script.payFrozen 5 key) = (.frozen, [[], key.bytes]) ∧ Number.encode 5 = [5] ∧
      solution .none s = (.frozen, [[], key.bytes]) ∧ s.operations.head? = some ⟨Opcode.dup, []⟩ ∧
      Operation.isPush ⟨Opcode.dup, []⟩ = false := by
  decide +kernel

end CoinScript.Template
