import CoinScript.Proofs.Parsing

namespace CoinScript

namespace Script

variable {pattern bs rest : Bytes} {op found : Operation}

theorem dropCopies_append (hp : pattern ≠ []) (rest : Bytes) :
    dropCopies pattern (pattern ++ rest) =
      ((dropCopies pattern rest).1 + 1, (dropCopies pattern rest).2) := by
  have hfront : pattern ≠ [] ∧ pattern.isPrefixOf (pattern ++ rest) = true :=
    ⟨hp, List.isPrefixOf_iff_prefix.mpr (List.prefix_append _ _)⟩
  rw [dropCopies, dif_pos hfront, List.drop_left]

theorem dropCopies_of_no_copy (h : ¬ pattern <+: bs) : dropCopies pattern bs = (0, bs) := by
  rw [dropCopies, dif_neg]
  exact fun hf => h (List.isPrefixOf_iff_prefix.mp hf.2)

/-- Where an operation has been read, the pattern stands only if it is that operation. -/
theorem bytes_eq_of_front (hp : Operation.read? pattern = some (found, []))
    (hr : Operation.read? bs = some (op, rest)) (h : pattern <+: bs) : op.bytes = pattern := by
  obtain ⟨more, rfl⟩ := h
  have hmore := Operation.read?_append more hp
  rw [hr] at hmore
  cases hmore
  have hbytes := (Operation.eq_of_read? hp).1
  rw [List.append_nil] at hbytes
  exact hbytes.symm

/-- After the copies at the front one operation is kept. -/
theorem removeFrom_eq (pattern bs : Bytes) :
    removeFrom pattern bs =
      match Operation.read? (dropCopies pattern bs).2 with
      | none => dropCopies pattern bs
      | some (op, rest) =>
        ((dropCopies pattern bs).1 + (removeFrom pattern rest).1,
          op.bytes ++ (removeFrom pattern rest).2) := by
  rw [removeFrom]
  split
  · next h => rw [h]
  · next h => rw [h]

theorem removeFrom_of_none (hp : Operation.read? pattern = some (found, []))
    (hr : Operation.read? bs = none) : removeFrom pattern bs = (0, bs) := by
  have hprefix : ¬ pattern <+: bs := by
    rintro ⟨more, rfl⟩
    rw [Operation.read?_append more hp] at hr
    cases hr
  rw [removeFrom_eq, dropCopies_of_no_copy hprefix, hr]

theorem removeFrom_of_copy (hp : Operation.read? pattern = some (found, [])) (rest : Bytes) :
    removeFrom pattern (pattern ++ rest) =
      ((removeFrom pattern rest).1 + 1, (removeFrom pattern rest).2) := by
  have hne : pattern ≠ [] := by
    rintro rfl
    cases hp
  rw [removeFrom_eq pattern (pattern ++ rest), dropCopies_append hne, removeFrom_eq pattern rest]
  cases Operation.read? (dropCopies pattern rest).2 with
  | none => rfl
  | some next => exact Prod.ext (Nat.add_right_comm _ _ _) rfl

theorem removeFrom_of_ne (hp : Operation.read? pattern = some (found, []))
    (hr : Operation.read? bs = some (op, rest)) (hne : op.bytes ≠ pattern) :
    removeFrom pattern bs = ((removeFrom pattern rest).1, op.bytes ++ (removeFrom pattern rest).2) := by
  have hprefix : ¬ pattern <+: bs := fun h => hne (bytes_eq_of_front hp hr h)
  rw [removeFrom_eq, dropCopies_of_no_copy hprefix, hr]
  exact Prod.ext (Nat.zero_add _) rfl

/-- What is left are the operations that differ from the pattern, and the tail. By recursion on the
operations that can be read. -/
theorem removeFrom_eq_filter (hp : Operation.read? pattern = some (found, [])) (bs : Bytes) :
    removeFrom pattern bs =
      ((parse bs).1.countP (·.bytes = pattern),
        ((parse bs).1.filter (·.bytes ≠ pattern)).flatMap Operation.bytes ++ (parse bs).2) := by
  cases hr : Operation.read? bs with
  | none => rw [removeFrom_of_none hp hr, parse_of_none hr, List.countP_nil, List.filter_nil,
      List.flatMap_nil, List.nil_append]
  | some next =>
    obtain ⟨op, rest⟩ := next
    have hlt := Operation.read?_length hr
    have hrest := removeFrom_eq_filter hp rest
    rw [parse_of_some hr]
    by_cases hop : op.bytes = pattern
    · have hbs : bs = pattern ++ rest := by
        rw [← hop]
        exact (Operation.eq_of_read? hr).1
      rw [hbs, removeFrom_of_copy hp, hrest, List.countP_cons_of_pos (by simpa using hop),
        List.filter_cons_of_neg (by simpa using hop)]
    · rw [removeFrom_of_ne hp hr hop, hrest, List.countP_cons_of_neg (by simpa using hop),
        List.filter_cons_of_pos (by simpa using hop), List.flatMap_cons, List.append_assoc]
termination_by bs.length

theorem remove_eq_filter {s p : Script} (hp : Operation.read? p.bytes = some (found, [])) :
    s.remove p =
      (s.operations.countP (·.bytes = p.bytes),
        ⟨(s.operations.filter (·.bytes ≠ p.bytes)).flatMap Operation.bytes ++ s.tail⟩) := by
  unfold remove
  rw [removeFrom_eq_filter hp]
  rfl

end Script

end CoinScript
