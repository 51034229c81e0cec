import CoinScript.Proofs.Checkbits
import CoinScript.Proofs.MultisigOperands

namespace CoinScript.Signing

namespace Multisig

/-- A signature in the spelling that checkbits ask for, good for an admitted key. -/
structure Signs (ctx : Context) (code : Script) (sig key : Bytes) : Prop where
  length : sig.length = 65
  spelling : Encoding.checkSelectedSignature ctx.flags sig = .ok ()
  key_spelling : Encoding.checkKey ctx.flags key = .ok ()
  accepted : ctx.checker.signature sig key code = true

/-- The dummy selects as many keys as there are signatures, and they have signed, the lowest
signature for the lowest key that is selected. -/
structure Selects (ctx : Context) (code : Script) (m : Multisig) : Prop where
  size : m.dummy.length = (m.keys.length + 7) / 8
  range : Checkbits.InRange m.dummy m.keys.length
  count : Checkbits.weight m.dummy = m.signatures.length
  signed : ∀ i < m.signatures.length, ∃ sig key, m.signatures.reverse[i]? = some sig ∧
    m.keys.reverse[Checkbits.place m.dummy i]? = some key ∧ Signs ctx code sig key

/-- What the loop does with one signature. -/
def checkPair (ctx : Context) (code : Script) (i position : Nat) (sig key : Bytes) :
    Except Fault Unit := do
  Encoding.checkSelectedSignature ctx.flags sig
  Encoding.checkKey ctx.flags key
  Encoding.demand (ctx.checker.signature sig key code) (.schnorrFailed i position)

variable {ctx : Context} {code : Script} {m : Multisig} {s : Stack}
variable {keys sigs : List Bytes}

theorem checkPair_ok {i position : Nat} {sig key : Bytes} :
    checkPair ctx code i position sig key = .ok () ↔ Signs ctx code sig key := by
  simp only [checkPair, except_bind_ok, Encoding.demand_ok]
  constructor
  · intro h
    obtain ⟨_, hs, _, hk, ha⟩ := h
    refine ⟨?_, hs, hk, ha⟩
    by_contra hl
    simp [Encoding.checkSelectedSignature, Schnorr.signatureLength, hl] at hs
  · intro h
    exact ⟨(), h.spelling, (), h.key_spelling, h.accepted⟩

theorem runPairs_cons {i position : Nat} {positions : List Nat} {sig : Bytes} :
    runPairs ctx code keys i (position :: positions) (sig :: sigs) = (do
      checkPair ctx code i position sig (keys.getD position [])
      runPairs ctx code keys (i + 1) positions sigs) := by
  simp only [runPairs, checkPair, bind_assoc]

theorem runPairs_ok {i : Nat} {positions : List Nat} :
    runPairs ctx code keys i positions sigs = .ok () ↔
      ∀ (j position : Nat) (sig : Bytes), positions[j]? = some position → sigs[j]? = some sig →
        Signs ctx code sig (keys.getD position []) := by
  induction positions generalizing i sigs with
  | nil => simp [runPairs]
  | cons position positions ih =>
    cases sigs with
    | nil => simp [runPairs]
    | cons sig sigs =>
      rw [runPairs_cons, except_bind_ok]
      simp only [ih]
      constructor
      · intro h
        obtain ⟨_, hpair, hrest⟩ := h
        intro j
        cases j with
        | zero =>
          intro p s hp hs
          cases hp
          cases hs
          exact checkPair_ok.mp hpair
        | succ j => exact hrest j
      · intro h
        exact ⟨(), checkPair_ok.mpr (h 0 position sig rfl rfl), fun j => h (j + 1)⟩

/-- What is checked before any signature is looked at. -/
theorem runSelected_of_inRange (hk : m.keys.length ≤ 32)
    (hs : m.dummy.length = (m.keys.length + 7) / 8)
    (hr : Checkbits.InRange m.dummy m.keys.length) :
    m.runSelected ctx code =
      if Checkbits.weight m.dummy = m.signatures.length then do
        runPairs ctx code m.keys.reverse 0
          (Checkbits.positions (Bytes.toNatLE m.dummy) m.keys.length) m.signatures.reverse
        return true
      else .error (.checkbitsCount (Checkbits.weight m.dummy) m.signatures.length) := by
  rw [runSelected, Checkbits.read_of_inRange hk hs hr, Checkbits.weight_eq hs hr]
  change (Encoding.demand _ _ >>= fun _ => _) = _
  simp only [Encoding.demand, beq_iff_eq]
  split <;> rfl

theorem runPairs_selected (hc : (Checkbits.positions (Bytes.toNatLE m.dummy) m.keys.length).length =
      m.signatures.length) :
    runPairs ctx code m.keys.reverse 0
        (Checkbits.positions (Bytes.toNatLE m.dummy) m.keys.length) m.signatures.reverse = .ok () ↔
      ∀ i < m.signatures.length, ∃ sig key, m.signatures.reverse[i]? = some sig ∧
        m.keys.reverse[Checkbits.place m.dummy i]? = some key ∧ Signs ctx code sig key := by
  rw [runPairs_ok]
  constructor
  · intro h i hi
    obtain ⟨hplace, hlt⟩ := Checkbits.place_lt (hc ▸ hi)
    have hsig : i < m.signatures.reverse.length := by simpa using hi
    have hkey : Checkbits.place m.dummy i < m.keys.reverse.length := by simpa using hlt
    have hgood := h i _ _ hplace (List.getElem?_eq_getElem hsig)
    rw [List.getD_eq_getElem _ _ hkey] at hgood
    exact ⟨_, _, List.getElem?_eq_getElem hsig, List.getElem?_eq_getElem hkey, hgood⟩
  · intro h i position sig hp hs
    have hi : i < m.signatures.length := by
      rw [← hc]
      exact (List.getElem?_eq_some_iff.mp hp).1
    obtain ⟨sig', key, hs', hk, hgood⟩ := h i hi
    have hplace := (Checkbits.place_lt (hc ▸ hi)).1
    rw [hp, Option.some.injEq] at hplace
    rw [hs, Option.some.injEq] at hs'
    rw [List.getD_eq_getElem?_getD, hplace, hk, hs']
    exact hgood

theorem runSelected_of_selects (hk : m.keys.length ≤ 32) (h : m.Selects ctx code) :
    m.runSelected ctx code = .ok true := by
  have hc := Checkbits.weight_eq h.size h.range ▸ h.count
  rw [runSelected_of_inRange hk h.size h.range, if_pos h.count,
    (runPairs_selected hc).mpr h.signed]
  rfl

theorem runSelected_of_not_selects (hk : m.keys.length ≤ 32) (h : ¬ m.Selects ctx code) :
    ∃ fault, m.runSelected ctx code = .error fault := by
  cases hrun : m.runSelected ctx code with
  | error fault => exact ⟨fault, rfl⟩
  | ok success =>
    refine absurd ?_ h
    by_cases hs : m.dummy.length = (m.keys.length + 7) / 8
    · by_cases hr : Checkbits.InRange m.dummy m.keys.length
      · rw [runSelected_of_inRange hk hs hr] at hrun
        split at hrun
        · next hc =>
          obtain ⟨_, hpairs, -⟩ := except_bind_ok.mp hrun
          exact ⟨hs, hr, hc, (runPairs_selected (Checkbits.weight_eq hs hr ▸ hc)).mp hpairs⟩
        · cases hrun
      · rw [runSelected, Checkbits.read_of_not_inRange hk hs hr] at hrun
        cases hrun
    · rw [runSelected, Checkbits.read_of_size_ne hs] at hrun
      cases hrun

theorem Selects.length_of_mem {sig : Bytes} (h : m.Selects ctx code) (hs : sig ∈ m.signatures) : sig.length = 65 := by
  obtain ⟨i, hi⟩ := List.mem_iff_getElem?.mp (List.mem_reverse.mpr hs)
  have hlt : i < m.signatures.length := by
    simpa using (List.getElem?_eq_some_iff.mp hi).1
  obtain ⟨sig', key, hsig, -, hgood⟩ := h.signed i hlt
  rw [hi, Option.some.injEq] at hsig
  exact hsig ▸ hgood.length

/-- A dummy that is not empty has selected keys that have signed, if no fault is found. -/
theorem selects_of_run {success : Bool} (hk : m.keys.length ≤ 32)
    (hmode : ctx.flags.has .schnorrMultisig = true) (hd : m.dummy ≠ []) (h : m.run ctx code = .ok success) :
    m.Selects ctx code := by
  have hselected : m.isSelected ctx.flags = true := by simp [isSelected, hmode, hd]
  rw [run, if_pos hselected] at h
  by_contra hn
  obtain ⟨fault, hf⟩ := runSelected_of_not_selects hk hn
  cases hf.symm.trans h

/-- The item `i` places above a place that is counted from the top, starting at 1. -/
def above? (s : Stack) (place i : Nat) : Option Bytes :=
  if i < place then s[place - i - 1]? else none

/-- The loop as it goes over the word and the stack. There are `left` signatures to come, and the
key of the next is looked for from bit `start` on. It is `none` to shift the word by its width or
more, to look above the top and to look below the bottom. -/
def sweep? (ctx : Context) (code : Script) (s : Stack) (bits lowestKey lowestSig : Nat) :
    (left i start : Nat) → Option (Except Fault Unit)
  | 0, _, _ => some (.ok ())
  | left + 1, i, start => do
    let position ← Checkbits.seek? bits start
    let sig ← above? s lowestSig i
    let key ← above? s lowestKey position
    match checkPair ctx code i position sig key with
    | .ok () => sweep? ctx code s bits lowestKey lowestSig left (i + 1) (position + 1)
    | .error fault => some (.error fault)

/-- The answer about a multisignature that lies on a stack, found by that loop. -/
def runByPlaces? (ctx : Context) (code : Script) (m : Multisig) (s : Stack) :
    Option (Except Fault Bool) :=
  match Checkbits.read m.dummy m.keys.length with
  | .error fault => some (.error fault)
  | .ok bits =>
    let weight := (Checkbits.positions bits m.keys.length).length
    if weight = m.signatures.length then do
      let result ← sweep? ctx code s bits (m.keys.length + 1)
        (m.keys.length + m.signatures.length + 2) m.signatures.length 0 0
      return result.map fun _ => true
    else some (.error (.checkbitsCount weight m.signatures.length))

/-- A block of a stack read from its lowest item up. -/
theorem above?_eq {s block : List Bytes} {a i : Nat} (hb : (s.drop a).take block.length = block)
    (hi : i < block.length) : above? s (a + block.length) i = block.reverse[i]? := by
  have hplace : a + block.length - i - 1 = a + (block.length - 1 - i) := by omega
  have hitem : s[a + (block.length - 1 - i)]? = block[block.length - 1 - i]? := by
    have h := congrArg (·[block.length - 1 - i]?) hb
    rwa [List.getElem?_take_of_lt (by omega), List.getElem?_drop] at h
  rw [above?, if_pos (by omega), hplace, hitem, List.getElem?_reverse hi]

/-- By induction on the signatures that are left. As many positions are left, so there is a next
bit to find. -/
theorem sweep?_eq {bits left i start : Nat} (hs : m.On ctx s)
    (hl : i + left = m.signatures.length)
    (hp : (Checkbits.positionsFrom bits m.keys.length start).length = left) :
    sweep? ctx code s bits (m.keys.length + 1) (m.keys.length + m.signatures.length + 2) left i
        start =
      some (runPairs ctx code m.keys.reverse i
        (Checkbits.positionsFrom bits m.keys.length start) (m.signatures.reverse.drop i)) := by
  induction left generalizing i start with
  | zero =>
    rw [List.length_eq_zero_iff.mp hp]
    simp [sweep?, runPairs]
  | succ left ih =>
    obtain ⟨count, required, below, hstack, -, -, hmax, -⟩ := hs
    obtain ⟨-, hkeys, -, hsigs, -⟩ := operands_found hstack
    have hk : m.keys.length ≤ 32 := hmax.trans (by decide)
    obtain ⟨position, rest, hrest⟩ := List.exists_cons_of_length_eq_add_one hp
    obtain ⟨hseek, hlt, hnext⟩ := Checkbits.seek?_of_positionsFrom hk hrest
    have hi : i < m.signatures.reverse.length := by
      rw [List.length_reverse]
      omega
    have hsig : above? s (m.keys.length + m.signatures.length + 2) i =
        some m.signatures.reverse[i] := by
      rw [Nat.add_right_comm, above?_eq hsigs (by omega), List.getElem?_eq_getElem hi]
    have hj : position < m.keys.reverse.length := by rwa [List.length_reverse]
    have hkey : above? s (m.keys.length + 1) position = some m.keys.reverse[position] := by
      rw [Nat.add_comm, above?_eq hkeys hlt, List.getElem?_eq_getElem hj]
    have hleft : (Checkbits.positionsFrom bits m.keys.length (position + 1)).length = left := by
      rw [hrest, List.length_cons] at hp
      rw [hnext]
      omega
    have hsweep := ih (i := i + 1) (by omega) hleft
    rw [hnext] at hsweep
    rw [hrest, List.drop_eq_getElem_cons hi, runPairs_cons, List.getD_eq_getElem _ _ hj]
    simp only [sweep?, hseek, hsig, hkey, Option.bind_eq_bind, Option.bind_some, hsweep]
    cases checkPair ctx code i position m.signatures.reverse[i] m.keys.reverse[position] <;> rfl

theorem runByPlaces?_eq (hs : m.On ctx s) :
    m.runByPlaces? ctx code s = some (m.runSelected ctx code) := by
  unfold runByPlaces? runSelected
  cases Checkbits.read m.dummy m.keys.length with
  | error fault => rfl
  | ok bits =>
    change _ = some (Encoding.demand _ _ >>= fun _ => _)
    simp only [Encoding.demand, beq_iff_eq]
    split
    · next hc =>
      have hsweep : sweep? ctx code s bits (m.keys.length + 1)
          (m.keys.length + m.signatures.length + 2) m.signatures.length 0 0 = _ :=
        sweep?_eq hs (Nat.zero_add _) (Checkbits.positionsFrom_zero ▸ hc)
      rw [Checkbits.positionsFrom_zero, List.drop_zero] at hsweep
      rw [hsweep]
      cases runPairs ctx code m.keys.reverse 0 (Checkbits.positions bits m.keys.length)
        m.signatures.reverse <;> rfl
    · rfl

end Multisig

/-- A multisignature with checkbits succeeds exactly if the dummy selects keys that have all signed,
and is a fault otherwise. The dummy is judged first: its size, then its range, then how many bits
are set. The loop over the bits never leaves the word or the stack. -/
theorem selected_multisig_iff_selects (ctx : Context) (st : State) (m : Multisig) (rest : Bytes)
    (hs : m.On ctx st.main) (hb : st.opCount + m.keys.length ≤ ctx.budget)
    (hmode : ctx.flags.has .schnorrMultisig = true) (hdummy : m.dummy ≠ []) :
    let outcome :=
      (Instruction.ofOpcode Opcode.checkMultisig).run ctx Opcode.checkMultisig true rest st
    let fails := fun fault => outcome = .error fault (m.counting ctx.flags st)
    let selects := m.Selects ctx ⟨st.code⟩
    let size := m.dummy.length = (m.keys.length + 7) / 8
    let range := Checkbits.InRange m.dummy m.keys.length
    let weight := Checkbits.weight m.dummy
    (outcome = .ok () (m.answering ctx.flags true st) ↔ selects) ∧
      (¬ selects → ∃ fault, fails fault) ∧
      (¬ size → fails (.checkbitsSize m.dummy.length m.keys.length)) ∧
      (size → ¬ range → fails (.checkbitsRange (Bytes.toNatLE m.dummy) m.keys.length)) ∧
      (size → range → weight ≠ m.signatures.length →
        fails (.checkbitsCount weight m.signatures.length)) ∧
      (∀ a b, (Fault.checkbitsSize a b).code = .invalidBitfieldSize ∧
        (Fault.checkbitsRange a b).code = .invalidBitRange ∧
        (Fault.checkbitsCount a b).code = .invalidBitCount) ∧
      m.runByPlaces? ctx ⟨st.code⟩ st.main = some (m.run ctx ⟨st.code⟩) := by
  intro outcome fails selects size range weight
  have hk : m.keys.length ≤ 32 := by
    obtain ⟨_, _, _, _, _, _, hmax, _⟩ := hs
    exact hmax.trans (by decide)
  have hrun : m.run ctx ⟨st.code⟩ = m.runSelected ctx ⟨st.code⟩ := by
    simp [Multisig.run, Multisig.isSelected, hmode, hdummy]
  have herror : ∀ fault, m.runSelected ctx ⟨st.code⟩ = .error fault → fails fault :=
    fun fault h => checkMultisig_of_run_error hs hb (hrun.trans h)
  have hno : ¬ selects → ∃ fault, fails fault := by
    intro h
    obtain ⟨fault, hf⟩ := Multisig.runSelected_of_not_selects hk h
    exact ⟨fault, herror fault hf⟩
  refine ⟨⟨?_, ?_⟩, hno, ?_, ?_, ?_, fun _ _ => ⟨rfl, rfl, rfl⟩, ?_⟩
  · intro h
    by_contra hn
    obtain ⟨fault, hf⟩ := hno hn
    cases h.symm.trans hf
  · intro h
    exact checkMultisig_of_run_ok hs hb (hrun.trans (Multisig.runSelected_of_selects hk h))
  · intro hsize
    apply herror
    rw [Multisig.runSelected, Checkbits.read_of_size_ne hsize]
    rfl
  · intro hsize hrange
    apply herror
    rw [Multisig.runSelected, Checkbits.read_of_not_inRange hk hsize hrange]
    rfl
  · intro hsize hrange hweight
    apply herror
    rw [Multisig.runSelected_of_inRange hk hsize hrange, if_neg hweight]
  · rw [hrun]
    exact Multisig.runByPlaces?_eq hs

/-- The first and the last of three keys have signed, where a signature is good for the key that it
starts with. -/
theorem selected_multisig_two_of_three :
    let m : Multisig := ⟨[[3], [2], [1]], [List.replicate 65 3, List.replicate 65 1], [5]⟩
    let ctx : Context :=
      ⟨.ofList [.schnorrMultisig], { signature := fun sig key _ => sig.take 1 == key }, 201⟩
    let st : State :=
      { main := [3] :: (m.keys ++ [2] :: (m.signatures ++ m.dummy :: [[7]])), opCount := 1 }
    (Instruction.ofOpcode Opcode.checkMultisig).run ctx Opcode.checkMultisig true [] st =
        .ok () (m.answering ctx.flags true st) ∧
      m.Selects ctx ⟨st.code⟩ := by
  intro m ctx st
  have hs : m.On ctx st.main := ⟨[3], [2], [[7]], rfl, by decide, by decide, by decide, by decide⟩
  have hselects := (selected_multisig_iff_selects ctx st m [] hs (by decide) (by decide)
    (by decide)).1
  have hrun : m.run ctx ⟨st.code⟩ = .ok true := by decide
  have hyes := checkMultisig_of_run_ok hs (by decide) hrun
  exact ⟨hyes, hselects.mp hyes⟩

end CoinScript.Signing
