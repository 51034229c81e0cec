import CoinScript.Engine.Signing

namespace CoinScript

/-- Outcomes of concrete runs can be compared. -/
instance decidableEqResult {ε σ α : Type} [DecidableEq ε] [DecidableEq σ] [DecidableEq α] :
    DecidableEq (EStateM.Result ε σ α)
  | .ok a s, .ok b t => decidable_of_iff (a = b ∧ s = t) (by simp)
  | .error e s, .error f t => decidable_of_iff (e = f ∧ s = t) (by simp)
  | .ok _ _, .error _ _ => isFalse (by simp)
  | .error _ _, .ok _ _ => isFalse (by simp)

section Monads

variable {ε σ α β : Type} {s t : σ} {a : α} {b : β}

theorem except_bind_ok {x : Except ε α} {k : α → Except ε β} :
    (x >>= k) = .ok b ↔ ∃ a, x = .ok a ∧ k a = .ok b := by
  cases x <;> simp [bind, Except.bind]

theorem except_bind_error {x : Except ε α} {k : α → Except ε β} {fault : ε} :
    (x >>= k) = .error fault ↔ x = .error fault ∨ ∃ a, x = .ok a ∧ k a = .error fault := by
  cases x <;> simp [bind, Except.bind]

theorem except_pure_ok {a' : α} : (pure a : Except ε α) = .ok a' ↔ a = a' := by
  simp [pure, Except.pure]

namespace Effect

theorem bind_ok {e : EStateM ε σ α} {k : α → EStateM ε σ β} :
    (e >>= k) s = .ok b t ↔ ∃ a u, e s = .ok a u ∧ k a u = .ok b t := by
  change EStateM.bind e k s = _ ↔ _
  unfold EStateM.bind
  cases e s <;> simp [and_assoc]

theorem bind_of_ok {e : EStateM ε σ α} {k : α → EStateM ε σ β} (h : e s = .ok a t) :
    (e >>= k) s = k a t := by
  change EStateM.bind e k s = k a t
  unfold EStateM.bind
  rw [h]

theorem bind_of_error {e : EStateM ε σ α} {k : α → EStateM ε σ β} {fault : ε}
    (h : e s = .error fault t) : (e >>= k) s = .error fault t := by
  change EStateM.bind e k s = .error fault t
  unfold EStateM.bind
  rw [h]

theorem bind_error {e : EStateM ε σ α} {k : α → EStateM ε σ β} {fault : ε} :
    (e >>= k) s = .error fault t ↔
      e s = .error fault t ∨ ∃ a u, e s = .ok a u ∧ k a u = .error fault t := by
  change EStateM.bind e k s = _ ↔ _
  unfold EStateM.bind
  cases e s <;> simp [and_assoc]

theorem pure_ok {a' : α} : (pure a : EStateM ε σ α) s = .ok a' t ↔ a = a' ∧ s = t := by
  change EStateM.Result.ok a s = _ ↔ _
  simp

theorem get_ok {u : σ} : (get : EStateM ε σ σ) s = .ok u t ↔ s = u ∧ s = t := by
  change EStateM.Result.ok s s = _ ↔ _
  simp

theorem modify_ok {f : σ → σ} {u : PUnit} :
    (modify f : EStateM ε σ PUnit) s = .ok u t ↔ f s = t := by
  change EStateM.Result.ok PUnit.unit (f s) = _ ↔ _
  simp

end Effect

end Monads

namespace Stack

variable {s t : Stack} {n : Nat} {u : Unit}

theorem needing_ok {next : List Bytes → List Bytes} :
    needing n next s = .ok u t ↔ n ≤ s.length ∧ next s = t := by
  by_cases h : n ≤ s.length <;> simp [needing, h]

theorem require_ok : require n s = .ok u t ↔ n ≤ s.length ∧ s = t := needing_ok

theorem push_ok {item : Bytes} : push item s = .ok u t ↔ item :: s = t := by
  simp [push]

theorem peek_ok {item : Bytes} : peek n s = .ok item t ↔ s[n]? = some item ∧ s = t := by
  unfold peek
  split <;> simp_all

end Stack

theorem Encoding.demand_ok {condition : Bool} {fault : Fault} {u : Unit} :
    Encoding.demand condition fault = .ok u ↔ condition = true := by
  cases condition <;> simp [Encoding.demand]

namespace Effect

variable {α : Type} {st st' : State} {ctx : Context} {u : Unit} {a : α} {n : Nat}

theorem onMain_ok {step : StackStep α} :
    onMain step st = .ok a st' ↔ ∃ s, step st.main = .ok a s ∧ { st with main := s } = st' := by
  unfold onMain
  cases step st.main <;> simp [and_assoc]

theorem onMain_error {step : StackStep α} {fault : Fault} :
    onMain step st = .error fault st' ↔
      ∃ s, step st.main = .error fault s ∧ { st with main := s } = st' := by
  unfold onMain
  cases step st.main <;> simp [and_assoc]

theorem require_ok : onMain (Stack.require n) st = .ok u st' ↔ n ≤ st.main.length ∧ st = st' := by
  simp [onMain_ok, Stack.require_ok, and_assoc]

theorem peek_ok {item : Bytes} :
    onMain (Stack.peek n) st = .ok item st' ↔ st.main[n]? = some item ∧ st = st' := by
  simp [onMain_ok, Stack.peek_ok, and_assoc]

theorem orFail_ok {result : Except Fault α} :
    orFail result st = .ok a st' ↔ result = .ok a ∧ st = st' := by
  cases result <;> simp [orFail]

theorem orFail_error {result : Except Fault α} {fault : Fault} :
    orFail result st = .error fault st' ↔ result = .error fault ∧ st = st' := by
  cases result <;> simp [orFail]

theorem demand_ok {condition : Bool} {fault : Fault} :
    demand condition fault st = .ok u st' ↔ condition = true ∧ st = st' := by
  cases condition <;> simp [demand]

theorem demand_error {condition : Bool} {fault fault' : Fault} :
    demand condition fault' st = .error fault st' ↔ condition = false ∧ fault' = fault ∧ st = st' := by
  cases condition <;> simp [demand]

theorem countOps_ok :
    countOps ctx n st = .ok u st' ↔
      st.opCount + n ≤ ctx.budget ∧ { st with opCount := st.opCount + n } = st' := by
  by_cases h : st.opCount + n ≤ ctx.budget <;> simp [countOps, h]

theorem countSigChecks_ok :
    countSigChecks n st = .ok u st' ↔ { st with sigChecks := st.sigChecks + n } = st' := by
  simp [countSigChecks]

theorem assertTop_ok {assertion : Assertion} :
    assertTop assertion st = .ok u st' ↔
      ∃ top s, st.main = top :: s ∧ Number.isTrue top = true ∧ { st with main := s } = st' := by
  refine onMain_ok.trans ?_
  cases st.main with
  | nil => simp
  | cons top s => by_cases h : Number.isTrue top <;> simp [h, and_assoc]

end Effect

end CoinScript
