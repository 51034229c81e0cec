import CoinScript.Proofs.Outcome

namespace CoinScript

/-- Why a checked step does not go on: a fault of the step that it stands for, or a place or a number
that does not exist. -/
inductive Stop (ε : Type)
  | fault (fault : ε)
  | broken

/-- The same step several times. -/
def repeated {ε σ : Type} (step : EStateM ε σ Unit) : Nat → EStateM ε σ Unit
  | 0 => pure ()
  | n + 1 => do
    step
    repeated step n

namespace Checked

variable {ε τ α : Type} {a b bits n : Nat}

/-- Breaks if there is nothing. -/
def found : Option α → EStateM (Stop ε) τ α
  | some a => pure a
  | none => throw .broken

/-- A number, if a word of `bits` bits holds it. -/
def word (bits n : Nat) : EStateM (Stop ε) τ Nat := if n < 2 ^ bits then pure n else throw .broken

/-- A number less another one, which is not greater. -/
def less (a b : Nat) : EStateM (Stop ε) τ Nat := if b ≤ a then pure (a - b) else throw .broken

/-- Stops unless a condition holds. -/
def demand (condition : Bool) (stop : Stop ε) : EStateM (Stop ε) τ Unit :=
  if condition then pure () else throw stop

theorem demand_eq {condition : Bool} {stop : Stop ε} (h : condition = true) :
    (demand condition stop : EStateM (Stop ε) τ Unit) = pure () := if_pos h

theorem demand_stop {condition : Bool} {stop : Stop ε} {t : τ} (h : ¬ condition = true) :
    demand condition stop t = .error stop t := by
  rw [demand, if_neg h]
  rfl

theorem word_eq (h : n < 2 ^ bits) : (word bits n : EStateM (Stop ε) τ Nat) = pure n := if_pos h

theorem less_eq (h : b ≤ a) : (less a b : EStateM (Stop ε) τ Nat) = pure (a - b) := if_pos h

end Checked

/-- Whatever a step does, the checked step does the same on a corresponding state, and leaves a
corresponding state. -/
structure Simulates {ε σ τ α : Type} (R : σ → τ → Prop) (checked : EStateM (Stop ε) τ α)
    (step : EStateM ε σ α) : Prop where
  ok : ∀ {s t a s'}, R s t → step s = .ok a s' → ∃ t', checked t = .ok a t' ∧ R s' t'
  error : ∀ {s t fault s'}, R s t → step s = .error fault s' →
    ∃ t', checked t = .error (.fault fault) t' ∧ R s' t'

namespace Simulates

variable {ε σ τ α β : Type} {R : σ → τ → Prop}
variable {checked : EStateM (Stop ε) τ α} {step : EStateM ε σ α}

/-- A step is simulated if both have the same outcome everywhere. -/
theorem of_outcomes (h : ∀ s t, R s t →
      (∃ a s' t', step s = .ok a s' ∧ checked t = .ok a t' ∧ R s' t') ∨
        ∃ fault s' t', step s = .error fault s' ∧ checked t = .error (.fault fault) t' ∧ R s' t') :
    Simulates R checked step where
  ok := by
    intro s t a s' hR hs
    rcases h s t hR with ⟨b, u, t', hb, hc, hR'⟩ | ⟨fault, u, t', hf, -, -⟩
    · cases hs.symm.trans hb
      exact ⟨t', hc, hR'⟩
    · cases hs.symm.trans hf
  error := by
    intro s t fault s' hR hs
    rcases h s t hR with ⟨b, u, t', hb, -, -⟩ | ⟨fault', u, t', hf, hc, hR'⟩
    · cases hs.symm.trans hb
    · cases hs.symm.trans hf
      exact ⟨t', hc, hR'⟩

theorem pure (a : α) : Simulates R (pure a : EStateM (Stop ε) τ α) (pure a : EStateM ε σ α) where
  ok := by
    intro s t b s' hR h
    obtain ⟨rfl, rfl⟩ := Effect.pure_ok.mp h
    exact ⟨t, rfl, hR⟩
  error := by
    intro s t fault s' _ h
    cases h

/-- One after the other. The second step may rely on what the first one can answer. -/
theorem bind {next : α → EStateM ε σ β} {onward : α → EStateM (Stop ε) τ β}
    (h : Simulates R checked step)
    (hn : ∀ a, (∃ s s', step s = .ok a s') → Simulates R (onward a) (next a)) :
    Simulates R (checked >>= onward) (step >>= next) where
  ok := by
    intro s t b s' hR hb
    obtain ⟨a, mid, ha, hb⟩ := Effect.bind_ok.mp hb
    obtain ⟨t', hc, hR'⟩ := h.ok hR ha
    rw [Effect.bind_of_ok hc]
    exact (hn a ⟨s, mid, ha⟩).ok hR' hb
  error := by
    intro s t fault s' hR hb
    rcases Effect.bind_error.mp hb with ha | ⟨a, mid, ha, hb⟩
    · obtain ⟨t', hc, hR'⟩ := h.error hR ha
      exact ⟨t', Effect.bind_of_error hc, hR'⟩
    · obtain ⟨t', hc, hR'⟩ := h.ok hR ha
      rw [Effect.bind_of_ok hc]
      exact (hn a ⟨s, mid, ha⟩).error hR' hb

theorem map {f : α → β} (h : Simulates R checked step) : Simulates R (f <$> checked) (f <$> step) := by
  rw [← bind_pure_comp, ← bind_pure_comp]
  exact h.bind fun a _ => .pure (f a)

/-- Steps over the same list, one for each entry. -/
theorem mapM {γ : Type} {checked : γ → EStateM (Stop ε) τ α} {step : γ → EStateM ε σ α}
    (h : ∀ c, Simulates R (checked c) (step c)) (cs : List γ) :
    Simulates R (cs.mapM checked) (cs.mapM step) := by
  induction cs with
  | nil => exact .pure []
  | cons c cs ih =>
    rw [List.mapM_cons, List.mapM_cons]
    exact (h c).bind fun a _ => ih.bind fun as _ => .pure (a :: as)

theorem repeated {checked : EStateM (Stop ε) τ Unit} {step : EStateM ε σ Unit}
    (h : Simulates R checked step) (n : Nat) :
    Simulates R (repeated checked n) (repeated step n) := by
  induction n with
  | zero => exact .pure ()
  | succ n ih => exact h.bind fun _ _ => ih

end Simulates

end CoinScript
