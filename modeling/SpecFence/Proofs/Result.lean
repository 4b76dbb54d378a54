import SpecFence.Log

/-!
# Successful computations

A sequence of computations succeeds exactly when its parts do, one after the other.
-/

set_option autoImplicit false

namespace SpecFence

variable {ρ ε ε' α β : Type}

theorem Except.bind_eq_ok_iff {x : Except ε α} {f : α → Except ε β} {b : β} :
    (x >>= f) = .ok b ↔ ∃ a, x = .ok a ∧ f a = .ok b := by
  cases x with
  | error e => simp [bind, Except.bind]
  | ok a => simp [bind, Except.bind]

theorem Except.map_eq_ok_iff {x : Except ε α} {f : α → β} {b : β} :
    x.map f = .ok b ↔ ∃ a, x = .ok a ∧ f a = b := by
  cases x with
  | error e => simp [Except.map]
  | ok a => simp [Except.map]

theorem Except.pure_eq_ok_iff {a b : α} : (pure a : Except ε α) = .ok b ↔ a = b := by
  simp [pure, Except.pure]

instance Except.decidableExistsOk (x : Except ε α) : Decidable (∃ a, x = .ok a) :=
  match x with
  | .error _ => .isFalse fun ⟨_, h⟩ => nomatch h
  | .ok a => .isTrue ⟨a, rfl⟩

namespace Recorded

theorem bind_result (x : Recorded ρ ε α) (f : α → Recorded ρ ε β) :
    (x >>= f).result = x.result >>= fun a => (f a).result := by
  simp only [bind, andThen, Except.bind]
  cases x.result with
  | error e => rfl
  | ok a => rfl

theorem bind_eq_of_ok {x : Recorded ρ ε α} {f : α → Recorded ρ ε β} {a : α}
    (h : x.result = .ok a) : (x >>= f) = ⟨(f a).result, x.log ++ (f a).log⟩ := by
  change andThen x f = _
  unfold andThen
  rw [h]

theorem bind_eq_of_error {x : Recorded ρ ε α} {f : α → Recorded ρ ε β} {e : ε}
    (h : x.result = .error e) : (x >>= f) = ⟨.error e, x.log⟩ := by
  change andThen x f = _
  unfold andThen
  rw [h]

theorem mem_bind_log {x : Recorded ρ ε α} {f : α → Recorded ρ ε β} {r : ρ} :
    r ∈ (x >>= f).log ↔ r ∈ x.log ∨ ∃ a, x.result = .ok a ∧ r ∈ (f a).log := by
  cases h : x.result with
  | error e => simp [bind_eq_of_error h]
  | ok a => simp [bind_eq_of_ok h]

theorem bind_result_eq_ok_iff {x : Recorded ρ ε α} {f : α → Recorded ρ ε β} {b : β} :
    (x >>= f).result = .ok b ↔ ∃ a, x.result = .ok a ∧ (f a).result = .ok b := by
  rw [bind_result, Except.bind_eq_ok_iff]

theorem pure_result_eq_ok_iff {a b : α} : (pure a : Recorded ρ ε α).result = .ok b ↔ a = b := by
  simp [pure]

theorem noteEnd_result (f : Except ε α → ρ) (x : Recorded ρ ε α) :
    (x.noteEnd f).result = x.result := rfl

theorem noteEnd_log (f : Except ε α → ρ) (x : Recorded ρ ε α) :
    (x.noteEnd f).log = x.log ++ [f x.result] := rfl

theorem lift_result (x : Except ε α) : (liftM x : Recorded ρ ε α).result = x := rfl

theorem mapError_eq_ok_iff {f : ε → ε'} {x : Recorded ρ ε α} {a : α} :
    (x.mapError f).result = .ok a ↔ x.result = .ok a := by
  unfold mapError
  cases x.result with
  | error e =>
    constructor
    · intro h
      cases h
    · intro h
      cases h
  | ok b =>
    constructor
    · intro h
      rw [Except.ok.inj h]
    · intro h
      rw [Except.ok.inj h]
      rfl

end Recorded

theorem Logged.emitIf_result (c : Bool) (level : LogLevel) (text : String) :
    (emitIf c level text : Logged ε Unit).result = .ok () := by
  unfold emitIf
  cases c with
  | true => rfl
  | false => rfl

end SpecFence
