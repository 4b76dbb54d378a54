/-!
# Fixed points by rounds

A round is repeated until it changes nothing.  The number of rounds is bounded by the caller, who
knows how often a round can change something.
-/

set_option autoImplicit false

namespace SpecFence

/-- Repeats a round until it changes nothing, at most the given number of times. -/
def fixpoint {α : Type} [DecidableEq α] (round : α → α) : Nat → α → α
  | 0, x => x
  | n + 1, x =>
    let y := round x
    if y = x then x else fixpoint round n y

theorem fixpoint_induction {α : Type} [DecidableEq α] {round : α → α} {P : α → Prop}
    (step : ∀ x, P x → P (round x)) (n : Nat) (x : α) (h : P x) : P (fixpoint round n x) := by
  induction n generalizing x with
  | zero => exact h
  | succ n ih =>
    rw [fixpoint]
    split
    · exact h
    · exact ih _ (step x h)

/-- If every round that changes something lowers a measure, and there are more rounds than the
measure allows, the result is a fixed point. -/
theorem fixpoint_fixed {α : Type} [DecidableEq α] {round : α → α} {P : α → Prop} {rank : α → Nat}
    (step : ∀ x, P x → P (round x)) (lower : ∀ x, P x → round x ≠ x → rank (round x) < rank x)
    (n : Nat) (x : α) (h : P x) (hn : rank x ≤ n) :
    round (fixpoint round n x) = fixpoint round n x := by
  induction n generalizing x with
  | zero =>
    refine Classical.byContradiction fun hne => ?_
    have := lower x h hne
    omega
  | succ n ih =>
    rw [fixpoint]
    split
    · assumption
    · rename_i hne
      have := lower x h hne
      exact ih _ (step x h) (by omega)

end SpecFence
