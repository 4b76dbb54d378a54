/-!
# Edge weights

Weights are natural numbers below `2 ^ 64`.  Sums saturate at the largest weight, and weights from a
quarter of it upwards count as infinite: an edge of infinite weight is never cut.
-/

set_option autoImplicit false

namespace SpecFence.Weight

def limit : Nat := 0xFFFFFFFFFFFFFFFF

/-- The weight from which on an edge must not be cut. -/
def infinite : Nat := limit / 4

/-- Sum of two weights, held at the largest weight. -/
def add (a b : Nat) : Nat := min (a + b) limit

def mul (a b : Nat) : Nat := min (a * b) limit

def total (ws : List Nat) : Nat := ws.foldl add 0

def sum : List Nat → Nat
  | [] => 0
  | w :: ws => w + sum ws

theorem foldl_add (ws : List Nat) (a : Nat) (h : a ≤ limit) :
    ws.foldl add a = min (a + sum ws) limit := by
  induction ws generalizing a with
  | nil => simp only [List.foldl_nil, sum]; omega
  | cons w ws ih =>
    have hw : add a w ≤ limit := Nat.min_le_right _ _
    rw [List.foldl_cons, ih _ hw, add, sum]
    omega

theorem total_eq (ws : List Nat) : total ws = min (sum ws) limit := by
  rw [total, foldl_add ws 0 (Nat.zero_le _), Nat.zero_add]

end SpecFence.Weight
