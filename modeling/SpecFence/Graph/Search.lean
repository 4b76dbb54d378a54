import SpecFence.Graph.Basic

/-!
# Searches

Searches over numbered states with a table of open states: one marks everything that can be reached,
one finds a shortest sequence of steps to a goal, and one lists the states in the order in which a
depth-first walk leaves them.  Each visited state is closed, so the number of open states, and with
it every search, comes to an end.
-/

set_option autoImplicit false

namespace SpecFence

/-- A table with one entry for each numbered state, telling whether the state is in. -/
abbrev Marks := Array Bool

namespace Marks

/-- Is a state in?  States beyond the table are not. -/
def has (m : Marks) (i : Nat) : Bool := m[i]?.getD false

/-- The states that are in, in ascending order. -/
def members (m : Marks) : List Nat := (List.range m.size).filter m.has

end Marks

namespace Search

theorem count_set_lt {a : Array Bool} {i : Nat} (x : Bool) (h : i < a.size) (hi : a[i] = x) :
    (a.set i (!x) h).count x < a.count x := by
  have hmem : x ∈ a := hi ▸ Array.getElem_mem h
  have hpos : 0 < a.count x := Array.count_pos_iff.mpr hmem
  have hne : ((!x) == x) = false := by cases x <;> rfl
  rw [Array.count_set h, hi, hne, beq_self_eq_true]
  simp only [if_true, Bool.false_eq_true, if_false]
  omega

def spread (next : Nat → List Nat) (seen : Marks) (work : List Nat) : Marks :=
  match work with
  | [] => seen
  | v :: rest =>
    if h : ∃ hv : v < seen.size, seen[v] = false then
      spread next (seen.set v true h.1) (next v ++ rest)
    else
      spread next seen rest
termination_by (seen.count false, work.length)
decreasing_by
  · exact Prod.Lex.left _ _ (count_set_lt false h.1 h.2)
  · exact Prod.Lex.right _ (by simp)

/-- A shortest sequence of steps from the queued states to a goal.  The queue holds the states to
visit, first come first served, each with the steps that led to it, the last step first. -/
def shortest {σ : Type} (next : Nat → List (σ × Nat)) (goal : Nat → Bool) (closed : Marks)
    (queue : List (Nat × List σ)) : Option (List σ) :=
  match queue with
  | [] => none
  | (v, walk) :: rest =>
    if h : ∃ hv : v < closed.size, closed[v] = false then
      if goal v then some walk.reverse
      else
        shortest next goal (closed.set v true h.1)
          (rest ++ (next v).map fun (step, w) => (w, step :: walk))
    else
      shortest next goal closed rest
termination_by (closed.count false, queue.length)
decreasing_by
  · exact Prod.Lex.left _ _ (count_set_lt false h.1 h.2)
  · exact Prod.Lex.right _ (by simp)

inductive Visit where
  | enter (state : Nat)
  | leave (state : Nat)
deriving DecidableEq, Repr

/-- The states that a depth-first walk leaves while it makes the planned visits, after those that it
left before; `left` has the last one first.  A walk leaves a state when it has left all that the
state leads to. -/
def leaving (next : Nat → List Nat) (seen : Marks) (left : List Nat) (plan : List Visit) :
    List Nat :=
  match plan with
  | [] => left.reverse
  | .leave v :: rest => leaving next seen (v :: left) rest
  | .enter v :: rest =>
    if h : ∃ hv : v < seen.size, seen[v] = false then
      leaving next (seen.set v true h.1) left ((next v).map .enter ++ .leave v :: rest)
    else
      leaving next seen left rest
termination_by (seen.count false, plan.length)
decreasing_by
  · exact Prod.Lex.right _ (by simp)
  · exact Prod.Lex.left _ _ (count_set_lt false h.1 h.2)
  · exact Prod.Lex.right _ (by simp)

/-- The states among so many that some given ones lead to, in the order in which a depth-first walk
leaves them. -/
def postorder (next : Nat → List Nat) (size : Nat) (starts : List Nat) : List Nat :=
  leaving next (Array.replicate size false) [] (starts.map .enter)

end Search

namespace Digraph

def reachableFrom (g : Digraph) (starts : List Node) : Marks :=
  Search.spread g.next (Array.replicate g.size false) starts

def reaching (g : Digraph) (ends : List Node) : Marks :=
  Search.spread g.prior (Array.replicate g.size false) ends

end Digraph

end SpecFence
