import SpecFence.Graph.Search

/-!
# Traversals

A traversal marks a state when it puts the state on a stack, and takes states off the stack until
none is left.  A state on the stack is marked already, although what it leads to may not be.  Every
state is put on the stack once at most, so a traversal takes a turn for each state that it marks.
-/

set_option autoImplicit false

namespace SpecFence

namespace Search

/-- Where a traversal stands: the states that it has marked, and those of them that it has not gone
on from. -/
structure Traversal where
  seen : Marks
  stack : List Nat

namespace Traversal

def push (t : Traversal) (v : Nat) : Traversal :=
  if h : ∃ hv : v < t.seen.size, t.seen[v] = false then ⟨t.seen.set v true h.1, v :: t.stack⟩ else t

def pushAll (t : Traversal) (vs : List Nat) : Traversal := vs.foldl push t

/-- How many states are open or on the stack. -/
def left (t : Traversal) : Nat := t.seen.count false + t.stack.length

theorem left_push (t : Traversal) (v : Nat) : (t.push v).left = t.left := by
  unfold push
  split
  · rename_i h
    have hpos : 0 < t.seen.count false := Array.count_pos_iff.mpr (h.2 ▸ Array.getElem_mem h.1)
    have hcount : (t.seen.set v true h.1).count false + 1 = t.seen.count false := by
      rw [Array.count_set h.1, h.2]
      simp [Nat.sub_add_cancel hpos]
    simp only [left, List.length_cons]
    omega
  · rfl

theorem left_pushAll (t : Traversal) (vs : List Nat) : (t.pushAll vs).left = t.left := by
  induction vs generalizing t with
  | nil => rfl
  | cons v vs ih => exact (ih (t.push v)).trans (left_push t v)

def finish (next : Nat → List Nat) : Traversal → Marks
  | ⟨seen, []⟩ => seen
  | ⟨seen, v :: rest⟩ => finish next (pushAll ⟨seen, rest⟩ (next v))
termination_by t => t.left
decreasing_by
  rw [left_pushAll]
  simp [left]

def start (size : Nat) (starts : List Nat) : Traversal :=
  pushAll ⟨Array.replicate size false, []⟩ starts

end Traversal

end Search

namespace Digraph

def traverseFrom (g : Digraph) (starts : List Node) : Marks :=
  (Search.Traversal.start g.size starts).finish g.next

def traverseTo (g : Digraph) (ends : List Node) : Marks :=
  (Search.Traversal.start g.size ends).finish g.prior

end Digraph

end SpecFence
