import SpecFence.Graph.Search

/-!
# Searches that remember parents

A search notes a state when a step first leads to it, together with that step, and goes on from the
states that it noted first come first served.  It stops at the first goal that it notes, and the
steps to the goal are read off the parents from the goal back.
-/

set_option autoImplicit false

namespace SpecFence

namespace Search

variable {σ : Type}

/-- For each state that is noted the state before it and the step between them.  A start is noted
without them. -/
abbrev Parents (σ : Type) := Array (Option (Option (Nat × σ)))

def Parents.note (parents : Parents σ) (v : Nat) (origin : Option (Nat × σ)) : Parents σ :=
  parents.setIfInBounds v (some origin)

/-- Where a search stands: the states that it has noted, and those of them that it has not gone on
from. -/
structure Discovery (σ : Type) where
  parents : Parents σ
  queue : List Nat

namespace Discovery

/-- How many states are not noted or are in the queue. -/
def left (d : Discovery σ) : Nat := d.parents.countP Option.isNone + d.queue.length

/-- Goes over the steps from a state and notes and queues what they lead to, apart from what is
noted already.  A goal is noted, and the steps after it are left. -/
def scan (goal : Nat → Bool) (v : Nat) : List (σ × Nat) → Discovery σ → Discovery σ × Option Nat
  | [], d => (d, none)
  | (step, w) :: steps, d =>
    match d.parents[w]? with
    | some none =>
      let parents := d.parents.note w (some (v, step))
      if goal w then (⟨parents, d.queue⟩, some w)
      else scan goal v steps ⟨parents, d.queue ++ [w]⟩
    | _ => scan goal v steps d

theorem countP_note {parents : Parents σ} {v : Nat} (h : parents[v]? = some none)
    (origin : Option (Nat × σ)) :
    (parents.note v origin).countP Option.isNone + 1 = parents.countP Option.isNone := by
  obtain ⟨hv, hnone⟩ := Array.getElem?_eq_some_iff.mp h
  have hpos : 0 < parents.countP Option.isNone :=
    Array.countP_pos_iff.mpr ⟨none, hnone ▸ Array.getElem_mem hv, rfl⟩
  unfold Parents.note
  rw [Array.setIfInBounds_def, dif_pos hv, Array.countP_set hv, hnone]
  simp
  omega

theorem left_scan_le (goal : Nat → Bool) (v : Nat) (steps : List (σ × Nat)) (d : Discovery σ) :
    (scan goal v steps d).1.left ≤ d.left := by
  induction steps generalizing d with
  | nil => exact Nat.le_refl _
  | cons x steps ih =>
    rw [scan]
    split
    · rename_i hnew
      have hcount := countP_note hnew (some (v, x.1))
      split
      · simp only [left]
        omega
      · refine Nat.le_trans (ih _) ?_
        simp only [left, List.length_append, List.length_singleton]
        omega
    · exact ih d

/-- Goes on from the states in the queue, the first one first, until a goal is noted or the queue is
empty. -/
def finish (next : Nat → List (σ × Nat)) (goal : Nat → Bool) :
    Discovery σ → Parents σ × Option Nat
  | ⟨parents, []⟩ => (parents, none)
  | ⟨parents, v :: rest⟩ =>
    let turn := scan goal v (next v) ⟨parents, rest⟩
    match turn.2 with
    | some found => (turn.1.parents, some found)
    | none => finish next goal turn.1
termination_by d => d.left
decreasing_by
  refine Nat.lt_of_le_of_lt (left_scan_le goal v (next v) ⟨parents, rest⟩) ?_
  simp [left]

def start (size : Nat) (starts : List Nat) : Discovery σ :=
  ⟨starts.foldl (fun parents v => parents.note v none) (Array.replicate size none), starts⟩

end Discovery

/-- The steps that lead to a state, the last one first, when no more than so many states are on the
way. -/
def traceBack? (parents : Parents σ) : Nat → Nat → Option (List σ)
  | 0, _ => none
  | states + 1, v =>
    match parents[v]? with
    | some (some (some (u, step))) => (traceBack? parents states u).map (step :: ·)
    | _ => some []

def firstNoted? (next : Nat → List (σ × Nat)) (goal : Nat → Bool) (size : Nat)
    (starts : List Nat) : Option (List σ) :=
  match (Discovery.start size starts).finish next goal with
  | (parents, some found) => (traceBack? parents parents.size found).map List.reverse
  | (_, none) => none

end Search

end SpecFence
