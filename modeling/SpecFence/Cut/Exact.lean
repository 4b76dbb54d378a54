import SpecFence.Cut.Iterated
import SpecFence.Cut.Labels

/-!
# Exact cuts by search

Every valid cut has an edge of every walk that satisfies a group, so trying the edges of one such
walk in turn finds all minimal cuts.  The search is bounded by the weight of the best cut so far
and by a budget of visits; when the budget runs out the best cut found is kept.
-/

set_option autoImplicit false

namespace SpecFence

/-- A cut of a label problem, and whether it is known to be the lightest. -/
structure Solution where
  cut : EdgeSet
  optimal : Bool
deriving DecidableEq

structure CutSearch where
  visited : Nat
  best : EdgeSet
  bestWeight : Nat

namespace CutSearch

def branches (p : LabelProblem) (walk : List Nat) : List Nat :=
  (walk.filter fun i => p.edgeWeight i < Weight.infinite).eraseDups.mergeSort fun i j =>
    p.edgeWeight i < p.edgeWeight j || (p.edgeWeight i == p.edgeWeight j && i ≤ j)

/-- Visits a set of edges and what comes of adding edges to it, at most `depth` of them.  An edge is
put into the set for the visits below it and taken out after them. -/
def visitInPlace (p : LabelProblem) (budget : Nat) (cancelled : Bool) (depth weight : Nat)
    (s : CutSearch) (cut : EdgeSet) : Except CutError (CutSearch × EdgeSet) :=
  match depth with
  | 0 => .ok (s, cut)
  | depth + 1 => do
    checkCancelled cancelled
    if budget ≤ s.visited then return (s, cut)
    let s := { s with visited := s.visited + 1 }
    if s.bestWeight ≤ weight then return (s, cut)
    match p.witness? cut with
    | none => return ({ s with best := cut, bestWeight := weight }, cut)
    | some walk =>
      (branches p walk).foldlM (fun (s, cut) i => do
        let (s, cut) ← visitInPlace p budget cancelled depth (Weight.add weight (p.edgeWeight i)) s
          (cut.insert i)
        return (s, cut.filter (· != i))) (s, cut)

end CutSearch

/-- The lightest valid cut that the search finds within a budget of visits, at least one, starting
from a valid cut.  Each step adds an edge of a walk that avoids the edges so far, so the depth is at
most the number of edges. -/
def LabelProblem.solve (p : LabelProblem) (budget : Nat) (incumbent : EdgeSet) (cancelled : Bool) :
    Except CutError Solution := do
  let budget := max budget 1
  let (s, _) ← CutSearch.visitInPlace p budget cancelled (p.edges.size + 1) 0
    ⟨0, incumbent, p.weight incumbent⟩ .empty
  return ⟨s.best, s.visited < budget⟩

/-- Cuts all groups at once: the search starts from the cut that comes of cutting the groups in
turn. -/
def exactCut (passLimit budget : Nat) (cancelled : Bool) (graph : Digraph)
    (groups : List WaypointGroup) : Logged CutError Cut := do
  let groups ← (prepareGroups graph groups : Except CutError _)
  if groups.isEmpty then
    return .empty
  let seed ← (iteratedCut passLimit cancelled .initial graph groups).outcome
  let p := LabelProblem.encode graph groups
  let incumbent : EdgeSet := .ofList (seed.toList.filterMap p.edgeIndex?)
  let solution ← (p.solve budget incumbent cancelled : Except CutError _)
  let weight := p.weight solution.cut
  Logged.emitIf (!solution.optimal) .warn
    s!"constraint min-cut search budget exhausted; keeping a cut of weight {weight}"
  return p.cutEdges solution.cut

end SpecFence
