import SpecFence.Waypoint

/-!
# Cuts

A cut is a set of edges that separates every group of a list.  This module holds what all ways of
finding one share: the errors, the weight and the check of a cut, and the preparation of the groups.
-/

set_option autoImplicit false

namespace SpecFence

/-- A set of edges to be mitigated. -/
abbrev Cut := AscSet Edge

inductive CutError where
  | invalidGroup (group : WaypointGroup) (fault : GroupFault)
  | unboundedFlow
  | solverFailed (answer : String)
  | cancelled
deriving DecidableEq

namespace CutError

def message : CutError → String
  | invalidGroup g f => "invalid waypoint group: " ++ g.display ++ ": " ++ f.message
  | unboundedFlow => "max-flow is unbounded: a group cannot be separated by finite edges"
  | solverFailed answer => s!"constraint solver failed: {answer}"
  | cancelled => "cancelled"

end CutError

def checkCancelled (cancelled : Bool) : Except CutError Unit :=
  if cancelled then .error .cancelled else .ok ()

def cutWeight (graph : Digraph) (cut : List Edge) : Nat :=
  Weight.total (cut.map fun e => graph.weight e.src e.dst)

def separatesAll (graph : Digraph) (cut : List Edge) (groups : List WaypointGroup) : Bool :=
  let remaining := (Overlay.without graph cut).digraph
  groups.all fun g => (g.narrow? remaining).isNone

/-- The groups without repetition and in ascending order; the first faulty group is an error. -/
def prepareGroups (graph : Digraph) (groups : List WaypointGroup) :
    Except CutError (List WaypointGroup) :=
  match groups.findSome? fun g => (g.fault? graph.size).map (g, ·) with
  | some (g, f) => .error (.invalidGroup g f)
  | none => .ok (AscSet.ofList groups).toList

end SpecFence
