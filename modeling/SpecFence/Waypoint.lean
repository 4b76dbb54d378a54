import SpecFence.Graph.Overlay
import SpecFence.Graph.Search

/-!
# Waypoint groups

A waypoint group is a list of node sets, its stages.  A walk satisfies the group when it visits a
node of each stage in order, and a set of edges separates the group when no walk that avoids these
edges satisfies it.  `narrow?` finds, stage by stage, the nodes at which such a walk can stand.
-/

set_option autoImplicit false

namespace SpecFence

open Std

/-- The stages that a walk has to visit in order. -/
structure WaypointGroup where
  stages : List NodeSet
deriving DecidableEq

inductive GroupFault where
  | tooFewStages
  | emptyStage (stage : Nat)
  | notANode (node : Node)
  | sharedNode (node : Node) (stage : Nat)
deriving DecidableEq, Repr

namespace GroupFault

def message : GroupFault → String
  | tooFewStages => "a group needs at least two stages"
  | emptyStage i => s!"stage {i} is empty"
  | notANode v => v.display ++ " is not a node of the graph"
  | sharedNode v i =>
    let j := i + 1
    v.display ++ s!" is in stages {i} and {j}"

end GroupFault

namespace WaypointGroup

instance : Ord WaypointGroup := ⟨compareOn stages⟩

instance : TransOrd WaypointGroup := inferInstanceAs (TransCmp (compareOn stages))

instance : LawfulEqOrd WaypointGroup where
  compare_self {g} := ReflOrd.compare_self (a := g.stages)
  eq_of_compare {g h} e := by
    cases g
    cases h
    exact congrArg mk (LawfulEqOrd.eq_of_compare e)

def displayStage (s : NodeSet) : String :=
  "\x7b" ++ ", ".intercalate (s.toList.map Node.display) ++ "\x7d"

def display (g : WaypointGroup) : String := " -> ".intercalate (g.stages.map displayStage)

def sources? (g : WaypointGroup) : Option NodeSet := g.stages.head?

def sinks? (g : WaypointGroup) : Option NodeSet := g.stages.getLast?

/-- The first stage, from the given number on, that is empty or has a node outside the graph. -/
def stageFault? (size : Nat) (i : Nat) : List NodeSet → Option GroupFault
  | [] => none
  | s :: rest =>
    if s.isEmpty then some (.emptyStage i)
    else match s.toList.find? (size ≤ ·) with
      | some v => some (.notANode v)
      | none => stageFault? size (i + 1) rest

def overlapFault? (i : Nat) : List NodeSet → Option GroupFault
  | s :: t :: rest =>
    match s.toList.find? (· ∈ t) with
    | some v => some (.sharedNode v i)
    | none => overlapFault? (i + 1) (t :: rest)
  | _ => none

/-- What is wrong with a group over a graph of the given size, if anything is: there are at least
two stages, none is empty, all nodes are nodes of the graph, and consecutive stages are disjoint.
-/
def fault? (g : WaypointGroup) (size : Nat) : Option GroupFault :=
  if g.stages.length < 2 then some .tooFewStages
  else (stageFault? size 0 g.stages).or (overlapFault? 0 g.stages)

def narrowFrom (graph : Digraph) (frontier : NodeSet) : List NodeSet → Option (List NodeSet)
  | [] => if frontier.isEmpty then none else some [frontier]
  | next :: rest =>
    if frontier.isEmpty then none
    else
      let reach := graph.reachableFrom frontier.toList
      (narrowFrom graph (next.filter reach.has) rest).map (frontier :: ·)

/-- The nodes of each stage at which a walk that visited the earlier stages in order can stand; none
if no walk satisfies the group or there are fewer than two stages. -/
def narrow? (g : WaypointGroup) (graph : Digraph) : Option (List NodeSet) :=
  match g.stages with
  | first :: next :: rest => narrowFrom graph (first.filter (· < graph.size)) (next :: rest)
  | _ => none

/-- Does no walk that avoids the given edges satisfy the group? -/
def separatedBy (g : WaypointGroup) (graph : Digraph) (cut : List Edge) : Bool :=
  (g.narrow? (Overlay.without graph cut).digraph).isNone

end WaypointGroup

end SpecFence
