import SpecFence.Cut.Basic
import SpecFence.Graph.Layered

/-!
# Minimum cuts by maximum flow

The residual network of a flow is itself a weighted graph: an edge carries what can still be
pushed along it.  Flow is pushed along shortest residual paths until the sink is out of reach; the
nodes that remain in reach of the source are the source side of the cut, which makes it the
minimum cut closest to the source.
-/

set_option autoImplicit false

namespace SpecFence

structure MinCut where
  value : Nat
  edges : List Edge
deriving DecidableEq

namespace Flow

def infiniteCapacity (g : Digraph) : Nat :=
  Weight.add (Weight.total ((g.edges.map Prod.snd).filter (· < Weight.infinite))) 1

def emptyFlow (g : Digraph) : WeightedGraph :=
  let top := infiniteCapacity g
  (WeightedGraph.withNodes g.size).putAll
    (g.edges.map fun (e, w) => (e, if w < Weight.infinite then w else top))

def augmentingPath? (residual : WeightedGraph) (source sink : Node) : Option (List Edge) :=
  Search.shortest (fun u => (residual.row u).keys.map fun v => (⟨u, v⟩, v)) (· == sink)
    (Array.replicate residual.size false) [(source, [])]

/-- The residual network after pushing an amount of flow along one edge: the edge can take that much
less, and as much more can be pushed back. -/
def pushEdge (amount : Nat) (residual : WeightedGraph) (e : Edge) : WeightedGraph :=
  let forth := residual.weight e.src e.dst - amount
  let back := residual.weight e.dst e.src + amount
  (residual.put e.src e.dst forth).put e.dst e.src back

def bottleneck (residual : WeightedGraph) : List Edge → Nat
  | [] => 0
  | [e] => residual.weight e.src e.dst
  | e :: rest => min (residual.weight e.src e.dst) (bottleneck residual rest)

/-- Pushes flow until the sink is out of reach.  Each round pushes at least one unit, so as many
rounds as there are units of capacity at the source suffice. -/
def saturate (source sink : Node) : Nat → WeightedGraph → WeightedGraph
  | 0, residual => residual
  | rounds + 1, residual =>
    match augmentingPath? residual source sink with
    | none => residual
    | some [] => residual
    | some (e :: path) =>
      saturate source sink rounds
        ((e :: path).foldl (pushEdge (bottleneck residual (e :: path))) residual)

def maximum (g : Digraph) (source sink : Node) : WeightedGraph :=
  let start := emptyFlow g
  saturate source sink (Weight.sum ((start.row source).toList.map Prod.snd)) start

end Flow

/-- The minimum cut between two nodes that is closest to the source.  An edge of infinite weight
across it means that no finite edges separate the two. -/
def minCut (g : Digraph) (source sink : Node) (cancelled : Bool) : Except CutError MinCut := do
  checkCancelled cancelled
  let side := (Flow.maximum g source sink).digraph.reachableFrom [source]
  let across := g.edges.filter fun (e, _) => side.has e.src && !side.has e.dst
  if across.any fun (_, w) => Weight.infinite ≤ w then
    .error .unboundedFlow
  else
    .ok ⟨Weight.total (across.map Prod.snd), across.map Prod.fst⟩

/-- A cut that separates one group: the base edges of a minimum cut of the layered graph.  A group
that no walk satisfies needs no edges. -/
def minCutGroup (g : Digraph) (group : WaypointGroup) (cancelled : Bool) : Except CutError Cut :=
  match group.narrow? g with
  | none => .ok .empty
  | some stages => do
    let layered : Layered := ⟨g, stages⟩
    let flow ← minCut layered.digraph layered.source layered.sink cancelled
    .ok (.ofList (flow.edges.filterMap layered.projectEdge))

end SpecFence
