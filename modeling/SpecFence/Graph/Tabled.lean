import SpecFence.Graph.Overlay

/-!
# Graphs with tables for both directions

A two-way graph keeps rows for the edges that leave a node and for those that enter it.  A scoped
graph is an overlay that keeps, beside the written weights, the ends of the written edges that the
graph below does not have, so that a query looks at the neighbours of one node only.  Every write
has to keep the tables in step.
-/

set_option autoImplicit false

namespace SpecFence

structure TwoWayGraph where
  succs : Array Row
  preds : Array Row
deriving DecidableEq

namespace TwoWayGraph

def withNodes (n : Nat) : TwoWayGraph := ⟨Array.replicate n .empty, Array.replicate n .empty⟩

def addNode (g : TwoWayGraph) : TwoWayGraph := ⟨g.succs.push .empty, g.preds.push .empty⟩

def put (g : TwoWayGraph) (e : Edge) (w : Nat) : TwoWayGraph where
  succs := g.succs.modify e.src (WeightedGraph.writeRow · e.dst w)
  preds := g.preds.modify e.dst (WeightedGraph.writeRow · e.src w)

def digraph (g : TwoWayGraph) : Digraph where
  size := g.succs.size
  weight u v := ((Row.ofTable g.succs u).get? v).getD 0
  succs u := (Row.ofTable g.succs u).toList
  preds v := (Row.ofTable g.preds v).toList

def ofDigraph (g : Digraph) : TwoWayGraph :=
  g.edges.foldl (fun t (e, w) => t.put e w) (withNodes g.size)

end TwoWayGraph

abbrev NeighborTable := AscMap Node NodeSet

namespace NeighborTable

def of (t : NeighborTable) (u : Node) : NodeSet := (t.get? u).getD .empty

def add (t : NeighborTable) (u v : Node) : NeighborTable := t.insert u ((t.of u).insert v)

def remove (t : NeighborTable) (u v : Node) : NeighborTable :=
  match t.get? u with
  | some s => t.insert u (s.filter (· != v))
  | none => t

end NeighborTable

/-- Weights written over a graph, with the ends of those edges that are absent below. -/
structure ScopedGraph where
  base : Digraph
  overrides : AscMap Edge Nat
  extraSuccs : NeighborTable
  extraPreds : NeighborTable

namespace ScopedGraph

def onto (base : Digraph) : ScopedGraph := ⟨base, .empty, .empty, .empty⟩

def weight (s : ScopedGraph) (u v : Node) : Nat :=
  (s.overrides.get? ⟨u, v⟩).getD (s.base.weight u v)

def restore (s : ScopedGraph) (e : Edge) : ScopedGraph where
  base := s.base
  overrides := s.overrides.erase e
  extraSuccs := s.extraSuccs.remove e.src e.dst
  extraPreds := s.extraPreds.remove e.dst e.src

/-- The graph with one weight written.  An edge that is absent below goes into the tables, and
writing zero for it takes back what was written. -/
def put (s : ScopedGraph) (e : Edge) (w : Nat) : ScopedGraph :=
  if s.base.weight e.src e.dst = 0 then
    if 0 < w then
      { s with
        overrides := s.overrides.insert e w
        extraSuccs := s.extraSuccs.add e.src e.dst
        extraPreds := s.extraPreds.add e.dst e.src }
    else s.restore e
  else { s with overrides := s.overrides.insert e w }

def without (base : Digraph) (cut : List Edge) : ScopedGraph :=
  cut.foldl (fun s e => s.put e 0) (onto base)

/-- A row of the graph below with the extra nodes added to it, read through the written weights;
edges of weight zero are left out. -/
def merged (s : ScopedGraph) (below : List (Node × Nat)) (extra : NodeSet) (key : Node → Edge) :
    List (Node × Nat) :=
  let row := extra.toList.foldl (fun r n => r.insert n 0) (AscMap.ofList below)
  row.toList.filterMap fun (n, w) =>
    let w := (s.overrides.get? (key n)).getD w
    if 0 < w then some (n, w) else none

def digraph (s : ScopedGraph) : Digraph where
  size := s.base.size
  weight := s.weight
  succs u := s.merged (s.base.succs u) (s.extraSuccs.of u) (⟨u, ·⟩)
  preds v := s.merged (s.base.preds v) (s.extraPreds.of v) (⟨·, v⟩)

end ScopedGraph

end SpecFence
