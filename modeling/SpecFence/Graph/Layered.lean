import SpecFence.Graph.Basic

/-!
# Layered copies of a graph

To find walks that visit the stages `W0, …, Wk` in order, `k` copies of a graph are laid over each
other.  Copy `c` holds the walks that have visited the stages up to `c` and look for stage `c + 1`;
an infinite edge leads up at each node of that stage.  A super source enters copy 0 at the nodes of
the first stage, and the last copy leaves to a super sink at the nodes of the last stage.  A walk
from the super source to the super sink is a walk through the stages in order.
-/

set_option autoImplicit false

namespace SpecFence

/-- Copies of a graph, one for each step from a stage to the next. -/
structure Layered where
  base : Digraph
  stages : List NodeSet

namespace Layered

def copies (l : Layered) : Nat := l.stages.length - 1

def stage (l : Layered) (i : Nat) : NodeSet := l.stages[i]?.getD .empty

def node (l : Layered) (c : Nat) (v : Node) : Node := c * l.base.size + v

def source (l : Layered) : Node := l.copies * l.base.size

def sink (l : Layered) : Node := l.copies * l.base.size + 1

def size (l : Layered) : Nat := l.copies * l.base.size + 2

def project (l : Layered) (n : Node) : Option (Nat × Node) :=
  if n < l.copies * l.base.size then some (n / l.base.size, n % l.base.size) else none

/-- Layers a graph along stages; none if there are fewer than two stages, or the first or the last
stage has a node that is not in the graph.  Such nodes of the other stages link nothing. -/
def along? (base : Digraph) (stages : List NodeSet) : Option Layered :=
  match stages.head?, stages.getLast? with
  | some first, some last =>
    if 2 ≤ stages.length ∧ ∀ s ∈ [first, last], ∀ v ∈ s.toList, v < base.size then
      some ⟨base, stages⟩
    else none
  | _, _ => none

def links (l : Layered) (c : Nat) (v : Node) : Bool :=
  c + 1 < l.copies && decide (v ∈ l.stage (c + 1))

def exits (l : Layered) (c : Nat) (v : Node) : Bool :=
  c + 1 == l.copies && decide (v ∈ l.stage l.copies)

/-- The weight of a pair of layered nodes: infinite for the edges in, up and out, and the weight of
the base edge within a copy. -/
def weight (l : Layered) (a b : Node) : Nat :=
  match l.project a, l.project b with
  | none, some (c, v) =>
    if a = l.source ∧ c = 0 ∧ v ∈ l.stage 0 then Weight.infinite else 0
  | some (c, u), none =>
    if b = l.sink ∧ l.exits c u then Weight.infinite else 0
  | some (c, u), some (d, v) =>
    if c = d then l.base.weight u v
    else if d = c + 1 ∧ u = v ∧ l.links c u then Weight.infinite
    else 0
  | none, none => 0

def succs (l : Layered) (a : Node) : List (Node × Nat) :=
  match l.project a with
  | none =>
    if a = l.source then (l.stage 0).toList.map fun v => (l.node 0 v, Weight.infinite) else []
  | some (c, u) =>
    ((l.base.succs u).map fun (v, w) => (l.node c v, w))
      ++ (if l.links c u then [(l.node (c + 1) u, Weight.infinite)] else [])
      ++ (if l.exits c u then [(l.sink, Weight.infinite)] else [])

def preds (l : Layered) (b : Node) : List (Node × Nat) :=
  match l.project b with
  | none =>
    if b = l.sink then
      (l.stage l.copies).toList.map fun u => (l.node (l.copies - 1) u, Weight.infinite)
    else []
  | some (d, v) =>
    (if 0 < d && l.links (d - 1) v then [(l.node (d - 1) v, Weight.infinite)] else [])
      ++ ((l.base.preds v).map fun (u, w) => (l.node d u, w))
      ++ (if d = 0 ∧ v ∈ l.stage 0 then [(l.source, Weight.infinite)] else [])

def digraph (l : Layered) : Digraph where
  size := l.size
  weight := l.weight
  succs := l.succs
  preds := l.preds

def projectEdge (l : Layered) (e : Edge) : Option Edge :=
  match l.project e.src, l.project e.dst with
  | some (c, u), some (d, v) => if c = d then some ⟨u, v⟩ else none
  | _, _ => none

end Layered

end SpecFence
