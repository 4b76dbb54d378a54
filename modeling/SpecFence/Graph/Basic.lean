import SpecFence.Ordered.AscMap
import SpecFence.Weight

/-!
# Weighted directed graphs

A directed graph is read through its size, the weight of a pair of nodes, and the successors and
predecessors of a node.  A weight of zero means that the edge is absent.  `Digraph.Consistent` says
when the three adjacency readings describe one edge map.
-/

set_option autoImplicit false

namespace SpecFence

open Std

abbrev Node := Nat

abbrev NodeSet := AscSet Node

namespace Node

def display (v : Node) : String := s!"n{v}"

end Node

structure Edge where
  src : Node
  dst : Node
deriving DecidableEq, Repr, Inhabited

namespace Edge

instance : Ord Edge := ⟨compareLex (compareOn src) (compareOn dst)⟩

instance : TransOrd Edge := inferInstanceAs (TransCmp (compareLex _ _))

theorem compare_eq (a b : Edge) :
    compare a b = (compare a.src b.src).then (compare a.dst b.dst) := rfl

instance : LawfulEqOrd Edge where
  compare_self := by simp
  eq_of_compare {a b} h := by
    rw [compare_eq, Ordering.then_eq_eq] at h
    cases a
    cases b
    simp only [Edge.mk.injEq]
    exact ⟨LawfulEqOrd.eq_of_compare h.1, LawfulEqOrd.eq_of_compare h.2⟩

def display (e : Edge) : String := e.src.display ++ " -> " ++ e.dst.display

end Edge

/-- A finite directed graph with weighted edges, read through four queries. -/
structure Digraph where
  size : Nat
  /-- The weight of the edge between two nodes, zero if there is none. -/
  weight : Node → Node → Nat
  succs : Node → List (Node × Nat)
  preds : Node → List (Node × Nat)

namespace Digraph

def edges (g : Digraph) : List (Edge × Nat) :=
  (List.range g.size).flatMap fun u => (g.succs u).map fun (v, w) => (⟨u, v⟩, w)

def next (g : Digraph) (u : Node) : List Node := (g.succs u).map Prod.fst

def prior (g : Digraph) (v : Node) : List Node := (g.preds v).map Prod.fst

/-- The three adjacency readings describe one map from node pairs to weights: a pair is listed as
successor and as predecessor exactly with its positive weight, listings are strictly ascending, and
edges join nodes of the graph. -/
structure Consistent (g : Digraph) : Prop where
  mem_succs : ∀ u v w, (v, w) ∈ g.succs u ↔ 0 < w ∧ g.weight u v = w
  mem_preds : ∀ u v w, (u, w) ∈ g.preds v ↔ 0 < w ∧ g.weight u v = w
  succs_ascending : ∀ u, Ascending (g.next u)
  preds_ascending : ∀ v, Ascending (g.prior v)
  src_lt : ∀ u v, 0 < g.weight u v → u < g.size
  dst_lt : ∀ u v, 0 < g.weight u v → v < g.size

theorem mem_edges {g : Digraph} {u v : Node} {w : Nat} :
    (⟨u, v⟩, w) ∈ g.edges ↔ u < g.size ∧ (v, w) ∈ g.succs u := by
  simp only [edges, List.mem_flatMap, List.mem_range, List.mem_map]
  constructor
  · rintro ⟨a, ha, ⟨b, c⟩, hb, he⟩
    cases he
    exact ⟨ha, hb⟩
  · rintro ⟨hu, hv⟩
    exact ⟨u, hu, (v, w), hv, rfl⟩

end Digraph

end SpecFence
