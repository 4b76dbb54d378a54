import Mathlib.Data.List.Nodup
import Mathlib.Tactic.Common
import SpecFence.Graph.Weighted

/-!
# Adjacency

A consistent graph is known by its size and its weights: they determine the lists of successors and
predecessors and the list of edges, and a plain copy of the graph reads like the graph.
-/

set_option autoImplicit false

namespace SpecFence

theorem AscMap.ext_mem {κ ν : Type} [Ord κ] [Std.LawfulEqOrd κ] [Std.TransOrd κ] {s t : AscMap κ ν}
    (h : ∀ k v, (k, v) ∈ s.toList ↔ (k, v) ∈ t.toList) : s = t := by
  refine AscMap.ext_get? fun k => Option.ext fun v => ?_
  rw [← AscMap.mem_toList_iff, ← AscMap.mem_toList_iff, h]

namespace Digraph

variable {g g' : Digraph}

theorem nodup_of_ascending {κ : Type} [Ord κ] [Std.ReflOrd κ] {l : List κ} (h : Ascending l) :
    l.Nodup := by
  refine h.imp ?_
  intro a b hlt hab
  rw [hab, Std.ReflOrd.compare_self] at hlt
  cases hlt

theorem mem_edges_iff (hg : g.Consistent) {u v : Node} {w : Nat} :
    ((⟨u, v⟩ : Edge), w) ∈ g.edges ↔ 0 < w ∧ g.weight u v = w := by
  rw [mem_edges, hg.mem_succs]
  constructor
  · intro h
    exact h.2
  · rintro ⟨hpos, hw⟩
    exact ⟨hg.src_lt u v (by omega), hpos, hw⟩

theorem bounds_of_mem_edges (hg : g.Consistent) {x : Edge × Nat} (hx : x ∈ g.edges) :
    x.1.src < g.size ∧ x.1.dst < g.size := by
  obtain ⟨hpos, hw⟩ := (mem_edges_iff hg).mp hx
  rw [← hw] at hpos
  exact ⟨hg.src_lt _ _ hpos, hg.dst_lt _ _ hpos⟩

theorem ascending_edges (hg : g.Consistent) : Ascending (g.edges.map Prod.fst) := by
  have hlist : g.edges.map Prod.fst =
      (List.range g.size).flatMap fun u => (g.next u).map fun v => (⟨u, v⟩ : Edge) := by
    simp only [edges, next, List.map_flatMap, List.map_map]
    rfl
  rw [hlist, Ascending, List.pairwise_flatMap]
  constructor
  · intro u _
    rw [List.pairwise_map]
    refine (hg.succs_ascending u).imp fun hvw => ?_
    simp [Edge.compare_eq, hvw]
  · refine (WeightedGraph.ascending_range g.size).imp fun huv e he e' he' => ?_
    obtain ⟨x, -, rfl⟩ := List.mem_map.mp he
    obtain ⟨y, -, rfl⟩ := List.mem_map.mp he'
    simp [Edge.compare_eq, huv]

theorem nodup_edges (hg : g.Consistent) : (g.edges.map Prod.fst).Nodup :=
  nodup_of_ascending (ascending_edges hg)

theorem Consistent.ext (hg : g.Consistent) (hg' : g'.Consistent) (hsize : g.size = g'.size)
    (hweight : ∀ u v, g.weight u v = g'.weight u v) : g = g' := by
  have hsuccs : g.succs = g'.succs := by
    funext u
    refine congrArg AscMap.toList (AscMap.ext_mem (s := ⟨g.succs u, hg.succs_ascending u⟩)
      (t := ⟨g'.succs u, hg'.succs_ascending u⟩) fun v w => ?_)
    rw [hg.mem_succs, hg'.mem_succs, hweight]
  have hpreds : g.preds = g'.preds := by
    funext v
    refine congrArg AscMap.toList (AscMap.ext_mem (s := ⟨g.preds v, hg.preds_ascending v⟩)
      (t := ⟨g'.preds v, hg'.preds_ascending v⟩) fun u w => ?_)
    rw [hg.mem_preds, hg'.mem_preds, hweight]
  cases g
  cases g'
  simp only [mk.injEq]
  exact ⟨hsize, funext₂ hweight, hsuccs, hpreds⟩

end Digraph

namespace WeightedGraph

theorem weight_putAll {r : WeightedGraph} {edges : List (Edge × Nat)}
    (hnodup : (edges.map Prod.fst).Nodup)
    (hbound : ∀ x ∈ edges, x.1.src < r.size ∧ x.1.dst < r.size) (u v : Node) :
    (∀ w, (⟨u, v⟩, w) ∈ edges → (r.putAll edges).weight u v = w) ∧
      ((⟨u, v⟩ : Edge) ∉ edges.map Prod.fst → (r.putAll edges).weight u v = r.weight u v) := by
  induction edges generalizing r with
  | nil => exact ⟨fun w hw => absurd hw List.not_mem_nil, fun _ => rfl⟩
  | cons x edges ih =>
    obtain ⟨e, w⟩ := x
    obtain ⟨hsrc, hdst⟩ := hbound (e, w) List.mem_cons_self
    rw [List.map_cons, List.nodup_cons] at hnodup
    have hrest : ∀ x ∈ edges, x.1.src < (r.put e.src e.dst w).size ∧
        x.1.dst < (r.put e.src e.dst w).size := by
      intro x hx
      rw [size_put]
      exact hbound x (List.mem_cons_of_mem _ hx)
    obtain ⟨hwritten, hkept⟩ := ih hnodup.2 hrest
    have hput := weight_put (w := w) hsrc hdst u v
    change (∀ x, _ → ((r.put e.src e.dst w).putAll edges).weight u v = x) ∧
      (_ → ((r.put e.src e.dst w).putAll edges).weight u v = r.weight u v)
    constructor
    · intro x hx
      rcases List.mem_cons.mp hx with heq | hx
      · obtain ⟨rfl, rfl⟩ := Prod.mk.inj heq
        rw [hkept hnodup.1, hput]
        exact if_pos ⟨rfl, rfl⟩
      · exact hwritten x hx
    · intro hout
      rw [List.map_cons, List.mem_cons, not_or] at hout
      rw [hkept hout.2, hput, if_neg]
      rintro ⟨rfl, rfl⟩
      exact hout.1 rfl

theorem size_putAll (r : WeightedGraph) (edges : List (Edge × Nat)) :
    (r.putAll edges).size = r.size := by
  induction edges generalizing r with
  | nil => rfl
  | cons x edges ih => exact (ih _).trans (size_put r _ _ _)

theorem digraph_ofDigraph {g : Digraph} (hg : g.Consistent) : (ofDigraph g).digraph = g := by
  refine (digraph_consistent _).ext hg ((size_putAll _ _).trans (size_withNodes _)) fun u v => ?_
  have hbound : ∀ x ∈ g.edges, x.1.src < (withNodes g.size).size ∧
      x.1.dst < (withNodes g.size).size := by
    rw [size_withNodes]
    exact fun x hx => Digraph.bounds_of_mem_edges hg hx
  obtain ⟨hwritten, hkept⟩ := weight_putAll (Digraph.nodup_edges hg) hbound u v
  change ((withNodes g.size).putAll g.edges).weight u v = g.weight u v
  rcases Nat.eq_zero_or_pos (g.weight u v) with hzero | hpos
  · rw [hkept, weight_withNodes, hzero]
    intro hmem
    obtain ⟨⟨e, w⟩, hedge, rfl⟩ := List.mem_map.mp hmem
    obtain ⟨hw, hweight⟩ := (Digraph.mem_edges_iff hg).mp hedge
    omega
  · exact hwritten _ ((Digraph.mem_edges_iff hg).mpr ⟨hpos, rfl⟩)

end WeightedGraph

end SpecFence
