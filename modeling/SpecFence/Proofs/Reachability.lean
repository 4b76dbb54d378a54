import Mathlib.Data.List.Permutation
import SpecFence.Proofs.Layered
import SpecFence.Proofs.Scoped
import SpecFence.Proofs.Traversal

/-!
# What can be reached

On a graph whose queries agree, the traversal along the edges and the one against them mark exactly
what paths lead to, and decide the same paths.  So a node is reached from another one exactly when
the other one reaches it.
-/

set_option autoImplicit false

namespace SpecFence

open Relation

namespace Digraph

variable {g : Digraph}

/-- The graphs that are read off tables of edges, with the edges of a run of operations, and those
that are made of such graphs by overlays and by layering. -/
inductive Composed : Digraph → Prop
  | base (n : Nat) {ops : List GraphOp} (hops : GraphOp.InRange n ops) :
      Composed (TwoWayGraph.built n ops).digraph
  | overlay {g : Digraph} {ops : List OverlayOp} (hg : Composed g)
      (hops : ∀ op ∈ ops, op.InRange g.size) : Composed (ScopedGraph.layer g ops)
  | layered {g : Digraph} {stages : List NodeSet} {l : Layered} (hg : Composed g)
      (hstages : ∀ s ∈ stages, ∀ v ∈ s, v < g.size) (hl : Layered.along? g stages = some l) :
      Composed l.digraph

theorem Composed.consistent (h : Composed g) : g.Consistent := by
  induction h with
  | base n hops =>
    rw [TwoWayGraph.digraph_built n hops]
    exact EdgeMap.digraph_consistent _
  | overlay _ hops ih =>
    obtain ⟨m, rfl⟩ := ih.exists_edgeMap
    rw [ScopedGraph.layer_digraph m hops]
    exact EdgeMap.digraph_consistent _
  | @layered g stages l _ hstages hl ih =>
    have hlong : 2 ≤ stages.length := by
      unfold Layered.along? at hl
      split at hl
      · split at hl
        · rename_i h
          exact h.1
        · cases hl
      · cases hl
    rw [along?_eq_some hlong hstages] at hl
    cases hl
    exact Layered.digraph_consistent (layered_wellFormed ih hlong hstages)

theorem reflTransGen_next (hg : g.Consistent) :
    ReflTransGen (Search.Step g.next g.size) = ReflTransGen g.Joins :=
  congrArg _ (funext₂ fun _ _ => propext (step_next_iff hg))

theorem reflTransGen_prior (hg : g.Consistent) :
    ReflTransGen (Search.Step g.prior g.size) = fun e v => ReflTransGen g.Joins v e := by
  have hstep : Search.Step g.prior g.size = Function.swap g.Joins :=
    funext₂ fun _ _ => propext (step_prior_iff hg)
  rw [hstep]
  exact funext₂ fun _ _ => propext reflTransGen_swap

/-- Base graphs, overlays and layered graphs, made of each other in whatever way, have queries that
agree.  On every graph whose queries agree, the search from a list of nodes ends, takes a turn for
each node that it marks, and marks exactly the nodes that paths lead to from the list; the search
against the edges marks exactly the nodes from which paths lead to the list.  So a node is reached
from another one exactly when that one reaches it. -/
theorem searches_exact :
    (∀ g, Composed g → g.Consistent) ∧
    ∀ g : Digraph, g.Consistent →
      (∀ starts : List Node, (∀ s ∈ starts, s < g.size) →
        g.traverseFrom starts = g.reachableFrom starts ∧
        Search.Exact g.next g.size (ReflTransGen g.Joins) starts (g.reachableFrom starts)) ∧
      (∀ ends : List Node, (∀ e ∈ ends, e < g.size) →
        g.traverseTo ends = g.reaching ends ∧
        Search.Exact g.prior g.size (fun e v => ReflTransGen g.Joins v e) ends
          (g.reaching ends)) ∧
      ∀ u < g.size, ∀ v < g.size,
        (g.reachableFrom [u]).has v = true ↔ (g.reaching [v]).has u = true := by
  refine ⟨fun g => Composed.consistent, fun g hg => ⟨fun starts hstarts => ⟨?_, ?_⟩,
    fun ends hends => ⟨?_, ?_⟩, fun u hu v hv => ?_⟩⟩
  · exact Search.finish_start_eq_spread g.next g.size starts
  · rw [← reflTransGen_next hg]
    exact Search.exact_spread hstarts
  · exact Search.finish_start_eq_spread g.prior g.size ends
  · rw [← reflTransGen_prior hg]
    exact Search.exact_spread hends
  · rw [has_reachableFrom hg, has_reaching hg]
    simp [hu, hv]

def ringOps : List GraphOp := [.put ⟨0, 1⟩ 2, .put ⟨1, 2⟩ 3, .put ⟨2, 0⟩ 1]

def brokenRing : Digraph :=
  ScopedGraph.layer (TwoWayGraph.built 3 ringOps).digraph [.put ⟨2, 0⟩ 0, .put ⟨1, 0⟩ 4]

def ringLayers : Layered := ⟨brokenRing, [.singleton 0, .singleton 1, .singleton 0]⟩

/-- The super source, node 6, leads to the super sink, node 7, and is found from there; copy 1 of
node 2 leads nowhere. -/
theorem searches_ringLayers :
    Composed ringLayers.digraph ∧
      (ringLayers.digraph.traverseTo [7]).has 6 = true ∧
      ReflTransGen ringLayers.digraph.Joins 6 7 ∧ ¬ ReflTransGen ringLayers.digraph.Joins 5 7 := by
  obtain ⟨hcomposed, hsearches⟩ := searches_exact
  have hring : Composed brokenRing := .overlay (.base 3 (by decide)) (by decide)
  have hlong : 2 ≤ ringLayers.stages.length := by decide
  have hstages : ∀ s ∈ ringLayers.stages, ∀ v ∈ s, v < brokenRing.size := by decide
  have hlayers : Composed ringLayers.digraph :=
    .layered hring hstages (along?_eq_some hlong hstages)
  obtain ⟨hfrom, hto, hdual⟩ := hsearches _ (hcomposed _ hlayers)
  have hforth : (ringLayers.digraph.reachableFrom [6]).has 7 = true := by cbv
  have hnowhere : (ringLayers.digraph.reachableFrom [5]).has 7 = false := by cbv
  refine ⟨hlayers, ?_, ?_, fun hpath => ?_⟩
  · rw [(hto [7] (by decide)).1]
    exact (hdual 6 (by decide) 7 (by decide)).mp hforth
  · obtain ⟨s, hs, hpath⟩ := ((hfrom [6] (by decide)).2.has_iff 7).mp hforth
    rwa [List.mem_singleton.mp hs] at hpath
  · have hfound := ((hfrom [5] (by decide)).2.has_iff 7).mpr ⟨5, List.mem_singleton.mpr rfl, hpath⟩
    rw [hnowhere] at hfound
    cases hfound

end Digraph

end SpecFence
