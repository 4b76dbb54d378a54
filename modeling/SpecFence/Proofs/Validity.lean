import Mathlib
import SpecFence.Proofs.Exact
import SpecFence.Proofs.Received

/-!
# Valid cuts

There are three ways to ask whether edges separate all groups: to search for a walk that avoids
them, to spread labels, and to narrow the stages of each group on the graph without the edges.  The
first two ask about the collapsed groups over relevant edges, the last about the groups as they are
over all edges.  They agree, and the weight of a set of edge numbers is the weight of the edges.
-/

set_option autoImplicit false

namespace SpecFence

open Relation

namespace WaypointGroup

variable {graph : Digraph}

theorem exists_threads_of_narrowFrom (hg : graph.Consistent) {frontier : NodeSet}
    {stages narrowed : List NodeSet} (h : narrowFrom graph frontier stages = some narrowed) :
    ∃ u ∈ frontier, Threads graph.Joins (· ∈ ·) u stages := by
  induction stages generalizing frontier narrowed with
  | nil =>
    rw [narrowFrom] at h
    split at h
    · cases h
    · rename_i hempty
      have hsome : ¬ ∀ u, u ∉ frontier := fun hnone => hempty (AscSet.isEmpty_iff.mpr hnone)
      obtain ⟨u, hu⟩ := not_forall_not.mp hsome
      exact ⟨u, hu, trivial⟩
  | cons next rest ih =>
    rw [narrowFrom] at h
    split at h
    · cases h
    · obtain ⟨inner, hinner, -⟩ := Option.map_eq_some_iff.mp h
      obtain ⟨v, hv, hthreads⟩ := ih hinner
      obtain ⟨hnext, hreached⟩ := AscSet.mem_filter.mp hv
      obtain ⟨u, hu, -, huv⟩ := (Digraph.has_reachableFrom hg).mp hreached
      exact ⟨u, hu, v, huv, hnext, hthreads⟩

theorem narrow?_eq_none_iff (hg : graph.Consistent) {g : WaypointGroup}
    (hwell : g.WellPosed graph.size) : g.narrow? graph = none ↔ ¬ g.Satisfiable graph.Joins := by
  constructor
  · exact narrow?_none hg hwell
  · intro hnot
    cases hnarrow : g.narrow? graph with
    | none => rfl
    | some narrowed =>
      unfold narrow? at hnarrow
      split at hnarrow
      · rename_i first next rest hstages
        obtain ⟨u, hu, hthreads⟩ := exists_threads_of_narrowFrom hg hnarrow
        exact absurd ⟨first, next :: rest, u, hstages, (AscSet.mem_filter.mp hu).1, hthreads⟩ hnot
      · cases hnarrow

end WaypointGroup

variable {graph : Digraph} {groups : List WaypointGroup}

theorem Overlay.base_without (graph : Digraph) (cut : List Edge) :
    (Overlay.without graph cut).base = graph :=
  (foldl_remove cut (onto graph) (inBounds_onto graph)).2.1

theorem Overlay.joins_without_iff (graph : Digraph) (cut : List Edge) (u v : Node) :
    (Overlay.without graph cut).digraph.Joins u v ↔ graph.Uncut (· ∈ cut) u v := by
  change 0 < (Overlay.without graph cut).weight u v ↔ _
  rw [weight_without]
  unfold Digraph.Uncut Digraph.Joins
  by_cases hcut : (⟨u, v⟩ : Edge) ∈ cut
  · simp [hcut]
  · simp [hcut]

theorem separatesAll_iff (hg : graph.Consistent) (hgroups : ∀ g ∈ groups, g.WellPosed graph.size)
    {cut : List Edge} :
    separatesAll graph cut groups = true ↔
      ∀ g ∈ groups, ¬ g.Satisfiable (graph.Uncut (· ∈ cut)) := by
  have hsize : (Overlay.without graph cut).digraph.size = graph.size := by
    change (Overlay.without graph cut).base.size = graph.size
    rw [Overlay.base_without]
  have hjoins : (Overlay.without graph cut).digraph.Joins = graph.Uncut (· ∈ cut) := by
    funext u v
    exact propext (Overlay.joins_without_iff graph cut u v)
  unfold separatesAll
  rw [List.all_eq_true]
  refine forall₂_congr fun g hmem => ?_
  rw [Option.isNone_iff_eq_none, ← hjoins]
  refine WaypointGroup.narrow?_eq_none_iff (Overlay.without_consistent hg cut) ?_
  rw [hsize]
  exact hgroups g hmem

namespace Weight

theorem sum_eq (ws : List Nat) : sum ws = ws.sum := by
  induction ws with
  | nil => rfl
  | cons w ws ih => rw [sum, ih, List.sum_cons]

theorem total_eq_of_perm {ws xs : List Nat} (h : ws.Perm xs) : total ws = total xs := by
  rw [total_eq, total_eq, sum_eq, sum_eq, h.sum_eq]

end Weight

namespace LabelProblem

theorem mem_ofIndices_iff (hg : graph.Consistent) (hgroups : ∀ g ∈ groups, g.WellPosed graph.size)
    {cut : Cut} {i : Nat} :
    i ∈ (AscSet.ofList (cut.toList.filterMap (encode graph groups).edgeIndex?) : EdgeSet) ↔
      ∃ e ∈ cut, ∃ w, (encode graph groups).edges[i]? = some (e, w) := by
  have hp := encode_wellFormed hg hgroups
  rw [AscSet.mem_ofList, List.mem_filterMap]
  constructor
  · rintro ⟨e, he, hindex⟩
    have hsrc : e.src < (encode graph groups).size := by
      by_contra hout
      have hnone : (encode graph groups).outgoing e.src = [] := by
        unfold outgoing
        rw [Array.getElem?_eq_none]
        · rfl
        · simpa [encode] using hout
      unfold edgeIndex? at hindex
      rw [hnone] at hindex
      cases hindex
    exact ⟨e, he, (edgeIndex?_eq_some_iff hp hsrc).mp hindex⟩
  · rintro ⟨e, he, w, hedge⟩
    exact ⟨e, he, (edgeIndex?_eq_some_iff hp (hp.bound i e w hedge).1).mpr ⟨w, hedge⟩⟩

/-- The edges that have numbers in the problem make a valid set exactly when all the edges leave no
walk for the groups. -/
theorem separates_ofIndices_iff (hg : graph.Consistent)
    (hgroups : ∀ g ∈ groups, g.WellPosed graph.size) {cut : Cut} :
    (∀ c ∈ collapse groups, ¬ c.Satisfiable ((encode graph groups).Passable
        (.ofList (cut.toList.filterMap (encode graph groups).edgeIndex?)))) ↔
      ∀ g ∈ groups, ¬ g.Satisfiable (graph.Uncut (· ∈ cut)) := by
  constructor
  · intro hvalid g hmem hsatisfiable
    refine (separates_iff hg hgroups).mp hvalid g hmem (hsatisfiable.mono ?_)
    rintro u v ⟨hjoin, hfree⟩
    refine ⟨hjoin, fun hcut => ?_⟩
    obtain ⟨i, hi, w, hedge⟩ := mem_cutEdges.mp hcut
    obtain ⟨e, he, x, hedge'⟩ := (mem_ofIndices_iff hg hgroups).mp hi
    rw [hedge] at hedge'
    cases hedge'
    exact hfree he
  · intro hseparated c hc hsatisfiable
    obtain ⟨g, hmem, horiginal⟩ := (exists_satisfiable_collapse hgroups).mp ⟨c, hc, hsatisfiable⟩
    refine hseparated g hmem (horiginal.mono fun u v huv => ?_)
    refine ⟨(uncut_of_passable hg hgroups huv).1, fun hcut => ?_⟩
    obtain ⟨i, w, hedge, hfree⟩ := huv
    exact hfree ((mem_ofIndices_iff hg hgroups).mpr ⟨⟨u, v⟩, hcut, w, hedge⟩)

theorem nodup_filterMap_edges {p : LabelProblem} (h : p.WellFormed) {cut : EdgeSet} :
    (cut.toList.filterMap fun i => p.edges[i]?.map Prod.fst).Nodup := by
  refine List.Nodup.filterMap ?_ (Digraph.nodup_of_ascending cut.ascending)
  intro i j e hi hj
  rw [Option.mem_def] at hi hj
  obtain ⟨⟨x, w⟩, hedge, rfl⟩ := Option.map_eq_some_iff.mp hi
  obtain ⟨⟨y, w'⟩, hedge', hsame⟩ := Option.map_eq_some_iff.mp hj
  cases hsame
  have hsrc := (h.bound i x w hedge).1
  have hi' := (edgeIndex?_eq_some_iff h hsrc).mpr ⟨w, hedge⟩
  have hj' := (edgeIndex?_eq_some_iff h hsrc).mpr ⟨w', hedge'⟩
  exact Option.some_inj.mp (hi'.symm.trans hj')

theorem weight_eq_cutWeight (hg : graph.Consistent) (hgroups : ∀ g ∈ groups, g.WellPosed graph.size)
    (cut : EdgeSet) :
    (encode graph groups).weight cut =
      cutWeight graph ((encode graph groups).cutEdges cut).toList := by
  have hp := encode_wellFormed hg hgroups
  have hperm : ((encode graph groups).cutEdges cut).toList.Perm
      (cut.toList.filterMap fun i => (encode graph groups).edges[i]?.map Prod.fst) := by
    exact (List.perm_ext_iff_of_nodup (AscSet.nodup_toList _) (nodup_filterMap_edges hp)).mpr
      fun e => AscSet.mem_ofList
  have hsum : ∀ is : List Nat,
      ((is.filterMap fun i => (encode graph groups).edges[i]?.map Prod.fst).map
        fun e => graph.weight e.src e.dst).sum = (is.map (encode graph groups).edgeWeight).sum := by
    intro is
    induction is with
    | nil => rfl
    | cons i is ih =>
      rw [List.map_cons, List.sum_cons, ← ih]
      cases hedge : (encode graph groups).edges[i]? with
      | none =>
        have hzero : (encode graph groups).edgeWeight i = 0 := by
          unfold edgeWeight
          rw [hedge]
          rfl
        rw [List.filterMap_cons, hedge, hzero, Nat.zero_add]
        rfl
      | some x =>
        obtain ⟨e, w⟩ := x
        rw [List.filterMap_cons, hedge, edgeWeight_eq hedge]
        simp only [Option.map_some, List.map_cons, List.sum_cons]
        rw [(weight_of_encode hg hedge).2]
  unfold weight cutWeight
  rw [Weight.total_eq_of_perm (hperm.map _), Weight.total_eq, Weight.total_eq, Weight.sum_eq,
    Weight.sum_eq, hsum]

/-- Searching for a walk, spreading labels and narrowing stages on the graph agree on which sets of
edge numbers are valid, whose weight is that of their edges; and any set of edges of the graph
separates the groups exactly when those of its edges that have numbers are a valid set. -/
theorem validity_agrees (graph : Digraph) (hg : graph.Consistent) (groups : List WaypointGroup)
    (hgroups : ∀ g ∈ groups, g.fault? graph.size = none) :
    (∀ cut : EdgeSet,
      ((encode graph groups).witness? cut = none ↔ (encode graph groups).isValid cut = true) ∧
      ((encode graph groups).isValid cut = true ↔
        separatesAll graph ((encode graph groups).cutEdges cut).toList groups = true) ∧
      (encode graph groups).weight cut =
        cutWeight graph ((encode graph groups).cutEdges cut).toList) ∧
    ∀ cut : Cut, separatesAll graph cut.toList groups = true ↔
      (encode graph groups).isValid
        (.ofList (cut.toList.filterMap (encode graph groups).edgeIndex?)) = true := by
  have hwell : ∀ g ∈ groups, g.WellPosed graph.size := fun g hmem =>
    WaypointGroup.wellPosed_of_fault? (hgroups g hmem)
  have hp := encode_wellFormed hg hwell
  refine ⟨fun cut => ⟨?_, ?_, weight_eq_cutWeight hg hwell cut⟩, fun cut => ?_⟩
  · rw [witness?_eq_none_iff hp, isValid_iff hp]
  · rw [isValid_iff hp, separatesAll_iff hg hwell]
    exact separates_iff hg hwell
  · rw [isValid_iff hp, separatesAll_iff hg hwell]
    exact (separates_ofIndices_iff hg hwell).symm

def sharedBottleneck : WeightedGraph :=
  (WeightedGraph.withNodes 6).putAll
    [(⟨0, 2⟩, 2), (⟨1, 2⟩, 2), (⟨2, 3⟩, 3), (⟨3, 4⟩, 2), (⟨3, 5⟩, 2)]

def bottleneckGroups : List WaypointGroup :=
  [⟨[.singleton 0, .singleton 4]⟩, ⟨[.singleton 0, .singleton 5]⟩, ⟨[.singleton 1, .singleton 4]⟩]

/-- The shared edge has number 2 and separates all three groups. -/
theorem validity_sharedBottleneck :
    (encode sharedBottleneck.digraph bottleneckGroups).witness? (.singleton 2) = none ∧
      separatesAll sharedBottleneck.digraph [⟨2, 3⟩] bottleneckGroups = true ∧
      separatesAll sharedBottleneck.digraph [⟨0, 2⟩] bottleneckGroups ≠ true := by
  have hgroups : ∀ g ∈ bottleneckGroups, g.fault? sharedBottleneck.digraph.size = none := by
    decide +kernel
  obtain ⟨hsets, hcuts⟩ := validity_agrees sharedBottleneck.digraph
    sharedBottleneck.digraph_consistent bottleneckGroups hgroups
  obtain ⟨hwitness, hnarrowed, -⟩ := hsets (.singleton 2)
  have hvalid :
      (encode sharedBottleneck.digraph bottleneckGroups).isValid (.singleton 2) = true := by
    cbv
  have hinvalid : (encode sharedBottleneck.digraph bottleneckGroups).isValid
      (.ofList ((AscSet.singleton ⟨0, 2⟩ : Cut).toList.filterMap
        (encode sharedBottleneck.digraph bottleneckGroups).edgeIndex?)) = false := by
    cbv
  refine ⟨hwitness.mpr hvalid, ?_, fun hall => ?_⟩
  · have hedges : (encode sharedBottleneck.digraph bottleneckGroups).cutEdges (.singleton 2) =
        .singleton ⟨2, 3⟩ := by
      cbv
    have hseparated := hnarrowed.mp hvalid
    rwa [hedges] at hseparated
  · have hother := (hcuts (.singleton ⟨0, 2⟩)).mp hall
    rw [hinvalid] at hother
    cases hother

end LabelProblem

end SpecFence
