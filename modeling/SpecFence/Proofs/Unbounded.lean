import SpecFence.Proofs.GroupCut
import SpecFence.Proofs.Separation

/-!
# Groups that no finite edges separate

As long as the capacities of a flow problem do not exceed the largest weight, an infinite edge takes
more than all finite edges together.  Then the minimum cut has an infinite edge only when infinite
edges alone lead from the source to the sink, so a group is left without a cut exactly when a walk
over infinite edges satisfies it.  Taking finite edges away changes nothing about that.
-/

set_option autoImplicit false

namespace SpecFence

open Relation

/-- An edge of infinite weight leads from one node to the other. -/
def Digraph.Infinite (g : Digraph) (u v : Node) : Prop := Weight.infinite ≤ g.weight u v

theorem Digraph.Infinite.joins {g : Digraph} {u v : Node} (h : g.Infinite u v) : g.Joins u v :=
  Nat.lt_of_lt_of_le Layered.infinite_pos h

section Walks

variable {R : Node → Node → Prop} {group : WaypointGroup}

theorem Threads.exists_walk {u : Node} {stages : List NodeSet}
    (h : Threads R (· ∈ ·) u stages) :
    ∃ walk places, walk[0]? = some u ∧ walk.IsChain R ∧ VisitsAt (· ∈ ·) walk places stages := by
  induction stages generalizing u with
  | nil => exact ⟨[u], [], rfl, List.isChain_singleton u, List.Pairwise.nil, .nil⟩
  | cons s rest ih =>
    obtain ⟨v, huv, hv, hrest⟩ := h
    obtain ⟨walk, places, hstart, hchain, hordered, hvisits⟩ := ih hrest
    have hhere : VisitsAt (· ∈ ·) walk (0 :: places) (s :: rest) :=
      ⟨List.pairwise_cons.mpr ⟨fun p _ => Nat.zero_le p, hordered⟩, .cons ⟨v, hstart, hv⟩ hvisits⟩
    clear ih hrest hvisits hordered hv
    generalize (0 :: places) = places at hhere
    induction huv using ReflTransGen.head_induction_on generalizing walk places with
    | refl => exact ⟨walk, places, hstart, hchain, hhere⟩
    | @head a b hab _ ih =>
      obtain ⟨walk, places, hstart, hchain, hordered, hvisits⟩ := ih walk hstart hchain places hhere
      refine ⟨a :: walk, places.map (· + 1), rfl, ?_, ?_, ?_⟩
      · refine List.isChain_cons.mpr ⟨fun b' hb' => ?_, hchain⟩
        rw [List.head?_eq_getElem?, hstart] at hb'
        cases hb'
        exact hab
      · exact List.pairwise_map.mpr (hordered.imp Nat.succ_le_succ)
      · exact List.forall₂_map_left_iff.mpr hvisits

theorem satisfiable_iff_walk (hstages : group.stages ≠ []) :
    group.Satisfiable R ↔ ∃ walk : List Node, walk.IsChain R ∧ group.VisitedBy walk := by
  constructor
  · rintro ⟨first, rest, u, hgroup, hu, hrest⟩
    obtain ⟨walk, places, hstart, hchain, hordered, hvisits⟩ := hrest.exists_walk
    refine ⟨walk, hchain, 0 :: places, ?_⟩
    rw [hgroup]
    exact ⟨List.pairwise_cons.mpr ⟨fun p _ => Nat.zero_le p, hordered⟩,
      .cons ⟨u, hstart, hu⟩ hvisits⟩
  · rintro ⟨walk, hchain, places, hvisits⟩
    exact threaded_of_visitsAt hstages hchain hvisits

end Walks

section MinCut

open SpecFence.Flow

variable {g : Digraph} {source sink : Node}

theorem exists_infinite_crossing (hg : g.Consistent) (hne : source ≠ sink)
    (hsource : source < g.size) (h : ReflTransGen g.Infinite source sink) :
    ∃ e, Crosses g source sink e ∧ g.Infinite e.src e.dst := by
  have hleast := side_leastCut hg hne hsource
  obtain ⟨a, b, hab, ha, hb⟩ := exists_leaving (· ∈ side g source sink) h hleast.source_mem
    hleast.sink_not_mem
  exact ⟨⟨a, b⟩, ⟨hab.joins, ha, hb⟩, hab⟩

/-- When the finite weights stay below the largest weight, an infinite edge crosses the source side
only if infinite edges lead to the sink. -/
theorem reach_of_infinite_crossing (hg : g.Consistent) (hne : source ≠ sink)
    (hsource : source < g.size) (hfits : finiteSum g < Weight.limit) {e : Edge}
    (he : Crosses g source sink e) (hinfinite : g.Infinite e.src e.dst) :
    ReflTransGen g.Infinite source sink := by
  classical
  by_contra hstuck
  have hleast := side_leastCut hg hne hsource
  let T := (Finset.range g.size).filter fun v => ReflTransGen g.Infinite source v
  have hT : ∀ v, v ∈ T ↔ v < g.size ∧ ReflTransGen g.Infinite source v := by
    intro v
    rw [Finset.mem_filter, Finset.mem_range]
  have hfinite : ∀ x ∈ T ×ˢ (Finset.range g.size \ T), g.weight x.1 x.2 < Weight.infinite := by
    intro x hx
    obtain ⟨ha, hb⟩ := Finset.mem_product.mp hx
    obtain ⟨hlt, hb⟩ := Finset.mem_sdiff.mp hb
    by_contra hle
    refine hb ((hT x.2).mpr ⟨Finset.mem_range.mp hlt, ((hT x.1).mp ha).2.tail ?_⟩)
    exact Nat.le_of_not_lt hle
  have hmem : (e.src, e.dst) ∈ side g source sink ×ˢ (Finset.range g.size \ side g source sink) :=
    Finset.mem_product.mpr ⟨he.2.1, Finset.mem_sdiff.mpr
      ⟨Finset.mem_range.mpr (hg.dst_lt _ _ he.1), he.2.2⟩⟩
  have hchain : infiniteCapacity g ≤ finiteSum g :=
    calc infiniteCapacity g
        = capacity g e.src e.dst := (capacity_of_infinite hinfinite).symm
      _ ≤ crossing (capacity g) g.size (side g source sink) :=
          Finset.single_le_sum (f := fun x : Node × Node => capacity g x.1 x.2)
            (fun _ _ => Nat.zero_le _) hmem
      _ ≤ crossing (capacity g) g.size T :=
          hleast.le T (Finset.filter_subset _ _) ((hT source).mpr ⟨hsource, ReflTransGen.refl⟩)
            fun hsink => hstuck ((hT sink).mp hsink).2
      _ = ∑ x ∈ T ×ˢ (Finset.range g.size \ T), g.weight x.1 x.2 :=
          Finset.sum_congr rfl fun x hx => capacity_of_finite (hfinite x hx)
      _ ≤ finiteSum g := sum_finite_le hg hfinite
  rw [infiniteCapacity_eq] at hchain
  omega

end MinCut

section Fitting

def Flow.capacitySum (g : Digraph) : Nat :=
  Weight.sum (g.edges.map fun x => Flow.capacity g x.1.src x.1.dst)

/-- What the capacities of the flow problem of a group on a graph sum to, if there is one. -/
def flowCapacity? (g : Digraph) (group : WaypointGroup) : Option Nat :=
  (group.narrow? g).map fun stages => Flow.capacitySum (⟨g, stages⟩ : Layered).digraph

/-- The capacities do not sum above the largest weight. -/
def FlowFits (g : Digraph) (group : WaypointGroup) : Prop :=
  ∀ n ∈ flowCapacity? g group, n ≤ Weight.limit

theorem sum_filter_finite_le (ws : List Nat) (top : Nat) :
    Weight.sum (ws.filter (· < Weight.infinite)) ≤
      Weight.sum (ws.map fun w => if w < Weight.infinite then w else top) := by
  induction ws with
  | nil => exact Nat.le_refl _
  | cons x ws ih =>
    by_cases hx : x < Weight.infinite
    · rw [List.filter_cons_of_pos (by simpa using hx), List.map_cons, if_pos hx]
      exact Nat.add_le_add_left ih x
    · rw [List.filter_cons_of_neg (by simpa using hx), List.map_cons, if_neg hx]
      exact ih.trans (Nat.le_add_left _ _)

theorem sum_finite_add_le {ws : List Nat} (top : Nat) {w : Nat} (hw : w ∈ ws)
    (hinfinite : Weight.infinite ≤ w) :
    Weight.sum (ws.filter (· < Weight.infinite)) + top ≤
      Weight.sum (ws.map fun w => if w < Weight.infinite then w else top) := by
  induction ws with
  | nil => exact absurd hw List.not_mem_nil
  | cons x ws ih =>
    rcases List.mem_cons.mp hw with rfl | hw
    · have hnot := Nat.not_lt_of_le hinfinite
      rw [List.filter_cons_of_neg (by simpa using hnot), List.map_cons, if_neg hnot]
      have hrest := sum_filter_finite_le ws top
      simp only [Weight.sum]
      omega
    · have hrest := ih hw
      by_cases hx : x < Weight.infinite
      · rw [List.filter_cons_of_pos (by simpa using hx), List.map_cons, if_pos hx]
        simp only [Weight.sum]
        omega
      · rw [List.filter_cons_of_neg (by simpa using hx), List.map_cons, if_neg hx]
        exact hrest.trans (Nat.le_add_left _ _)

theorem capacitySum_eq {g : Digraph} (hg : g.Consistent) :
    Flow.capacitySum g = Weight.sum ((g.edges.map Prod.snd).map fun w =>
      if w < Weight.infinite then w else Flow.infiniteCapacity g) := by
  unfold Flow.capacitySum
  rw [List.map_map]
  refine congrArg Weight.sum (List.map_congr_left fun x hx => ?_)
  unfold Flow.capacity
  rw [((Digraph.mem_edges_iff hg).mp hx).2]
  rfl

theorem finiteSum_le_capacitySum {g : Digraph} (hg : g.Consistent) :
    Flow.finiteSum g ≤ Flow.capacitySum g := by
  rw [capacitySum_eq hg]
  exact sum_filter_finite_le _ _

theorem finiteSum_lt {g : Digraph} (hg : g.Consistent)
    (h : Flow.capacitySum g ≤ Weight.limit) {u v : Node} (huv : g.Infinite u v) :
    Flow.finiteSum g < Weight.limit := by
  have hmem : g.weight u v ∈ g.edges.map Prod.snd :=
    List.mem_map.mpr ⟨(⟨u, v⟩, g.weight u v), (Digraph.mem_edges_iff hg).mpr ⟨huv.joins, rfl⟩, rfl⟩
  have hsum := sum_finite_add_le (Flow.infiniteCapacity g) hmem huv
  have hlimit : 0 < Weight.limit := by decide
  rw [← capacitySum_eq hg, Flow.infiniteCapacity_eq] at hsum
  unfold Flow.finiteSum at hsum ⊢
  omega

end Fitting

section Groups

variable {g : Digraph} {group : WaypointGroup}

theorem lifts_infinite {l : Layered} (hl : l.WellFormed) :
    l.Lifts l.base.Infinite l.digraph.Infinite := by
  have hedge : ∀ a b, l.Joined a b Weight.infinite → l.digraph.Infinite a b := fun a b h =>
    Nat.le_of_eq h.weight.symm
  constructor
  · exact fun u v huv => hl.base.dst_lt u v huv.joins
  · intro c u v hc hu huv
    change Weight.infinite ≤ l.weight _ _
    rw [Layered.weight_within hc hu (hl.base.dst_lt u v huv.joins)]
    exact huv
  · exact fun c u hc hu hmem => hedge _ _ (.up hc hu hmem)
  · exact fun v hmem => hedge _ _ (.enter hl.copies_pos (hl.first v hmem) hmem)
  · exact fun c u hc hu hmem => hedge _ _ (.exit hc hu hmem)

theorem falls_infinite (l : Layered) : l.Falls l.digraph.Infinite l.base.Infinite where
  joins _ _ h := h.joins
  within c u v hc hu hv h := by
    change Weight.infinite ≤ l.weight _ _ at h
    rwa [Layered.weight_within hc hu hv] at h

/-- A group gets a cut unless a walk over infinite edges satisfies it; if so, the flow is
unbounded. -/
theorem minCutGroup_cases (hg : g.Consistent) (hwell : group.WellPosed g.size)
    (hfits : FlowFits g group) :
    (∃ cut, minCutGroup g group false = .ok cut ∧ ¬ group.Satisfiable g.Infinite) ∨
      (minCutGroup g group false = .error .unboundedFlow ∧ group.Satisfiable g.Infinite) := by
  cases hnarrow : group.narrow? g with
  | none =>
    refine Or.inl ⟨_, minCutGroup_of_none hnarrow false, fun hsatisfiable => ?_⟩
    exact WaypointGroup.narrow?_none hg hwell hnarrow (hsatisfiable.mono fun _ _ huv => huv.joins)
  | some stages =>
    obtain ⟨hlong, hbound, hthreads⟩ := WaypointGroup.narrow?_some hg hwell hnarrow
    have hl := layered_wellFormed hg hlong hbound
    have hconsistent := Layered.digraph_consistent hl
    have hsource := source_lt_size (⟨g, stages⟩ : Layered)
    unfold minCutGroup
    rw [hnarrow]
    rcases minCut_cases hconsistent (⟨g, stages⟩ : Layered).source (⟨g, stages⟩ : Layered).sink with
      ⟨flow, hflow, -, hfinite⟩ | ⟨hflow, e, he, hinfinite⟩
    · refine Or.inl ⟨_, Except.bind_eq_ok_iff.mpr ⟨flow, hflow, rfl⟩, fun hsatisfiable => ?_⟩
      have hthreaded := hthreads g.Infinite (fun _ _ => Digraph.Infinite.joins) hsatisfiable
      obtain ⟨e, he, hinfinite⟩ := exists_infinite_crossing hconsistent Layered.source_ne_sink
        hsource ((lifts_infinite hl).source_reaches_sink hl hthreaded)
      exact Nat.not_lt_of_le hinfinite (hfinite e he)
    · have hle := hfits _ (Option.mem_map_of_mem _ hnarrow)
      refine Or.inr ⟨?_, ?_⟩
      · simp only [hflow]
        rfl
      · have hsmall := finiteSum_lt hconsistent hle hinfinite
        have hreach := reach_of_infinite_crossing hconsistent Layered.source_ne_sink hsource hsmall
          he hinfinite
        exact threaded_of_sub (WaypointGroup.narrow?_sub hnarrow)
          ((falls_infinite _).threaded hl hreach)

end Groups

end SpecFence
