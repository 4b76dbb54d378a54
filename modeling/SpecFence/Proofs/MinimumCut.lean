import SpecFence.Proofs.Residual
import SpecFence.Proofs.Validity

/-!
# The minimum cut closest to the source

The source side that the maximum flow leaves is the least minimum cut of the capacities, so it is
known without the flow: by the weights of the edges alone, and only by those on walks from source to
sink.  When an edge that is on no such walk is taken away, the cut stays the same.
-/

set_option autoImplicit false

namespace SpecFence

open Relation

namespace Flow

variable {g : Digraph} {source sink : Node}

section Capacities

def capacity (g : Digraph) (u v : Node) : Nat :=
  if g.weight u v < Weight.infinite then g.weight u v else infiniteCapacity g

def finiteSum (g : Digraph) : Nat :=
  Weight.sum ((g.edges.map Prod.snd).filter (· < Weight.infinite))

theorem infiniteCapacity_eq (g : Digraph) :
    infiniteCapacity g = min (finiteSum g + 1) Weight.limit := by
  have hlimit : 1 ≤ Weight.limit := by decide
  unfold infiniteCapacity finiteSum Weight.add
  rw [Weight.total_eq]
  omega

theorem infiniteCapacity_pos (g : Digraph) : 0 < infiniteCapacity g := by
  have hlimit : 1 ≤ Weight.limit := by decide
  rw [infiniteCapacity_eq]
  omega

theorem capacity_of_finite {u v : Node} (h : g.weight u v < Weight.infinite) :
    capacity g u v = g.weight u v := if_pos h

theorem capacity_of_infinite {u v : Node} (h : Weight.infinite ≤ g.weight u v) :
    capacity g u v = infiniteCapacity g := if_neg (Nat.not_lt_of_le h)

theorem capacity_pos_iff {u v : Node} : 0 < capacity g u v ↔ g.Joins u v := by
  unfold Digraph.Joins
  rcases Nat.lt_or_ge (g.weight u v) Weight.infinite with hfinite | hinfinite
  · rw [capacity_of_finite hfinite]
  · have hpos := Layered.infinite_pos
    rw [capacity_of_infinite hinfinite]
    exact iff_of_true (infiniteCapacity_pos g) (by omega)

theorem reach_capacity_iff {u v : Node} :
    ReflTransGen (fun a b => 0 < capacity g a b) u v ↔ ReflTransGen g.Joins u v := by
  have hsame : (fun a b => 0 < capacity g a b) = g.Joins := by
    funext a b
    exact propext capacity_pos_iff
  rw [hsame]

theorem weight_emptyFlow (hg : g.Consistent) : (emptyFlow g).weight = capacity g := by
  funext u v
  let start := g.edges.map fun x => (x.1, if x.2 < Weight.infinite then x.2 else infiniteCapacity g)
  have hkeys : start.map Prod.fst = g.edges.map Prod.fst := by
    simp only [start, List.map_map]
    rfl
  have hbound : ∀ x ∈ start, x.1.src < (WeightedGraph.withNodes g.size).size ∧
      x.1.dst < (WeightedGraph.withNodes g.size).size := by
    intro x hx
    obtain ⟨y, hmem, rfl⟩ := List.mem_map.mp hx
    rw [WeightedGraph.size_withNodes]
    exact Digraph.bounds_of_mem_edges (x := y) hg hmem
  obtain ⟨hwritten, hkept⟩ :=
    WeightedGraph.weight_putAll (hkeys ▸ Digraph.nodup_edges hg) hbound u v
  change ((WeightedGraph.withNodes g.size).putAll start).weight u v = _
  rcases Nat.eq_zero_or_pos (g.weight u v) with hzero | hpos
  · rw [hkept, WeightedGraph.weight_withNodes, capacity_of_finite, hzero]
    · rw [hzero]
      exact Layered.infinite_pos
    · rw [hkeys]
      intro hmem
      obtain ⟨⟨e, w⟩, hedge, rfl⟩ := List.mem_map.mp hmem
      have hw := (Digraph.mem_edges_iff hg).mp hedge
      omega
  · refine hwritten _ (List.mem_map.mpr ⟨(⟨u, v⟩, g.weight u v), ?_, rfl⟩)
    exact (Digraph.mem_edges_iff hg).mpr ⟨hpos, rfl⟩

theorem finiteSum_eq (hg : g.Consistent) :
    finiteSum g = ∑ x ∈ (Finset.range g.size ×ˢ Finset.range g.size).filter
      (fun x => g.weight x.1 x.2 < Weight.infinite), g.weight x.1 x.2 := by
  let finite := g.edges.filter fun x => x.2 < Weight.infinite
  have hmem : ∀ x : Node × Node, x ∈ finite.map (fun x => (x.1.src, x.1.dst)) ↔
      0 < g.weight x.1 x.2 ∧ g.weight x.1 x.2 < Weight.infinite := by
    rintro ⟨u, v⟩
    rw [List.mem_map]
    constructor
    · rintro ⟨⟨e, w⟩, hx, heq⟩
      obtain ⟨rfl, rfl⟩ := Prod.mk.inj heq
      obtain ⟨hedge, hfinite⟩ := List.mem_filter.mp hx
      obtain ⟨hpos, hw⟩ := (Digraph.mem_edges_iff hg).mp hedge
      simp only
      rw [hw]
      exact ⟨hpos, of_decide_eq_true hfinite⟩
    · rintro ⟨hpos, hfinite⟩
      refine ⟨(⟨u, v⟩, g.weight u v), List.mem_filter.mpr ⟨?_, decide_eq_true hfinite⟩, rfl⟩
      exact (Digraph.mem_edges_iff hg).mpr ⟨hpos, rfl⟩
  have hnodup : (finite.map fun x => (x.1.src, x.1.dst)).Nodup := by
    have hkeys : (finite.map Prod.fst).Nodup :=
      (Digraph.nodup_edges hg).sublist (List.filter_sublist.map Prod.fst)
    have hmap : finite.map (fun x => (x.1.src, x.1.dst)) =
        (finite.map Prod.fst).map fun e => (e.src, e.dst) := by
      rw [List.map_map]
      rfl
    rw [hmap]
    refine hkeys.map ?_
    rintro ⟨a, b⟩ ⟨c, d⟩ heq
    obtain ⟨rfl, rfl⟩ := Prod.mk.inj heq
    rfl
  have hweights : (finite.map fun x => (x.1.src, x.1.dst)).map (fun x => g.weight x.1 x.2) =
      (g.edges.map Prod.snd).filter (· < Weight.infinite) := by
    rw [List.filter_map, List.map_map]
    refine List.map_congr_left fun x hx => ?_
    exact ((Digraph.mem_edges_iff hg).mp (List.mem_filter.mp hx).1).2
  unfold finiteSum
  rw [Weight.sum_eq, ← hweights, ← List.sum_toFinset _ hnodup]
  refine Finset.sum_subset (fun x hx => ?_) fun x hx hout => ?_
  · obtain ⟨hpos, hfinite⟩ := (hmem x).mp (List.mem_toFinset.mp hx)
    exact Finset.mem_filter.mpr ⟨Finset.mem_product.mpr ⟨Finset.mem_range.mpr (hg.src_lt _ _ hpos),
      Finset.mem_range.mpr (hg.dst_lt _ _ hpos)⟩, hfinite⟩
  · by_contra hne
    refine hout (List.mem_toFinset.mpr ((hmem x).mpr ⟨Nat.pos_of_ne_zero hne, ?_⟩))
    exact (Finset.mem_filter.mp hx).2

theorem sum_finite_le (hg : g.Consistent) {pairs : Finset (Node × Node)}
    (hfinite : ∀ x ∈ pairs, g.weight x.1 x.2 < Weight.infinite) :
    ∑ x ∈ pairs, g.weight x.1 x.2 ≤ finiteSum g := by
  rw [finiteSum_eq hg]
  refine Finset.sum_le_sum_of_ne_zero fun x hx hne => ?_
  have hpos := Nat.pos_of_ne_zero hne
  exact Finset.mem_filter.mpr ⟨Finset.mem_product.mpr ⟨Finset.mem_range.mpr (hg.src_lt _ _ hpos),
    Finset.mem_range.mpr (hg.dst_lt _ _ hpos)⟩, hfinite x hx⟩

/-- When all edges that leave a set are among some pairs of finite weight, no more leaves the set than
the pairs weigh. -/
theorem crossing_le_sum {n : Nat} {T : Finset Node} {pairs : Finset (Node × Node)}
    (hfinite : ∀ x ∈ pairs, g.weight x.1 x.2 < Weight.infinite)
    (hleave : ∀ u ∈ T, ∀ v < n, v ∉ T → g.Joins u v → (u, v) ∈ pairs) :
    crossing (capacity g) n T ≤ ∑ x ∈ pairs, g.weight x.1 x.2 := by
  have hpair : ∀ x ∈ T ×ˢ (Finset.range n \ T), capacity g x.1 x.2 ≠ 0 →
      x ∈ pairs ∧ capacity g x.1 x.2 = g.weight x.1 x.2 := by
    intro x hx hpos
    obtain ⟨hu, hv⟩ := Finset.mem_product.mp hx
    obtain ⟨hlt, hv⟩ := Finset.mem_sdiff.mp hv
    have hmem := hleave x.1 hu x.2 (Finset.mem_range.mp hlt) hv
      (capacity_pos_iff.mp (Nat.pos_of_ne_zero hpos))
    exact ⟨hmem, capacity_of_finite (hfinite x hmem)⟩
  unfold crossing
  rw [← Finset.sum_filter_ne_zero]
  calc ∑ x ∈ (T ×ˢ (Finset.range n \ T)).filter fun x => capacity g x.1 x.2 ≠ 0,
        capacity g x.1 x.2
      = ∑ x ∈ (T ×ˢ (Finset.range n \ T)).filter fun x => capacity g x.1 x.2 ≠ 0,
          g.weight x.1 x.2 := by
        refine Finset.sum_congr rfl fun x hx => ?_
        obtain ⟨hx, hpos⟩ := Finset.mem_filter.mp hx
        exact (hpair x hx hpos).2
    _ ≤ ∑ x ∈ pairs, g.weight x.1 x.2 := by
        refine Finset.sum_le_sum_of_subset fun x hx => ?_
        obtain ⟨hx, hpos⟩ := Finset.mem_filter.mp hx
        exact (hpair x hx hpos).1

theorem finiteSum_mono {g' : Digraph} (hg : g.Consistent) (hg' : g'.Consistent)
    (hweight : ∀ u v, g'.weight u v = 0 ∨ g'.weight u v = g.weight u v) :
    finiteSum g' ≤ finiteSum g := by
  rw [finiteSum_eq hg', ← Finset.sum_filter_ne_zero]
  have hsame : ∀ x ∈ ((Finset.range g'.size ×ˢ Finset.range g'.size).filter
      (fun x => g'.weight x.1 x.2 < Weight.infinite)).filter (fun x => g'.weight x.1 x.2 ≠ 0),
      g'.weight x.1 x.2 = g.weight x.1 x.2 ∧ g'.weight x.1 x.2 < Weight.infinite := by
    intro x hx
    obtain ⟨hx, hne⟩ := Finset.mem_filter.mp hx
    exact ⟨(hweight x.1 x.2).resolve_left hne, (Finset.mem_filter.mp hx).2⟩
  rw [Finset.sum_congr rfl fun x hx => (hsame x hx).1]
  refine sum_finite_le hg fun x hx => ?_
  rw [← (hsame x hx).1]
  exact (hsame x hx).2

end Capacities

section Side

def side (g : Digraph) (source sink : Node) : Finset Node :=
  (Finset.range g.size).filter fun v =>
    ((maximum g source sink).digraph.reachableFrom [source]).has v

theorem mem_side {v : Node} : v ∈ side g source sink ↔
    ((maximum g source sink).digraph.reachableFrom [source]).has v = true := by
  unfold side
  rw [Finset.mem_filter, Finset.mem_range, and_iff_right_iff_imp]
  intro hv
  have hlt := Digraph.lt_of_has_reachableFrom hv
  change v < (maximum g source sink).size at hlt
  rwa [size_maximum] at hlt

theorem side_leastCut (hg : g.Consistent) (hne : source ≠ sink) (hsource : source < g.size) :
    LeastCut (capacity g) g.size source sink (side g source sink) := by
  have hstart : source < (emptyFlow g).size := by
    rw [size_emptyFlow]
    exact hsource
  have hresidual : Residual (emptyFlow g) (maximum g source sink) source sink :=
    (Residual.refl (emptyFlow g) source sink).saturate _
  have hleast := hresidual.leastCut hstart (maximum_blocks hne hsource)
    (S := side g source sink) fun v => ?_
  · rwa [weight_emptyFlow hg, size_emptyFlow] at hleast
  · rw [mem_side, has_side (WeightedGraph.digraph_consistent _)]
    change source < (maximum g source sink).size
    rw [size_maximum]
    exact hsource

end Side

end Flow

section MinCut

open SpecFence.Flow

variable {g : Digraph} {source sink : Node}

/-- The edges that cross the source side. -/
def Crosses (g : Digraph) (source sink : Node) (e : Edge) : Prop :=
  g.Joins e.src e.dst ∧ e.src ∈ side g source sink ∧ e.dst ∉ side g source sink

def across (g : Digraph) (source sink : Node) : List (Edge × Nat) :=
  let reached := (maximum g source sink).digraph.reachableFrom [source]
  g.edges.filter fun (e, _) => reached.has e.src && !reached.has e.dst

theorem minCut_eq (g : Digraph) (source sink : Node) :
    minCut g source sink false =
      if (across g source sink).any fun (_, w) => Weight.infinite ≤ w then .error .unboundedFlow
      else .ok ⟨Weight.total ((across g source sink).map Prod.snd),
        (across g source sink).map Prod.fst⟩ := rfl

theorem mem_across (hg : g.Consistent) {e : Edge} {w : Nat} :
    (e, w) ∈ across g source sink ↔ Crosses g source sink e ∧ g.weight e.src e.dst = w := by
  unfold across Crosses Digraph.Joins
  rw [List.mem_filter, Digraph.mem_edges_iff hg, Bool.and_eq_true, Bool.not_eq_true', mem_side,
    mem_side, Bool.not_eq_true]
  constructor
  · rintro ⟨⟨hpos, rfl⟩, hside⟩
    exact ⟨⟨hpos, hside⟩, rfl⟩
  · rintro ⟨⟨hpos, hside⟩, rfl⟩
    exact ⟨⟨hpos, rfl⟩, hside⟩

theorem minCut_cases (hg : g.Consistent) (source sink : Node) :
    (∃ c, minCut g source sink false = .ok c ∧
      (∀ e, e ∈ c.edges ↔ Crosses g source sink e) ∧
      ∀ e, Crosses g source sink e → g.weight e.src e.dst < Weight.infinite) ∨
    (minCut g source sink false = .error .unboundedFlow ∧
      ∃ e, Crosses g source sink e ∧ Weight.infinite ≤ g.weight e.src e.dst) := by
  rw [minCut_eq]
  split
  · rename_i hany
    obtain ⟨⟨e, w⟩, hmem, hw⟩ := List.any_eq_true.mp hany
    obtain ⟨hcrosses, rfl⟩ := (mem_across hg).mp hmem
    exact Or.inr ⟨rfl, e, hcrosses, of_decide_eq_true hw⟩
  · rename_i hany
    refine Or.inl ⟨_, rfl, fun e => ?_, fun e hcrosses => ?_⟩
    · rw [List.mem_map]
      constructor
      · rintro ⟨⟨e, w⟩, hmem, rfl⟩
        exact ((mem_across hg).mp hmem).1
      · intro hcrosses
        exact ⟨(e, _), (mem_across hg).mpr ⟨hcrosses, rfl⟩, rfl⟩
    · by_contra hinfinite
      refine hany (List.any_eq_true.mpr ⟨(e, _), (mem_across hg).mpr ⟨hcrosses, rfl⟩, ?_⟩)
      exact decide_eq_true (Nat.le_of_not_lt hinfinite)

theorem sum_le_crossing_side (hg : g.Consistent) {pairs : Finset (Node × Node)}
    (hcrosses : ∀ x ∈ pairs, Crosses g source sink ⟨x.1, x.2⟩ ∧
      g.weight x.1 x.2 < Weight.infinite) :
    ∑ x ∈ pairs, g.weight x.1 x.2 ≤ crossing (capacity g) g.size (side g source sink) := by
  calc ∑ x ∈ pairs, g.weight x.1 x.2
      = ∑ x ∈ pairs, capacity g x.1 x.2 :=
        Finset.sum_congr rfl fun x hx => (capacity_of_finite (hcrosses x hx).2).symm
    _ ≤ crossing (capacity g) g.size (side g source sink) := by
        unfold crossing
        refine Finset.sum_le_sum_of_subset fun x hx => ?_
        obtain ⟨hjoin, hin, hout⟩ := (hcrosses x hx).1
        exact Finset.mem_product.mpr ⟨hin, Finset.mem_sdiff.mpr
          ⟨Finset.mem_range.mpr (hg.dst_lt _ _ hjoin), hout⟩⟩

theorem Crosses.between (hg : g.Consistent) (hne : source ≠ sink) (hsource : source < g.size)
    {e : Edge} (h : Crosses g source sink e) :
    ReflTransGen g.Joins source e.src ∧ ReflTransGen g.Joins e.dst sink := by
  have hleast := side_leastCut hg hne hsource
  obtain ⟨hjoin, hsrc, hdst⟩ := h
  exact ⟨reach_capacity_iff.mp (hleast.reached hsrc), reach_capacity_iff.mp
    (hleast.reaches hsrc (hg.dst_lt _ _ hjoin) hdst (capacity_pos_iff.mpr hjoin))⟩

/-- A graph from which edges are taken away that are on no walk from the source to the sink. -/
structure Thinned (g g' : Digraph) (source sink : Node) : Prop where
  size : g'.size = g.size
  weight : ∀ u v, g'.weight u v = 0 ∨ g'.weight u v = g.weight u v
  kept : ∀ u v, g.Joins u v → ReflTransGen g.Joins source u → ReflTransGen g.Joins v sink →
    g'.weight u v = g.weight u v

namespace Thinned

variable {g' : Digraph}

theorem joins (h : Thinned g g' source sink) {u v : Node} (huv : g'.Joins u v) : g.Joins u v := by
  unfold Digraph.Joins at huv ⊢
  rcases h.weight u v with hzero | hsame
  · omega
  · omega

theorem reach (h : Thinned g g' source sink) {u v : Node} (huv : ReflTransGen g'.Joins u v) :
    ReflTransGen g.Joins u v :=
  ReflTransGen.mono (fun _ _ => h.joins) _ _ huv

theorem between (h : Thinned g g' source sink) (hg' : g'.Consistent) (hne : source ≠ sink)
    (hsource : source < g.size) {e : Edge} (he : Crosses g' source sink e) :
    ReflTransGen g.Joins source e.src ∧ ReflTransGen g.Joins e.dst sink := by
  rw [← h.size] at hsource
  obtain ⟨hfrom, hto⟩ := he.between hg' hne hsource
  exact ⟨h.reach hfrom, h.reach hto⟩

/-- As the edges that are left, the source side of the whole graph is crossed by finite edges
only. -/
theorem crossing_side_le (h : Thinned g g' source sink) (hg : g.Consistent) (hg' : g'.Consistent)
    (hne : source ≠ sink) (hsource : source < g.size)
    (hfinite : ∀ e, Crosses g source sink e → g.weight e.src e.dst < Weight.infinite) :
    crossing (capacity g') g.size (side g source sink) ≤
        crossing (capacity g) g.size (side g source sink) ∧
      crossing (capacity g') g.size (side g source sink) ≤ finiteSum g' := by
  have hcap : ∀ u ∈ side g source sink, ∀ v, v ∉ side g source sink →
      g'.weight u v < Weight.infinite ∧ g'.weight u v ≤ capacity g u v := by
    intro u hu v hv
    rcases Nat.eq_zero_or_pos (g'.weight u v) with hzero | hpos
    · have hinfinite := Layered.infinite_pos
      omega
    · have hcrosses : Crosses g source sink ⟨u, v⟩ := ⟨h.joins hpos, hu, hv⟩
      obtain ⟨hfrom, hto⟩ := hcrosses.between hg hne hsource
      rw [h.kept u v (h.joins hpos) hfrom hto, capacity_of_finite (hfinite _ hcrosses)]
      exact ⟨hfinite _ hcrosses, Nat.le_refl _⟩
  constructor
  · refine crossing_le fun u hu v _ hv _ => ⟨hu, hv, ?_⟩
    rw [capacity_of_finite (hcap u hu v hv).1]
    exact (hcap u hu v hv).2
  · have hpairs : ∀ x ∈ side g source sink ×ˢ (Finset.range g.size \ side g source sink),
        g'.weight x.1 x.2 < Weight.infinite := by
      intro x hx
      obtain ⟨hu, hv⟩ := Finset.mem_product.mp hx
      exact (hcap x.1 hu x.2 (Finset.mem_sdiff.mp hv).2).1
    refine Nat.le_trans (Nat.le_of_eq ?_) (sum_finite_le hg' hpairs)
    exact Finset.sum_congr rfl fun x hx => capacity_of_finite (hpairs x hx)

theorem capacity_eq (h : Thinned g g' source sink) (hg : g.Consistent) (hg' : g'.Consistent)
    (hne : source ≠ sink) (hsource : source < g.size)
    (hle : crossing (capacity g') g.size (side g' source sink) ≤ finiteSum g') {u v : Node}
    (huv : Crosses g' source sink ⟨u, v⟩) : capacity g u v = capacity g' u v := by
  obtain ⟨hfrom, hto⟩ := h.between hg' hne hsource huv
  have hweight := h.kept u v (h.joins huv.1) hfrom hto
  rcases Nat.lt_or_ge (g.weight u v) Weight.infinite with hfinite | hinfinite
  · rw [capacity_of_finite hfinite, capacity_of_finite (hweight ▸ hfinite), hweight]
  · -- a crossing infinite edge means that the finite weights exceed the limit in both graphs
    have hmem : (u, v) ∈ side g' source sink ×ˢ (Finset.range g.size \ side g' source sink) := by
      refine Finset.mem_product.mpr ⟨huv.2.1, Finset.mem_sdiff.mpr ⟨?_, huv.2.2⟩⟩
      rw [Finset.mem_range, ← h.size]
      exact hg'.dst_lt u v huv.1
    have hone : capacity g' u v ≤ crossing (capacity g') g.size (side g' source sink) :=
      Finset.single_le_sum (f := fun x : Node × Node => capacity g' x.1 x.2)
        (fun _ _ => Nat.zero_le _) hmem
    have hmono := finiteSum_mono hg hg' h.weight
    rw [capacity_of_infinite (hweight ▸ hinfinite), infiniteCapacity_eq] at hone
    rw [capacity_of_infinite hinfinite, capacity_of_infinite (hweight ▸ hinfinite),
      infiniteCapacity_eq, infiniteCapacity_eq]
    omega

/-- The source side of the whole graph lies between that of the thinned graph and the same with all
nodes from which the sink is out of reach. -/
theorem side_between (h : Thinned g g' source sink) (hg : g.Consistent) (hg' : g'.Consistent)
    (hne : source ≠ sink) (hsource : source < g.size)
    (hfinite : ∀ e, Crosses g source sink e → g.weight e.src e.dst < Weight.infinite) :
    side g' source sink ⊆ side g source sink ∧
      ∀ v ∈ side g source sink, v ∈ side g' source sink ∨ ¬ ReflTransGen g.Joins v sink := by
  have hleast := side_leastCut hg hne hsource
  have hleast' := side_leastCut hg' hne (h.size ▸ hsource)
  rw [h.size] at hleast'
  obtain ⟨hside, hsum⟩ := h.crossing_side_le hg hg' hne hsource hfinite
  have hmin' := hleast'.le _ hleast.bound hleast.source_mem hleast.sink_not_mem
  obtain ⟨T, hT⟩ := exists_widened (capacity g) g.size sink (side g' source sink)
  have hbound : T ⊆ Finset.range g.size := by
    intro x hx
    rcases (hT x).mp hx with hx | hx
    · exact hleast'.bound hx
    · exact Finset.mem_range.mpr hx.1
  have hstart : source ∈ T := (hT source).mpr (Or.inl hleast'.source_mem)
  have hend : sink ∉ T := by
    rw [hT, not_or, not_and_not_right]
    exact ⟨hleast'.sink_not_mem, fun _ => ReflTransGen.refl⟩
  have hwide : crossing (capacity g) g.size T ≤
      crossing (capacity g') g.size (side g' source sink) := by
    refine crossing_le fun u hu v hv hvT hpos => ?_
    rw [hT, not_or, not_and_not_right] at hvT
    rw [hT] at hu
    have hto := hvT.2 hv
    have hu' : u ∈ side g' source sink := hu.resolve_right fun hout => hout.2 (hto.head hpos)
    have hjoin := capacity_pos_iff.mp hpos
    have hfrom := reach_capacity_iff.mp (hleast'.reached hu')
    have hkept := h.kept u v hjoin (h.reach hfrom) (reach_capacity_iff.mp hto)
    have hjoin' : g'.Joins u v := by
      unfold Digraph.Joins
      rw [hkept]
      exact hjoin
    refine ⟨hu', hvT.1, Nat.le_of_eq ?_⟩
    exact h.capacity_eq hg hg' hne hsource (hmin'.trans hsum) ⟨hjoin', hu', hvT.1⟩
  have hmin := hleast.le T hbound hstart hend
  constructor
  · exact hleast'.least _ hleast.bound hleast.source_mem hleast.sink_not_mem
      (hside.trans (hmin.trans hwide))
  · intro v hv
    have hmem := hleast.least T hbound hstart hend (hwide.trans (hmin'.trans hside)) hv
    rw [hT, reach_capacity_iff] at hmem
    exact hmem.imp_right And.right

theorem crosses_iff (h : Thinned g g' source sink) (hg : g.Consistent) (hg' : g'.Consistent)
    (hne : source ≠ sink) (hsource : source < g.size)
    (hfinite : ∀ e, Crosses g source sink e → g.weight e.src e.dst < Weight.infinite) (e : Edge) :
    Crosses g' source sink e ↔ Crosses g source sink e := by
  obtain ⟨hsub, hsuper⟩ := h.side_between hg hg' hne hsource hfinite
  constructor
  · intro he
    obtain ⟨-, hto⟩ := h.between hg' hne hsource he
    refine ⟨h.joins he.1, hsub he.2.1, fun hdst => ?_⟩
    rcases hsuper _ hdst with hdst' | hstuck
    · exact he.2.2 hdst'
    · exact hstuck hto
  · intro he
    obtain ⟨hfrom, hto⟩ := he.between hg hne hsource
    refine ⟨?_, ?_, fun hdst => he.2.2 (hsub hdst)⟩
    · unfold Digraph.Joins
      rw [h.kept _ _ he.1 hfrom hto]
      exact he.1
    · exact (hsuper _ he.2.1).resolve_right fun hstuck => hstuck (hto.head he.1)

theorem minCut (h : Thinned g g' source sink) (hg : g.Consistent) (hg' : g'.Consistent)
    (hne : source ≠ sink) (hsource : source < g.size) {c : MinCut}
    (hcut : SpecFence.minCut g source sink false = .ok c) :
    ∃ c', SpecFence.minCut g' source sink false = .ok c' ∧ ∀ e, e ∈ c'.edges ↔ e ∈ c.edges := by
  rcases minCut_cases hg source sink with ⟨found, hfound, hmem, hfinite⟩ | ⟨herror, -⟩
  · rw [hcut] at hfound
    cases hfound
    have hcrosses := h.crosses_iff hg hg' hne hsource hfinite
    rcases minCut_cases hg' source sink with ⟨c', hc', hmem', -⟩ | ⟨-, e, he, hinfinite⟩
    · refine ⟨c', hc', fun e => ?_⟩
      rw [hmem', hmem, hcrosses]
    · have hsmall := hfinite e ((hcrosses e).mp he)
      have hpos := Layered.infinite_pos
      rcases h.weight e.src e.dst with hzero | hsame
      · omega
      · omega
  · rw [hcut] at herror
    cases herror

end Thinned

end MinCut

end SpecFence
