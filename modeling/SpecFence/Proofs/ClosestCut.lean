import SpecFence.Proofs.Unbounded

/-!
# The minimum cut is the closest one

As long as the capacities do not sum above the largest weight, there is a minimum cut between two
nodes unless infinite edges alone lead from one to the other.  No finite edges that separate the two
weigh less than the cut, and those that weigh as much leave all nodes in reach that the cut leaves in
reach.  What separates two nodes is judged by walks, so cycles and edges in both directions are
nothing special.
-/

set_option autoImplicit false

namespace SpecFence

open Relation SpecFence.Flow

variable {g : Digraph} {source sink : Node} {c : MinCut}

/-- A cut of finite edges between two nodes that weighs no more than any other.  Its source side,
which is what it leaves in reach of the source, is part of that of any other of the same weight. -/
structure ClosestCut (g : Digraph) (source sink : Node) (c : MinCut) : Prop where
  ascending : Ascending c.edges
  blocks : Blocks g source sink c.edges
  value_eq : c.value = Weight.sum (c.edges.map fun e => g.weight e.src e.dst)
  reached : ∀ v, v ∈ side g source sink ↔ ReflTransGen (g.Uncut (· ∈ c.edges)) source v
  lightest : ∀ other : Cut, (∀ e ∈ other, g.weight e.src e.dst < Weight.infinite) →
    ¬ ReflTransGen (g.Uncut (· ∈ other)) source sink →
      c.value ≤ Weight.sum (other.toList.map fun e => g.weight e.src e.dst)
  closest : ∀ other : Cut, (∀ e ∈ other, g.weight e.src e.dst < Weight.infinite) →
    ¬ ReflTransGen (g.Uncut (· ∈ other)) source sink →
      Weight.sum (other.toList.map fun e => g.weight e.src e.dst) = c.value →
        ∀ v ∈ side g source sink, ReflTransGen (g.Uncut (· ∈ other)) source v

section Sides

/-- What is left in reach of the source by finite edges that cut the sink off is crossed by no more
than the edges weigh. -/
theorem exists_reached (hg : g.Consistent) (hsource : source < g.size) {other : Cut}
    (hfinite : ∀ e ∈ other, g.weight e.src e.dst < Weight.infinite) :
    ∃ T : Finset Node, (∀ v, v ∈ T ↔ ReflTransGen (g.Uncut (· ∈ other)) source v) ∧
      T ⊆ Finset.range g.size ∧
      crossing (capacity g) g.size T ≤ ∑ x ∈ endPairs other, g.weight x.1 x.2 := by
  classical
  let T := (Finset.range g.size).filter fun v => ReflTransGen (g.Uncut (· ∈ other)) source v
  have hmem : ∀ v, v ∈ T ↔ ReflTransGen (g.Uncut (· ∈ other)) source v := by
    intro v
    rw [Finset.mem_filter, Finset.mem_range, and_iff_right_iff_imp]
    intro hreach
    rcases hreach.cases_tail with rfl | ⟨u, -, hstep⟩
    · exact hsource
    · exact hg.dst_lt u v hstep.1
  refine ⟨T, hmem, Finset.filter_subset _ _, crossing_le_sum ?_ ?_⟩
  · intro x hx
    exact hfinite _ (mem_endPairs.mp hx)
  · intro u hu v _ hout hjoin
    by_contra hkept
    rw [mem_endPairs] at hkept
    exact hout ((hmem v).mpr (((hmem u).mp hu).tail ⟨hjoin, hkept⟩))

/-- No finite edges that cut the sink off weigh less than what crosses the source side, and those
that weigh no more leave the source side in reach. -/
theorem crossing_side_le_sum (hg : g.Consistent) (hne : source ≠ sink) (hsource : source < g.size)
    {other : Cut} (hfinite : ∀ e ∈ other, g.weight e.src e.dst < Weight.infinite)
    (hblocked : ¬ ReflTransGen (g.Uncut (· ∈ other)) source sink) :
    crossing (capacity g) g.size (side g source sink) ≤ ∑ x ∈ endPairs other, g.weight x.1 x.2 ∧
      (∑ x ∈ endPairs other, g.weight x.1 x.2 ≤
          crossing (capacity g) g.size (side g source sink) →
        ∀ v ∈ side g source sink, ReflTransGen (g.Uncut (· ∈ other)) source v) := by
  have hleast := side_leastCut hg hne hsource
  obtain ⟨T, hmem, hbound, hcrossing⟩ := exists_reached hg hsource hfinite
  have hstart : source ∈ T := (hmem source).mpr .refl
  have hend : sink ∉ T := fun hin => hblocked ((hmem sink).mp hin)
  constructor
  · exact (hleast.le T hbound hstart hend).trans hcrossing
  · intro hle v hv
    exact (hmem v).mp (hleast.least T hbound hstart hend (hcrossing.trans hle) hv)

end Sides

section Value

theorem map_across (hg : g.Consistent) :
    (across g source sink).map Prod.snd =
      ((across g source sink).map Prod.fst).map fun e => g.weight e.src e.dst := by
  rw [List.map_map]
  refine List.map_congr_left fun x hx => ?_
  exact ((mem_across hg).mp hx).2.symm

theorem ascending_across (hg : g.Consistent) :
    Ascending ((across g source sink).map Prod.fst) :=
  (Digraph.ascending_edges hg).sublist (List.filter_sublist.map Prod.fst)

theorem minCut_value (hg : g.Consistent) (hfits : capacitySum g ≤ Weight.limit)
    (hcut : minCut g source sink false = .ok c)
    (hfinite : ∀ e ∈ c.edges, g.weight e.src e.dst < Weight.infinite) :
    Ascending c.edges ∧ c.value = Weight.sum (c.edges.map fun e => g.weight e.src e.dst) := by
  rw [minCut_eq] at hcut
  split at hcut
  · cases hcut
  · cases hcut
    have hascending : Ascending ((across g source sink).map Prod.fst) := ascending_across hg
    refine ⟨hascending, ?_⟩
    let cut : Cut := ⟨_, hascending⟩
    have hle : ∑ x ∈ endPairs cut, g.weight x.1 x.2 ≤ finiteSum g :=
      sum_finite_le hg fun x hx => hfinite _ (mem_endPairs.mp hx)
    rw [← sum_weights_eq] at hle
    change Weight.total ((across g source sink).map Prod.snd) = _
    rw [Weight.total_eq, map_across hg]
    exact Nat.min_eq_left ((hle.trans (finiteSum_le_capacitySum hg)).trans hfits)

end Value

theorem closestCut_of_crosses (hg : g.Consistent) (hne : source ≠ sink) (hsource : source < g.size)
    (hfits : capacitySum g ≤ Weight.limit) (hcut : minCut g source sink false = .ok c)
    (hmem : ∀ e, e ∈ c.edges ↔ Crosses g source sink e)
    (hfinite : ∀ e, Crosses g source sink e → g.weight e.src e.dst < Weight.infinite) :
    ClosestCut g source sink c := by
  have hblocks := minCut_blocks hg hne hsource hcut
  obtain ⟨hascending, hvalue⟩ := minCut_value hg hfits hcut fun e he => (hblocks.finite e he).2
  let cut : Cut := ⟨c.edges, hascending⟩
  have hcutValue : ∑ x ∈ endPairs cut, g.weight x.1 x.2 = c.value :=
    (sum_weights_eq g cut).symm.trans hvalue.symm
  have hside : c.value ≤ crossing (capacity g) g.size (side g source sink) := by
    rw [← hcutValue]
    refine sum_le_crossing_side hg fun x hx => ?_
    have hcrosses := (hmem _).mp (mem_endPairs.mp hx)
    exact ⟨hcrosses, hfinite _ hcrosses⟩
  constructor
  case ascending => exact hascending
  case blocks => exact hblocks
  case value_eq => exact hvalue
  case reached =>
    intro v
    constructor
    · have hsmall : ∀ e ∈ cut, g.weight e.src e.dst < Weight.infinite :=
        fun e he => (hblocks.finite e he).2
      exact (crossing_side_le_sum hg hne hsource hsmall hblocks.blocked).2
        (hcutValue.trans_le hside) v
    · -- a walk that leaves the source side takes one of the edges of the cut
      intro hreach
      by_contra hout
      obtain ⟨a, b, ⟨hjoin, hkept⟩, ha, hb⟩ := exists_leaving (· ∈ side g source sink) hreach
        (side_leastCut hg hne hsource).source_mem hout
      exact hkept ((hmem ⟨a, b⟩).mpr ⟨hjoin, ha, hb⟩)
  case lightest =>
    intro other hother hblocked
    rw [sum_weights_eq]
    exact hside.trans (crossing_side_le_sum hg hne hsource hother hblocked).1
  case closest =>
    intro other hother hblocked hsame
    rw [sum_weights_eq] at hsame
    exact (crossing_side_le_sum hg hne hsource hother hblocked).2 (hsame.trans_le hside)

/-- There is a minimum cut between two nodes, and it is the closest one, unless infinite edges alone
lead from one to the other. -/
theorem minCut_closest (hg : g.Consistent) (hsource : source < g.size) (hne : source ≠ sink)
    (hfits : capacitySum g ≤ Weight.limit) :
    (minCut g source sink false = .error .unboundedFlow ↔ ReflTransGen g.Infinite source sink) ∧
      (¬ ReflTransGen g.Infinite source sink →
        ∃ c, minCut g source sink false = .ok c ∧ ClosestCut g source sink c) := by
  rcases minCut_cases hg source sink with ⟨c, hcut, hmem, hfinite⟩ | ⟨herror, e, he, hinfinite⟩
  · constructor
    · constructor
      · intro herror
        rw [hcut] at herror
        cases herror
      · intro hreach
        obtain ⟨e, he, hinfinite⟩ := exists_infinite_crossing hg hne hsource hreach
        exact absurd hinfinite (Nat.not_le_of_lt (hfinite e he))
    · intro _
      exact ⟨c, hcut, closestCut_of_crosses hg hne hsource hfits hcut hmem hfinite⟩
  · have hreach := reach_of_infinite_crossing hg hne hsource (finiteSum_lt hg hfits hinfinite) he
      hinfinite
    exact ⟨iff_of_true herror hreach, fun hstuck => absurd hreach hstuck⟩

def tiedChain : WeightedGraph :=
  (WeightedGraph.withNodes 4).putAll [(⟨0, 1⟩, 2), (⟨1, 2⟩, 2), (⟨2, 1⟩, 5), (⟨2, 3⟩, 2),
    (⟨3, 2⟩, Weight.infinite), (⟨3, 0⟩, 1)]

/-- Of the three edges that weigh the least the first one is cut; against the infinite edge there is
no cut. -/
theorem minCut_closest_tiedChain :
    minCut tiedChain.digraph 0 3 false = .ok ⟨2, [⟨0, 1⟩]⟩ ∧
      ClosestCut tiedChain.digraph 0 3 ⟨2, [⟨0, 1⟩]⟩ ∧
      minCut tiedChain.digraph 3 2 false = .error .unboundedFlow := by
  have hfits : capacitySum tiedChain.digraph ≤ Weight.limit := by
    have hsum : capacitySum tiedChain.digraph = 25 := by cbv
    rw [hsum]
    decide
  have hfound : minCut tiedChain.digraph 0 3 false = .ok ⟨2, [⟨0, 1⟩]⟩ := by cbv
  obtain ⟨hforth, hexists⟩ := minCut_closest tiedChain.digraph_consistent (by decide +kernel)
    (show 0 ≠ 3 by decide) hfits
  obtain ⟨hback, -⟩ := minCut_closest tiedChain.digraph_consistent (by decide +kernel)
    (show 3 ≠ 2 by decide) hfits
  have hstuck : ¬ ReflTransGen tiedChain.digraph.Infinite 0 3 := by
    intro hreach
    rw [hforth.mpr hreach] at hfound
    cases hfound
  obtain ⟨c, hcut, hclosest⟩ := hexists hstuck
  obtain rfl := Except.ok.inj (hfound.symm.trans hcut)
  have hinfinite : tiedChain.digraph.Infinite 3 2 := by
    unfold Digraph.Infinite
    decide +kernel
  exact ⟨hfound, hclosest, hback.mpr (.single hinfinite)⟩

end SpecFence
