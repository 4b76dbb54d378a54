import Mathlib.Algebra.BigOperators.Group.Finset.Sigma
import Mathlib.Algebra.BigOperators.Ring.Finset
import SpecFence.Proofs.Flow

/-!
# Residual networks

Pushing flow from the source to the sink keeps two things: what the two directions of a pair of
nodes can take together, and what can leave any other node.  So the residual network counts every
cut down by the same amount, the value of the flow.  When saturation has put the sink out of reach,
the source side has nothing left to cross it, which makes it a minimum cut and the least of them.
-/

set_option autoImplicit false

namespace SpecFence

open Relation

namespace Flow

variable {r cap : WeightedGraph} {source sink : Node}

section Push

/-- What a push keeps: the two directions of a pair take as much together as before, and apart from
the two ends of the push as much can leave each node. -/
structure Pushed (amount : Nat) (r r' : WeightedGraph) (source sink : Node) : Prop where
  size : r'.size = r.size
  paired : ∀ u v, r'.weight u v + r'.weight v u = r.weight u v + r.weight v u
  balance : ∀ x, outflow r' x + (if x = source then amount else 0) =
    outflow r x + if x = sink then amount else 0

theorem Pushed.refl (amount : Nat) (r : WeightedGraph) (source : Node) :
    Pushed amount r r source source := ⟨rfl, fun _ _ => rfl, fun _ => rfl⟩

theorem Pushed.trans {amount : Nat} {r' r'' : WeightedGraph} {middle : Node}
    (h : Pushed amount r r' source middle) (h' : Pushed amount r' r'' middle sink) :
    Pushed amount r r'' source sink := by
  refine ⟨h'.size.trans h.size, fun u v => (h'.paired u v).trans (h.paired u v), fun x => ?_⟩
  have hfirst := h.balance x
  have hsecond := h'.balance x
  omega

theorem pushed_pushEdge {amount : Nat} {e : Edge} (hne : e.src ≠ e.dst) (hsrc : e.src < r.size)
    (hdst : e.dst < r.size) (hamount : amount ≤ r.weight e.src e.dst) :
    Pushed amount r (pushEdge amount r e) e.src e.dst := by
  have hweight : ∀ a b, (pushEdge amount r e).weight a b = _ := weight_pushEdge hsrc hdst
  refine ⟨size_pushEdge amount r e, fun u v => ?_, fun x => ?_⟩
  · rw [hweight, hweight]
    by_cases hforth : u = e.src ∧ v = e.dst
    · obtain ⟨rfl, rfl⟩ := hforth
      simp only [hne, hne.symm, and_self, if_true, if_false]
      omega
    · by_cases hback : u = e.dst ∧ v = e.src
      · obtain ⟨rfl, rfl⟩ := hback
        simp only [hne, hne.symm, and_self, if_true, if_false]
        omega
      · rw [if_neg hback, if_neg hforth, if_neg (fun h => hforth ⟨h.2, h.1⟩),
          if_neg (fun h => hback ⟨h.2, h.1⟩)]
  · unfold outflow
    rw [size_pushEdge]
    by_cases hxs : x = e.src
    · subst hxs
      have hsum : ∑ v ∈ Finset.range r.size,
          ((pushEdge amount r e).weight e.src v + if v = e.dst then amount else 0) =
          ∑ v ∈ Finset.range r.size, r.weight e.src v := by
        refine Finset.sum_congr rfl fun v _ => ?_
        rw [hweight, if_neg (fun h => hne h.1)]
        by_cases hv : v = e.dst
        · rw [if_pos ⟨rfl, hv⟩, if_pos hv, hv]
          omega
        · rw [if_neg (fun h => hv h.2), if_neg hv, Nat.add_zero]
      rw [Finset.sum_add_distrib, Finset.sum_ite_eq', if_pos (Finset.mem_range.mpr hdst)] at hsum
      rw [if_pos rfl, if_neg hne, hsum, Nat.add_zero]
    · by_cases hxd : x = e.dst
      · subst hxd
        have hsum : ∑ v ∈ Finset.range r.size, (pushEdge amount r e).weight e.dst v =
            ∑ v ∈ Finset.range r.size, (r.weight e.dst v + if v = e.src then amount else 0) := by
          refine Finset.sum_congr rfl fun v _ => ?_
          rw [hweight]
          by_cases hv : v = e.src
          · rw [if_pos ⟨rfl, hv⟩, if_pos hv, hv]
          · rw [if_neg (fun h => hv h.2), if_neg (fun h => hne h.1.symm), if_neg hv, Nat.add_zero]
        rw [Finset.sum_add_distrib, Finset.sum_ite_eq', if_pos (Finset.mem_range.mpr hsrc)] at hsum
        rw [if_neg hxs, if_pos rfl, Nat.add_zero, hsum]
      · rw [if_neg hxs, if_neg hxd]
        refine congrArg (· + 0) (Finset.sum_congr rfl fun v _ => ?_)
        rw [hweight, if_neg (fun h => hxd h.1), if_neg (fun h => hxs h.1)]

theorem Trail.pushed {amount : Nat} {v : Node} {walk : List Edge} (h : Trail r source v walk)
    (hnodup : (v :: walk.map Edge.src).Nodup)
    (hamount : ∀ e ∈ walk, amount ≤ r.weight e.src e.dst) :
    Pushed amount r (walk.reverse.foldl (pushEdge amount) r) source v ∧
      ∀ a b, a ∉ walk.map Edge.src →
        r.weight a b ≤ (walk.reverse.foldl (pushEdge amount) r).weight a b := by
  induction walk generalizing v with
  | nil =>
    cases h
    exact ⟨Pushed.refl amount r source, fun _ _ _ => Nat.le_refl _⟩
  | cons e walk ih =>
    obtain ⟨rfl, hpos, hwalk⟩ := h
    rw [List.map_cons, List.nodup_cons, List.mem_cons, not_or] at hnodup
    obtain ⟨⟨hne, -⟩, hnodup⟩ := hnodup
    obtain ⟨hpushed, hgrown⟩ := ih hwalk hnodup fun x hx => hamount x (List.mem_cons_of_mem e hx)
    obtain ⟨hsrc, hdst⟩ := WeightedGraph.lt_of_weight_pos hpos
    rw [← hpushed.size] at hsrc hdst
    rw [List.reverse_cons, List.foldl_append, List.foldl_cons, List.foldl_nil]
    refine ⟨hpushed.trans (pushed_pushEdge (Ne.symm hne) hsrc hdst ?_), fun a b ha => ?_⟩
    · exact (hamount e List.mem_cons_self).trans (hgrown _ _ (List.nodup_cons.mp hnodup).1)
    · rw [List.map_cons, List.mem_cons, not_or] at ha
      have hold := hgrown a b ha.2
      rw [weight_pushEdge hsrc hdst]
      split
      · rename_i hback
        obtain ⟨rfl, rfl⟩ := hback
        exact hold.trans (Nat.le_add_right _ _)
      · rw [if_neg fun hforth => ha.1 hforth.1]
        exact hold

end Push

section Residual

/-- A residual network of some flow from the source to the sink. -/
structure Residual (cap r : WeightedGraph) (source sink : Node) : Prop where
  size : r.size = cap.size
  paired : ∀ u v, r.weight u v + r.weight v u = cap.weight u v + cap.weight v u
  conserved : ∀ x, x ≠ source → x ≠ sink → outflow r x = outflow cap x

theorem Residual.refl (cap : WeightedGraph) (source sink : Node) :
    Residual cap cap source sink := ⟨rfl, fun _ _ => rfl, fun _ _ _ => rfl⟩

theorem Residual.push {amount : Nat} {r' : WeightedGraph} (h : Residual cap r source sink)
    (hpush : Pushed amount r r' source sink) : Residual cap r' source sink := by
  refine ⟨hpush.size.trans h.size, fun u v => (hpush.paired u v).trans (h.paired u v), ?_⟩
  intro x hsource hsink
  have hbalance := hpush.balance x
  rw [if_neg hsource, if_neg hsink] at hbalance
  exact hbalance.trans (h.conserved x hsource hsink)

theorem bottleneck_le_of_mem {path : List Edge} {e : Edge} (he : e ∈ path) :
    bottleneck r path ≤ r.weight e.src e.dst := by
  induction path with
  | nil => exact absurd he List.not_mem_nil
  | cons first later ih =>
    rcases List.mem_cons.mp he with rfl | he
    · exact bottleneck_le
    · cases later with
      | nil => exact absurd he List.not_mem_nil
      | cons second later => exact (Nat.min_le_right _ _).trans (ih he)

theorem Residual.saturate (h : Residual cap r source sink) (rounds : Nat) :
    Residual cap (saturate source sink rounds r) source sink := by
  induction rounds generalizing r with
  | zero => exact h
  | succ rounds ih =>
    rw [Flow.saturate]
    split
    · exact h
    · exact h
    · rename_i e path hpath
      obtain ⟨walk, hwalk, htrail, hnodup⟩ := augmentingPath?_trail hpath
      have hpushed : Pushed (bottleneck r (e :: path)) r
          ((e :: path).foldl (pushEdge (bottleneck r (e :: path))) r) source sink := by
        rw [hwalk]
        refine (htrail.pushed hnodup fun x hx => ?_).1
        exact bottleneck_le_of_mem (List.mem_reverse.mpr hx)
      exact ih (h.push hpushed)

end Residual

section Crossing

variable {weight weight' : Node → Node → Nat} {n : Nat} {S T : Finset Node}

def crossing (weight : Node → Node → Nat) (n : Nat) (S : Finset Node) : Nat :=
  ∑ x ∈ S ×ˢ (Finset.range n \ S), weight x.1 x.2

theorem sum_leaving (weight : Node → Node → Nat) (hS : S ⊆ Finset.range n) :
    ∑ u ∈ S, ∑ v ∈ Finset.range n, weight u v =
      crossing weight n S + ∑ u ∈ S, ∑ v ∈ S, weight u v := by
  unfold crossing
  rw [Finset.sum_product, ← Finset.sum_add_distrib]
  exact Finset.sum_congr rfl fun u _ => (Finset.sum_sdiff hS).symm

theorem crossing_le (h : ∀ u ∈ T, ∀ v < n, v ∉ T → 0 < weight' u v →
    u ∈ S ∧ v ∉ S ∧ weight' u v ≤ weight u v) : crossing weight' n T ≤ crossing weight n S := by
  have hpair : ∀ x ∈ T ×ˢ (Finset.range n \ T), weight' x.1 x.2 ≠ 0 →
      x ∈ S ×ˢ (Finset.range n \ S) ∧ weight' x.1 x.2 ≤ weight x.1 x.2 := by
    intro x hx hpos
    obtain ⟨hu, hv⟩ := Finset.mem_product.mp hx
    obtain ⟨hlt, hv⟩ := Finset.mem_sdiff.mp hv
    obtain ⟨hu', hv', hle⟩ := h x.1 hu x.2 (Finset.mem_range.mp hlt) hv (Nat.pos_of_ne_zero hpos)
    exact ⟨Finset.mem_product.mpr ⟨hu', Finset.mem_sdiff.mpr ⟨hlt, hv'⟩⟩, hle⟩
  unfold crossing
  rw [← Finset.sum_filter_ne_zero]
  calc ∑ x ∈ (T ×ˢ (Finset.range n \ T)).filter fun x => weight' x.1 x.2 ≠ 0, weight' x.1 x.2
      ≤ ∑ x ∈ (T ×ˢ (Finset.range n \ T)).filter fun x => weight' x.1 x.2 ≠ 0, weight x.1 x.2 := by
        refine Finset.sum_le_sum fun x hx => ?_
        obtain ⟨hx, hpos⟩ := Finset.mem_filter.mp hx
        exact (hpair x hx hpos).2
    _ ≤ ∑ x ∈ S ×ˢ (Finset.range n \ S), weight x.1 x.2 := by
        refine Finset.sum_le_sum_of_subset fun x hx => ?_
        obtain ⟨hx, hpos⟩ := Finset.mem_filter.mp hx
        exact (hpair x hx hpos).1

/-- What crosses one set of nodes counts towards another, with a pair that crosses that one alone
to spare. -/
theorem crossing_add_le {a b : Node} (ha : a ∈ S) (hb : b < n) (hbS : b ∉ S)
    (hout : a ∈ T → b ∈ T)
    (h : ∀ u ∈ T, ∀ v < n, v ∉ T → 0 < weight u v → u ∈ S ∧ v ∉ S) :
    crossing weight n T + weight a b ≤ crossing weight n S := by
  have hsum : crossing weight n S =
      crossing (fun u v => if u = a ∧ v = b then 0 else weight u v) n S + weight a b := by
    have hmem : (a, b) ∈ S ×ˢ (Finset.range n \ S) :=
      Finset.mem_product.mpr ⟨ha, Finset.mem_sdiff.mpr ⟨Finset.mem_range.mpr hb, hbS⟩⟩
    unfold crossing
    rw [← Finset.sum_erase_add _ (fun x => weight x.1 x.2) hmem,
      ← Finset.sum_erase_add _ (fun x => if x.1 = a ∧ x.2 = b then 0 else weight x.1 x.2) hmem,
      if_pos ⟨rfl, rfl⟩, Nat.add_zero]
    refine congrArg (· + weight a b) (Finset.sum_congr rfl fun x hx => ?_)
    rw [if_neg fun heq => (Finset.mem_erase.mp hx).1 (Prod.ext heq.1 heq.2)]
  rw [hsum]
  refine Nat.add_le_add_right (crossing_le fun u hu v hv hvT hpos => ?_) _
  obtain ⟨hu', hv'⟩ := h u hu v hv hvT hpos
  refine ⟨hu', hv', ?_⟩
  rw [if_neg]
  rintro ⟨rfl, rfl⟩
  exact hvT (hout hu)

/-- A set of nodes with the source and without the sink that no more crosses than any other such
set, and the least of those that as little crosses. -/
structure LeastCut (weight : Node → Node → Nat) (n : Nat) (source sink : Node) (S : Finset Node) :
    Prop where
  bound : S ⊆ Finset.range n
  source_mem : source ∈ S
  sink_not_mem : sink ∉ S
  le : ∀ T ⊆ Finset.range n, source ∈ T → sink ∉ T → crossing weight n S ≤ crossing weight n T
  least : ∀ T ⊆ Finset.range n, source ∈ T → sink ∉ T →
    crossing weight n T ≤ crossing weight n S → S ⊆ T

theorem Residual.crossing_add (h : Residual cap r source sink) (hS : S ⊆ Finset.range cap.size)
    (hsource : source ∈ S) (hsink : sink ∉ S) :
    crossing r.weight cap.size S + outflow cap source =
      crossing cap.weight cap.size S + outflow r source := by
  have hinner : ∀ weight : Node → Node → Nat,
      ∑ u ∈ S, ∑ v ∈ S, weight u v + ∑ u ∈ S, ∑ v ∈ S, weight u v =
        ∑ u ∈ S, ∑ v ∈ S, (weight u v + weight v u) := by
    intro weight
    simp only [Finset.sum_add_distrib]
    rw [Finset.sum_comm (f := fun u v => weight v u)]
  have hwithin := hinner r.weight
  simp only [h.paired] at hwithin
  rw [← hinner cap.weight] at hwithin
  have hothers : ∑ u ∈ S.erase source, outflow r u = ∑ u ∈ S.erase source, outflow cap u := by
    refine Finset.sum_congr rfl fun u hu => ?_
    obtain ⟨hne, hu⟩ := Finset.mem_erase.mp hu
    exact h.conserved u hne fun heq => hsink (heq ▸ hu)
  have hr := Finset.add_sum_erase S (outflow r) hsource
  have hcap := Finset.add_sum_erase S (outflow cap) hsource
  have hleaving : ∀ c : WeightedGraph, c.size = cap.size → ∑ u ∈ S, outflow c u =
      crossing c.weight cap.size S + ∑ u ∈ S, ∑ v ∈ S, c.weight u v := by
    intro c hsize
    unfold outflow
    rw [hsize]
    exact sum_leaving c.weight hS
  rw [hleaving r h.size] at hr
  rw [hleaving cap rfl] at hcap
  omega

theorem Residual.leastCut (h : Residual cap r source sink) (hsource : source < cap.size)
    (hblocked : ¬ ReflTransGen r.digraph.Joins source sink)
    (hS : ∀ v, v ∈ S ↔ ReflTransGen r.digraph.Joins source v) :
    LeastCut cap.weight cap.size source sink S := by
  have hbound : S ⊆ Finset.range cap.size := by
    intro v hv
    rw [Finset.mem_range]
    rcases ((hS v).mp hv).cases_tail with rfl | ⟨u, -, huv⟩
    · exact hsource
    · rw [← h.size]
      exact (WeightedGraph.lt_of_weight_pos huv).2
  have hstart : source ∈ S := (hS source).mpr ReflTransGen.refl
  have hend : sink ∉ S := fun hmem => hblocked ((hS sink).mp hmem)
  have hnone : crossing r.weight cap.size S = 0 := by
    refine Finset.sum_eq_zero fun x hx => ?_
    obtain ⟨hu, hv⟩ := Finset.mem_product.mp hx
    by_contra hpos
    refine (Finset.mem_sdiff.mp hv).2 ((hS x.2).mpr (((hS x.1).mp hu).tail ?_))
    exact Nat.pos_of_ne_zero hpos
  have hcount := h.crossing_add hbound hstart hend
  refine ⟨hbound, hstart, hend, fun T hT hsT htT => ?_, fun T hT hsT htT hle => ?_⟩
  · have hcountT := h.crossing_add hT hsT htT
    omega
  · have hcountT := h.crossing_add hT hsT htT
    have hzero : crossing r.weight cap.size T = 0 := by omega
    intro v hv
    -- nothing crosses `T` any more, so residual walks from the source stay within it
    have hstay : ReflTransGen r.digraph.Joins source v := (hS v).mp hv
    by_contra hvT
    obtain ⟨a, b, hab, ha, hb⟩ := exists_leaving (· ∈ T) hstay hsT hvT
    have hb' : b ∈ Finset.range cap.size := by
      rw [Finset.mem_range, ← h.size]
      exact (WeightedGraph.lt_of_weight_pos hab).2
    have hmem : (a, b) ∈ T ×ˢ (Finset.range cap.size \ T) :=
      Finset.mem_product.mpr ⟨ha, Finset.mem_sdiff.mpr ⟨hb', hb⟩⟩
    have hweight : r.weight a b = 0 := Finset.sum_eq_zero_iff.mp hzero (a, b) hmem
    have hjoin : 0 < r.weight a b := hab
    omega

theorem LeastCut.reached (h : LeastCut weight n source sink S) {u : Node} (hu : u ∈ S) :
    ReflTransGen (fun a b => 0 < weight a b) source u := by
  classical
  have hsub := h.least (S.filter fun v => ReflTransGen (fun a b => 0 < weight a b) source v)
    ((Finset.filter_subset _ S).trans h.bound)
    (Finset.mem_filter.mpr ⟨h.source_mem, ReflTransGen.refl⟩)
    (fun hmem => h.sink_not_mem (Finset.mem_filter.mp hmem).1) (crossing_le ?_)
  · exact (Finset.mem_filter.mp (hsub hu)).2
  · intro a ha b _ hb hpos
    obtain ⟨ha, hreach⟩ := Finset.mem_filter.mp ha
    exact ⟨ha, fun hmem => hb (Finset.mem_filter.mpr ⟨hmem, hreach.tail hpos⟩), Nat.le_refl _⟩

theorem exists_widened (weight : Node → Node → Nat) (n : Nat) (sink : Node) (S : Finset Node) :
    ∃ T : Finset Node, ∀ v, v ∈ T ↔
      v ∈ S ∨ v < n ∧ ¬ ReflTransGen (fun a b => 0 < weight a b) v sink := by
  classical
  refine ⟨S ∪ (Finset.range n).filter fun v => ¬ ReflTransGen (fun a b => 0 < weight a b) v sink,
    fun v => ?_⟩
  rw [Finset.mem_union, Finset.mem_filter, Finset.mem_range]

theorem LeastCut.reaches (h : LeastCut weight n source sink S) {u v : Node} (hu : u ∈ S)
    (hv : v < n) (hvS : v ∉ S) (hpos : 0 < weight u v) :
    ReflTransGen (fun a b => 0 < weight a b) v sink := by
  by_contra hstuck
  obtain ⟨T, hT⟩ := exists_widened weight n sink S
  have hbound : T ⊆ Finset.range n := by
    intro x hx
    rcases (hT x).mp hx with hx | hx
    · exact h.bound hx
    · exact Finset.mem_range.mpr hx.1
  have hend : sink ∉ T := by
    rw [hT, not_or, not_and_not_right]
    exact ⟨h.sink_not_mem, fun _ => ReflTransGen.refl⟩
  have hle := h.le T hbound ((hT source).mpr (Or.inl h.source_mem)) hend
  have hspare : crossing weight n T + weight u v ≤ crossing weight n S := by
    refine crossing_add_le hu hv hvS (fun _ => (hT v).mpr (Or.inr ⟨hv, hstuck⟩)) ?_
    intro a ha b hb hbT hab
    rw [hT, not_or, not_and_not_right] at hbT
    rw [hT] at ha
    exact ⟨ha.resolve_right fun hout => hout.2 ((hbT.2 hb).head hab), hbT.1⟩
  omega

end Crossing

end Flow

end SpecFence
