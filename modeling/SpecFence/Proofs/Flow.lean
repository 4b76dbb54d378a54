import Mathlib.Algebra.BigOperators.Group.Finset.Piecewise
import Mathlib.Algebra.Order.BigOperators.Group.Finset
import SpecFence.Cut.Flow
import SpecFence.Proofs.Layered
import SpecFence.Proofs.Result

/-!
# Saturation and minimum cuts

Pushing flow along a shortest path lowers what can still leave the source, because such a path
leaves the source once and never comes back.  So saturation ends with the sink out of reach, the
edges from the source side to the other side cut every walk from source to sink, and a cut of a
layered graph projects to edges of the base graph that separate the group.
-/

set_option autoImplicit false

namespace SpecFence

open Relation

namespace Flow

variable {r : WeightedGraph} {source sink : Node}

section Push

@[simp] theorem size_pushEdge (amount : Nat) (r : WeightedGraph) (e : Edge) :
    (pushEdge amount r e).size = r.size := by
  simp [pushEdge]

theorem size_foldl_pushEdge (amount : Nat) (path : List Edge) (r : WeightedGraph) :
    (path.foldl (pushEdge amount) r).size = r.size := by
  induction path generalizing r with
  | nil => rfl
  | cons e path ih => rw [List.foldl_cons, ih, size_pushEdge]

theorem weight_pushEdge {amount : Nat} {e : Edge} (hsrc : e.src < r.size) (hdst : e.dst < r.size)
    (a b : Node) :
    (pushEdge amount r e).weight a b =
      if a = e.dst ∧ b = e.src then r.weight e.dst e.src + amount
      else if a = e.src ∧ b = e.dst then r.weight e.src e.dst - amount
      else r.weight a b := by
  simp only [pushEdge]
  rw [WeightedGraph.weight_put (by simpa using hdst) (by simpa using hsrc),
    WeightedGraph.weight_put hsrc hdst]

theorem weight_foldl_pushEdge {amount : Nat} {path : List Edge}
    (hbound : ∀ e ∈ path, e.src < r.size ∧ e.dst < r.size)
    (havoid : ∀ e ∈ path, e.src ≠ source ∧ e.dst ≠ source) (b : Node) :
    (path.foldl (pushEdge amount) r).weight source b = r.weight source b := by
  induction path generalizing r with
  | nil => rfl
  | cons e path ih =>
    have he := hbound e List.mem_cons_self
    have hne := havoid e List.mem_cons_self
    have hstep : (pushEdge amount r e).weight source b = r.weight source b := by
      rw [weight_pushEdge he.1 he.2, if_neg (fun h => hne.2 h.1.symm),
        if_neg (fun h => hne.1 h.1.symm)]
    rw [List.foldl_cons, ih, hstep]
    · intro x hx
      rw [size_pushEdge]
      exact hbound x (List.mem_cons_of_mem e hx)
    · intro x hx
      exact havoid x (List.mem_cons_of_mem e hx)

end Push

section Trail

/-- A list of edges, the last one first, leads from the source to a node along edges that can take
more flow. -/
def Trail (r : WeightedGraph) (source : Node) : Node → List Edge → Prop
  | v, [] => v = source
  | v, e :: walk => e.dst = v ∧ 0 < r.weight e.src e.dst ∧ Trail r source e.src walk

theorem Trail.pos {v : Node} {walk : List Edge} (h : Trail r source v walk) :
    ∀ e ∈ walk, 0 < r.weight e.src e.dst := by
  induction walk generalizing v with
  | nil => simp
  | cons e walk ih =>
    intro x hx
    obtain ⟨-, hpos, hwalk⟩ := h
    rcases List.mem_cons.mp hx with rfl | hx
    · exact hpos
    · exact ih hwalk x hx

/-- A trail that visits no node twice leaves the source with its first edge and keeps away from it
then. -/
theorem Trail.split {v : Node} {walk : List Edge} (h : Trail r source v walk)
    (hnodup : (v :: walk.map Edge.src).Nodup) :
    (walk = [] ∧ v = source) ∨
      ∃ later first, walk = later ++ [first] ∧ first.src = source ∧ first.dst ≠ source ∧
        ∀ e ∈ later, e.src ≠ source ∧ e.dst ≠ source := by
  induction walk generalizing v with
  | nil => exact Or.inl ⟨rfl, h⟩
  | cons e walk ih =>
    right
    obtain ⟨hdst, -, hwalk⟩ := h
    rw [List.map_cons, List.nodup_cons] at hnodup
    obtain ⟨hv, hnodup⟩ := hnodup
    rcases ih hwalk hnodup with ⟨rfl, hsource⟩ | ⟨later, first, rfl, hsource, hfirst, hlater⟩
    · refine ⟨[], e, rfl, hsource, ?_, by simp⟩
      rw [hdst]
      rintro rfl
      exact hv (by simp [hsource])
    · have hsrc : source ∈ (later ++ [first]).map Edge.src := by simp [hsource]
      refine ⟨e :: later, first, rfl, hsource, hfirst, ?_⟩
      intro x hx
      rcases List.mem_cons.mp hx with rfl | hx
      · constructor
        · intro heq
          rw [heq] at hnodup
          exact (List.nodup_cons.mp hnodup).1 hsrc
        · rw [hdst]
          rintro rfl
          exact hv (List.mem_cons_of_mem _ hsrc)
      · exact hlater x hx

/-- What the queue of the path search carries: each entry is a trail, its edges leave closed nodes,
and no two of them leave the same node. -/
def Reached (r : WeightedGraph) (source : Node) (closed : Marks) (v : Node) (walk : List Edge) :
    Prop :=
  Trail r source v walk ∧ (∀ e ∈ walk, closed.has e.src = true) ∧ (walk.map Edge.src).Nodup

theorem carried_reached (r : WeightedGraph) (source sink : Node) :
    Search.Carried (fun u => (r.row u).keys.map fun v => ((⟨u, v⟩ : Edge), v)) (· == sink)
      (Reached r source) where
  close := by
    rintro closed u hu v walk ⟨htrail, hclosed, hnodup⟩
    refine ⟨htrail, ?_, hnodup⟩
    intro e he
    exact (Marks.has_set hu).mpr (Or.inr (hclosed e he))
  step := by
    rintro closed v hv walk hopen - ⟨htrail, hclosed, hnodup⟩ s w hmem
    obtain ⟨x, hx, heq⟩ := List.mem_map.mp hmem
    cases heq
    have hpos : 0 < r.weight v w := by
      obtain ⟨x, hweight⟩ := Option.isSome_iff_exists.mp (AscMap.mem_keys_iff.mp hx)
      unfold WeightedGraph.weight
      rw [hweight, Option.getD_some]
      exact (r.valid v w x hweight).1
    refine ⟨⟨rfl, hpos, htrail⟩, ?_, ?_⟩
    · intro e he
      rcases List.mem_cons.mp he with rfl | he
      · exact (Marks.has_set hv).mpr (Or.inl rfl)
      · exact (Marks.has_set hv).mpr (Or.inr (hclosed e he))
    · rw [List.map_cons, List.nodup_cons]
      refine ⟨?_, hnodup⟩
      intro hsrc
      obtain ⟨e, he, hev⟩ := List.mem_map.mp hsrc
      have hhas := hclosed e he
      rw [hev] at hhas
      exact hopen hhas

theorem augmentingPath?_trail {path : List Edge} (h : augmentingPath? r source sink = some path) :
    ∃ walk, path = walk.reverse ∧ Trail r source sink walk ∧
      (sink :: walk.map Edge.src).Nodup := by
  unfold augmentingPath? at h
  have hstart : ∀ v walk, (v, walk) ∈ [(source, ([] : List Edge))] →
      Reached r source (Array.replicate r.size false) v walk := by
    intro v walk hmem
    cases List.mem_singleton.mp hmem
    exact ⟨rfl, by simp, by simp⟩
  obtain ⟨closed, v, walk, -, hgoal, ⟨htrail, hclosed, hnodup⟩, hopen, rfl⟩ :=
    Search.shortest_some (carried_reached r source sink) _ _ hstart path h
  obtain rfl : v = sink := by simpa using hgoal
  refine ⟨walk, rfl, htrail, List.nodup_cons.mpr ⟨?_, hnodup⟩⟩
  intro hsrc
  obtain ⟨e, he, hev⟩ := List.mem_map.mp hsrc
  have hhas := hclosed e he
  rw [hev] at hhas
  exact hopen hhas

/-- A found path starts with an edge out of the source, keeps away from the source then, and all of
its edges can take more flow. -/
theorem augmentingPath?_some (hne : source ≠ sink) {path : List Edge}
    (h : augmentingPath? r source sink = some path) :
    ∃ first later, path = first :: later ∧ first.src = source ∧ first.dst ≠ source ∧
      (∀ e ∈ later, e.src ≠ source ∧ e.dst ≠ source) ∧
      ∀ e ∈ path, 0 < r.weight e.src e.dst := by
  obtain ⟨walk, rfl, htrail, hnodup⟩ := augmentingPath?_trail h
  rcases htrail.split hnodup with ⟨-, hsource⟩ | ⟨later, first, rfl, hfirst, hdst, hlater⟩
  · exact absurd hsource.symm hne
  · refine ⟨first, later.reverse, by simp, hfirst, hdst, ?_, ?_⟩
    · intro e he
      exact hlater e (List.mem_reverse.mp he)
    · intro e he
      exact htrail.pos e (List.mem_reverse.mp he)

theorem augmentingPath?_none (hsource : source < r.size)
    (h : augmentingPath? r source sink = none) : ¬ ReflTransGen r.digraph.Joins source sink := by
  unfold augmentingPath? at h
  obtain ⟨R, hstart, hstep, hnone⟩ := Search.shortest_replicate_none h
  have hR : ∀ v, ReflTransGen r.digraph.Joins source v → R v := by
    intro v hreach
    induction hreach with
    | refl => exact hstart source (by simp) hsource
    | @tail a b hab hjoin ih =>
      have hweight : 0 < r.weight a b := hjoin
      have hkey : b ∈ (r.row a).keys := by
        rw [AscMap.mem_keys_iff]
        unfold WeightedGraph.weight at hweight
        cases hget : (r.row a).get? b with
        | none =>
          rw [hget] at hweight
          simp at hweight
        | some w => rfl
      exact hstep a ⟨a, b⟩ b ih (List.mem_map.mpr ⟨b, hkey, rfl⟩)
        (WeightedGraph.lt_of_weight_pos hweight).2
  intro hreach
  have hgoal := hnone sink (hR sink hreach)
  simp at hgoal

end Trail

section Saturation

def outflow (r : WeightedGraph) (source : Node) : Nat :=
  ∑ v ∈ Finset.range r.size, r.weight source v

theorem bottleneck_le {first : Edge} {later : List Edge} :
    bottleneck r (first :: later) ≤ r.weight first.src first.dst := by
  cases later with
  | nil => exact Nat.le_refl _
  | cons e later => exact Nat.min_le_left _ _

theorem bottleneck_pos {path : List Edge} (hne : path ≠ [])
    (hpos : ∀ e ∈ path, 0 < r.weight e.src e.dst) : 0 < bottleneck r path := by
  induction path with
  | nil => exact absurd rfl hne
  | cons e path ih =>
    have he := hpos e List.mem_cons_self
    cases path with
    | nil => exact he
    | cons e' path =>
      have hrest := ih (by simp) fun x hx => hpos x (List.mem_cons_of_mem e hx)
      exact Nat.lt_min.mpr ⟨he, hrest⟩

theorem outflow_push_lt {amount : Nat} {first : Edge} {later : List Edge}
    (hamount : 0 < amount) (hle : amount ≤ r.weight first.src first.dst)
    (hsource : first.src = source) (hdst : first.dst ≠ source)
    (hlater : ∀ e ∈ later, e.src ≠ source ∧ e.dst ≠ source)
    (hpos : ∀ e ∈ first :: later, 0 < r.weight e.src e.dst) :
    outflow ((first :: later).foldl (pushEdge amount) r) source < outflow r source := by
  have hbound : ∀ e ∈ first :: later, e.src < r.size ∧ e.dst < r.size := by
    intro e he
    exact WeightedGraph.lt_of_weight_pos (hpos e he)
  obtain ⟨hsrcLt, hdstLt⟩ := hbound first List.mem_cons_self
  have hrow : ∀ b, ((first :: later).foldl (pushEdge amount) r).weight source b =
      if b = first.dst then r.weight source b - amount else r.weight source b := by
    intro b
    rw [List.foldl_cons, weight_foldl_pushEdge _ hlater, weight_pushEdge hsrcLt hdstLt,
      if_neg (fun h => hdst h.1.symm)]
    · by_cases hb : b = first.dst
      · rw [if_pos ⟨hsource.symm, hb⟩, if_pos hb, hsource, hb]
      · rw [if_neg (fun h => hb h.2), if_neg hb]
    · intro e he
      rw [size_pushEdge]
      exact hbound e (List.mem_cons_of_mem first he)
  unfold outflow
  rw [size_foldl_pushEdge]
  apply Finset.sum_lt_sum
  · intro b _
    rw [hrow]
    split
    · exact Nat.sub_le _ _
    · exact Nat.le_refl _
  · refine ⟨first.dst, Finset.mem_range.mpr hdstLt, ?_⟩
    rw [hrow, if_pos rfl]
    rw [hsource] at hle
    omega

theorem size_saturate (source sink : Node) (rounds : Nat) (r : WeightedGraph) :
    (saturate source sink rounds r).size = r.size := by
  induction rounds generalizing r with
  | zero => rfl
  | succ rounds ih =>
    rw [saturate]
    split
    · rfl
    · rfl
    · rw [ih, size_foldl_pushEdge]

theorem saturate_blocks (hne : source ≠ sink) (hsource : source < r.size) {rounds : Nat}
    (hrounds : outflow r source ≤ rounds) :
    ¬ ReflTransGen (saturate source sink rounds r).digraph.Joins source sink := by
  induction rounds generalizing r with
  | zero =>
    intro hreach
    rcases ReflTransGen.cases_head hreach with heq | ⟨v, hjoin, -⟩
    · exact hne heq
    · have hweight : 0 < r.weight source v := hjoin
      have hv := (WeightedGraph.lt_of_weight_pos hweight).2
      have hle : r.weight source v ≤ outflow r source :=
        Finset.single_le_sum (f := fun v => r.weight source v) (fun _ _ => Nat.zero_le _)
          (Finset.mem_range.mpr hv)
      omega
  | succ rounds ih =>
    rw [saturate]
    split
    · rename_i hpath
      exact augmentingPath?_none hsource hpath
    · rename_i hpath
      obtain ⟨first, later, hcons, -⟩ := augmentingPath?_some hne hpath
      cases hcons
    · rename_i e path hpath
      obtain ⟨first, later, hcons, hfirst, hdst, hlater, hpos⟩ := augmentingPath?_some hne hpath
      cases hcons
      have hlt := outflow_push_lt (bottleneck_pos (by simp) hpos) bottleneck_le hfirst hdst hlater
        hpos
      apply ih
      · rw [size_foldl_pushEdge]
        exact hsource
      · omega

/-- The values that a list of entries gives to the keys below a bound sum to no more than all values
of the list. -/
theorem sum_findEntry_le (entries : List (Node × Nat)) (n : Nat) :
    ∑ v ∈ Finset.range n, (AscMap.findEntry v entries).getD 0 ≤
      Weight.sum (entries.map Prod.snd) := by
  induction entries with
  | nil => simp [AscMap.findEntry, Weight.sum]
  | cons e entries ih =>
    obtain ⟨a, w⟩ := e
    have hstep : ∀ v ∈ Finset.range n, (AscMap.findEntry v ((a, w) :: entries)).getD 0 ≤
        (if v = a then w else 0) + (AscMap.findEntry v entries).getD 0 := by
      intro v _
      rw [AscMap.findEntry]
      by_cases hva : v = a
      · subst hva
        simp
      · have hne : compare v a ≠ .eq := fun h => hva (Std.LawfulEqOrd.compare_eq_iff_eq.mp h)
        rw [if_neg hne, if_neg hva, Nat.zero_add]
    have hsum := Finset.sum_le_sum hstep
    rw [Finset.sum_add_distrib, Finset.sum_ite_eq'] at hsum
    have hone : (if a ∈ Finset.range n then w else 0) ≤ w := by
      split <;> omega
    rw [List.map_cons, Weight.sum]
    omega

theorem outflow_le (r : WeightedGraph) (source : Node) :
    outflow r source ≤ Weight.sum ((r.row source).toList.map Prod.snd) :=
  sum_findEntry_le _ _

theorem size_putAll (r : WeightedGraph) (edges : List (Edge × Nat)) :
    (r.putAll edges).size = r.size := by
  unfold WeightedGraph.putAll
  induction edges generalizing r with
  | nil => rfl
  | cons e edges ih => rw [List.foldl_cons, ih, WeightedGraph.size_put]

theorem size_emptyFlow (g : Digraph) : (emptyFlow g).size = g.size := by
  unfold emptyFlow
  rw [size_putAll, WeightedGraph.size_withNodes]

theorem size_maximum (g : Digraph) (source sink : Node) :
    (maximum g source sink).size = g.size := by
  unfold maximum
  rw [size_saturate, size_emptyFlow]

theorem maximum_blocks {g : Digraph} (hne : source ≠ sink) (hsource : source < g.size) :
    ¬ ReflTransGen (maximum g source sink).digraph.Joins source sink := by
  apply saturate_blocks hne
  · rw [size_emptyFlow]
    exact hsource
  · exact outflow_le _ _

end Saturation

end Flow

section MinCut

variable {g : Digraph}

theorem exists_leaving {R : Node → Node → Prop} (inside : Node → Prop) {u v : Node}
    (h : ReflTransGen R u v) (hu : inside u) (hv : ¬ inside v) :
    ∃ a b, R a b ∧ inside a ∧ ¬ inside b := by
  induction h with
  | refl => exact absurd hu hv
  | @tail a b _ hab ih =>
    by_cases ha : inside a
    · exact ⟨a, b, hab, ha, hv⟩
    · exact ih ha

structure Blocks (g : Digraph) (source sink : Node) (edges : List Edge) : Prop where
  finite : ∀ e ∈ edges, 0 < g.weight e.src e.dst ∧ g.weight e.src e.dst < Weight.infinite
  blocked : ¬ ReflTransGen (g.Uncut (· ∈ edges)) source sink

theorem has_side (hg : g.Consistent) {source : Node} (hsource : source < g.size) {v : Node} :
    (g.reachableFrom [source]).has v = true ↔ ReflTransGen g.Joins source v := by
  rw [Digraph.has_reachableFrom hg]
  constructor
  · rintro ⟨s, hs, -, hreach⟩
    rw [List.mem_singleton.mp hs] at hreach
    exact hreach
  · intro hreach
    exact ⟨source, List.mem_singleton.mpr rfl, hsource, hreach⟩

theorem minCut_blocks (hg : g.Consistent) {source sink : Node} (hne : source ≠ sink)
    (hsource : source < g.size) {cancelled : Bool} {c : MinCut}
    (h : minCut g source sink cancelled = .ok c) : Blocks g source sink c.edges := by
  obtain ⟨-, -, h⟩ := Except.bind_eq_ok_iff.mp h
  have hflow := (Flow.maximum g source sink).digraph_consistent
  have hstart : source < (Flow.maximum g source sink).digraph.size := by
    have hsize : (Flow.maximum g source sink).digraph.size = g.size :=
      Flow.size_maximum g source sink
    rwa [hsize]
  simp only at h
  split at h
  · cases h
  · rename_i hfinite
    cases h
    constructor
    · intro e he
      obtain ⟨⟨e', w⟩, hmem, rfl⟩ := List.mem_map.mp he
      obtain ⟨hedge, -⟩ := List.mem_filter.mp hmem
      obtain ⟨hpos, hw⟩ := (hg.mem_succs _ _ _).mp (Digraph.mem_edges.mp hedge).2
      have hsmall : ¬ Weight.infinite ≤ w := by
        intro hle
        exact hfinite (List.any_eq_true.mpr ⟨_, hmem, decide_eq_true hle⟩)
      rw [hw]
      exact ⟨hpos, Nat.lt_of_not_le hsmall⟩
    · intro hreach
      obtain ⟨a, b, ⟨hjoin, huncut⟩, ha, hb⟩ := exists_leaving
        (ReflTransGen (Flow.maximum g source sink).digraph.Joins source) hreach
        ReflTransGen.refl (Flow.maximum_blocks hne hsource)
      apply huncut
      rw [← has_side hflow hstart] at ha hb
      refine List.mem_map.mpr ⟨(⟨a, b⟩, g.weight a b), List.mem_filter.mpr ⟨?_, ?_⟩, rfl⟩
      · exact Digraph.mem_edges.mpr ⟨hg.src_lt a b hjoin, (hg.mem_succs a b _).mpr ⟨hjoin, rfl⟩⟩
      · simpa [ha] using hb

/-- Edges of positive finite weight without which no walk visits the stages of a group. -/
structure Separates (g : Digraph) (group : WaypointGroup) (cut : Cut) : Prop where
  finite : ∀ e ∈ cut, 0 < g.weight e.src e.dst ∧ g.weight e.src e.dst < Weight.infinite
  separated : ¬ group.Satisfiable (g.Uncut (· ∈ cut))

theorem lifts_uncut {l : Layered} (hl : l.WellFormed) {edges : List Edge}
    (hfinite : ∀ e ∈ edges, l.weight e.src e.dst < Weight.infinite) :
    l.Lifts (l.base.Uncut (· ∈ edges.filterMap l.projectEdge))
      (l.digraph.Uncut (· ∈ edges)) := by
  have hedge : ∀ a b, l.Joined a b Weight.infinite → l.digraph.Uncut (· ∈ edges) a b := by
    intro a b hjoined
    refine ⟨?_, ?_⟩
    · have hpos := hjoined.pos
      rw [← hjoined.weight] at hpos
      exact hpos
    · intro hmem
      have hlt := hfinite _ hmem
      rw [hjoined.weight] at hlt
      exact Nat.lt_irrefl _ hlt
  constructor
  · intro u v huv
    exact hl.base.dst_lt u v huv.1
  · intro c u v hc hu huv
    have hv : v < l.base.size := hl.base.dst_lt u v huv.1
    refine ⟨?_, ?_⟩
    · have hpos : 0 < l.base.weight u v := huv.1
      rw [← Layered.weight_within hc hu hv] at hpos
      exact hpos
    · intro hmem
      apply huv.2
      refine List.mem_filterMap.mpr ⟨_, hmem, ?_⟩
      unfold Layered.projectEdge
      simp only
      rw [Layered.project_node hc hu, Layered.project_node hc hv]
      exact if_pos rfl
  · intro c u hc hu hmem
    exact hedge _ _ (.up hc hu hmem)
  · intro v hmem
    exact hedge _ _ (.enter hl.copies_pos (hl.first v hmem) hmem)
  · intro c u hc hu hmem
    exact hedge _ _ (.exit hc hu hmem)

theorem projectEdge_some {l : Layered} {e x : Edge} (h : l.projectEdge e = some x) :
    l.weight e.src e.dst = l.base.weight x.src x.dst := by
  unfold Layered.projectEdge at h
  split at h
  · rename_i c u d v hsrc hdst
    split at h
    · rename_i hcd
      cases h
      subst hcd
      obtain ⟨hc, hu, hsrc⟩ := Layered.of_project hsrc
      obtain ⟨-, hv, hdst⟩ := Layered.of_project hdst
      rw [hsrc, hdst, Layered.weight_within hc hu hv]
    · cases h
  · cases h

theorem minCutGroup_separates (hg : g.Consistent) {group : WaypointGroup}
    (hwell : group.WellPosed g.size) {cancelled : Bool} {cut : Cut}
    (h : minCutGroup g group cancelled = .ok cut) : Separates g group cut := by
  unfold minCutGroup at h
  split at h
  · rename_i hnarrow
    cases h
    constructor
    · intro e he
      exact absurd he (AscSet.not_mem_empty e)
    · intro hsatisfiable
      exact WaypointGroup.narrow?_none hg hwell hnarrow
        (hsatisfiable.mono fun a b hab => hab.1)
  · rename_i stages hnarrow
    obtain ⟨hlong, hbound, hthreads⟩ := WaypointGroup.narrow?_some hg hwell hnarrow
    obtain ⟨flow, hflow, hcut⟩ := Except.bind_eq_ok_iff.mp h
    cases hcut
    have hl := layered_wellFormed hg hlong hbound
    have hblocks := minCut_blocks (Layered.digraph_consistent hl) Layered.source_ne_sink
      (Nat.lt_add_of_pos_right (by decide)) hflow
    constructor
    · intro x hx
      obtain ⟨e, he, hproject⟩ := List.mem_filterMap.mp (AscSet.mem_ofList.mp hx)
      have hfinite := hblocks.finite e he
      have hweight := projectEdge_some hproject
      simp only at hweight
      rw [← hweight]
      exact hfinite
    · intro hsatisfiable
      apply hblocks.blocked
      refine (lifts_uncut hl fun e he => (hblocks.finite e he).2).source_reaches_sink hl ?_
      refine (hthreads _ (fun a b hab => hab.1) hsatisfiable).mono ?_
      rintro a b ⟨hjoin, huncut⟩
      exact ⟨hjoin, fun hmem => huncut (AscSet.mem_ofList.mpr hmem)⟩

end MinCut

end SpecFence
