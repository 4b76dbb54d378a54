import Mathlib.Logic.Relation
import SpecFence.Graph.Layered
import SpecFence.Proofs.Walk

/-!
# Layered copies read back

A layered node is either one node of one copy or lies outside all copies.  With that reading the
weights, the rows and the columns of a layered graph describe one edge map, and every walk of the
base graph through the stages lifts to a walk from the super source to the super sink.
-/

set_option autoImplicit false

namespace SpecFence

open Relation

namespace Layered

variable {l : Layered}

section Numbering

theorem node_lt {c v : Nat} (hc : c < l.copies) (hv : v < l.base.size) :
    l.node c v < l.copies * l.base.size := by
  have hrow : (c + 1) * l.base.size ≤ l.copies * l.base.size :=
    Nat.mul_le_mul_right _ hc
  rw [Nat.add_mul, Nat.one_mul] at hrow
  exact Nat.lt_of_lt_of_le (Nat.add_lt_add_left hv _) hrow

theorem project_node {c v : Nat} (hc : c < l.copies) (hv : v < l.base.size) :
    l.project (l.node c v) = some (c, v) := by
  have hpos : 0 < l.base.size := by omega
  have hdiv : l.node c v / l.base.size = c := by
    unfold node
    rw [Nat.mul_comm, Nat.mul_add_div hpos, Nat.div_eq_of_lt hv, Nat.add_zero]
  have hmod : l.node c v % l.base.size = v := by
    unfold node
    rw [Nat.mul_comm, Nat.mul_add_mod, Nat.mod_eq_of_lt hv]
  unfold project
  rw [if_pos (node_lt hc hv), hdiv, hmod]

theorem of_project {n c v : Nat} (h : l.project n = some (c, v)) :
    c < l.copies ∧ v < l.base.size ∧ n = l.node c v := by
  unfold project at h
  split at h
  · rename_i hlt
    cases h
    have hpos : 0 < l.base.size := by
      rcases Nat.eq_zero_or_pos l.base.size with hzero | hpos
      · rw [hzero, Nat.mul_zero] at hlt
        exact absurd hlt (Nat.not_lt_zero n)
      · exact hpos
    refine ⟨Nat.div_lt_of_lt_mul (by rwa [Nat.mul_comm]), Nat.mod_lt _ hpos, ?_⟩
    unfold node
    rw [Nat.mul_comm]
    exact (Nat.div_add_mod n l.base.size).symm
  · cases h

theorem project_eq_none {n : Nat} : l.project n = none ↔ l.copies * l.base.size ≤ n := by
  unfold project
  rw [← Nat.not_lt]
  simp

theorem project_source : l.project l.source = none :=
  project_eq_none.mpr (Nat.le_refl _)

theorem project_sink : l.project l.sink = none :=
  project_eq_none.mpr (Nat.le_succ _)

theorem source_ne_sink : l.source ≠ l.sink :=
  Nat.ne_of_lt (Nat.lt_succ_self _)

end Numbering

section Weights

theorem weight_within {c u v : Nat} (hc : c < l.copies) (hu : u < l.base.size)
    (hv : v < l.base.size) : l.weight (l.node c u) (l.node c v) = l.base.weight u v := by
  simp [weight, project_node hc hu, project_node hc hv]

theorem weight_between {c d u v : Nat} (hc : c < l.copies) (hu : u < l.base.size)
    (hd : d < l.copies) (hv : v < l.base.size) (hcd : c ≠ d) :
    l.weight (l.node c u) (l.node d v) =
      if d = c + 1 ∧ u = v ∧ l.links c u then Weight.infinite else 0 := by
  simp [weight, project_node hc hu, project_node hd hv, hcd]

theorem weight_enter {a c v : Nat} (ha : l.project a = none) (hc : c < l.copies)
    (hv : v < l.base.size) :
    l.weight a (l.node c v) =
      if a = l.source ∧ c = 0 ∧ v ∈ l.stage 0 then Weight.infinite else 0 := by
  simp [weight, ha, project_node hc hv]

theorem weight_exit {b c u : Nat} (hb : l.project b = none) (hc : c < l.copies)
    (hu : u < l.base.size) :
    l.weight (l.node c u) b = if b = l.sink ∧ l.exits c u then Weight.infinite else 0 := by
  simp [weight, hb, project_node hc hu]

theorem weight_outside {a b : Nat} (ha : l.project a = none) (hb : l.project b = none) :
    l.weight a b = 0 := by
  simp [weight, ha, hb]

theorem node_or_outside (l : Layered) (n : Node) :
    (∃ c v, c < l.copies ∧ v < l.base.size ∧ n = l.node c v) ∨ l.project n = none := by
  cases h : l.project n with
  | none => exact Or.inr rfl
  | some x => exact Or.inl ⟨x.1, x.2, of_project h⟩

end Weights

/-- The base graph is consistent, there are two stages or more, and the first and the last stage lie
within the base graph. -/
structure WellFormed (l : Layered) : Prop where
  base : l.base.Consistent
  long : 2 ≤ l.stages.length
  first : ∀ v ∈ l.stage 0, v < l.base.size
  last : ∀ v ∈ l.stage l.copies, v < l.base.size

theorem WellFormed.copies_pos (h : l.WellFormed) : 0 < l.copies := by
  have hlong := h.long
  unfold copies
  omega

theorem infinite_pos : 0 < Weight.infinite := by decide

section Edges

/-- The edges of a layered graph: base edges within each copy, and infinite edges to the next copy,
from the super source and to the super sink. -/
inductive Joined (l : Layered) : Node → Node → Nat → Prop where
  | within {c u v w : Nat} (hc : c < l.copies) (hu : u < l.base.size) (hv : v < l.base.size)
      (hw : 0 < w ∧ l.base.weight u v = w) : Joined l (l.node c u) (l.node c v) w
  | up {c u : Nat} (hc : c + 1 < l.copies) (hu : u < l.base.size) (hmem : u ∈ l.stage (c + 1)) :
      Joined l (l.node c u) (l.node (c + 1) u) Weight.infinite
  | enter {v : Nat} (hc : 0 < l.copies) (hv : v < l.base.size) (hmem : v ∈ l.stage 0) :
      Joined l l.source (l.node 0 v) Weight.infinite
  | exit {c u : Nat} (hc : c + 1 = l.copies) (hu : u < l.base.size)
      (hmem : u ∈ l.stage l.copies) : Joined l (l.node c u) l.sink Weight.infinite

theorem links_iff {c v : Nat} :
    l.links c v = true ↔ c + 1 < l.copies ∧ v ∈ l.stage (c + 1) := by
  simp [links]

theorem exits_iff {c v : Nat} :
    l.exits c v = true ↔ c + 1 = l.copies ∧ v ∈ l.stage l.copies := by
  simp [exits]

theorem Joined.pos {a b : Node} {w : Nat} (h : l.Joined a b w) : 0 < w := by
  cases h with
  | within _ _ _ hw => exact hw.1
  | up => exact infinite_pos
  | enter => exact infinite_pos
  | exit => exact infinite_pos

theorem Joined.weight {a b : Node} {w : Nat} (h : l.Joined a b w) : l.weight a b = w := by
  cases h with
  | within hc hu hv hw =>
    rw [weight_within hc hu hv]
    exact hw.2
  | @up c u hc hu hmem =>
    rw [weight_between (by omega) hu hc hu (by omega), if_pos ⟨rfl, rfl, links_iff.mpr ⟨hc, hmem⟩⟩]
  | enter hc hv hmem => rw [weight_enter project_source hc hv, if_pos ⟨rfl, rfl, hmem⟩]
  | @exit c u hc hu hmem =>
    rw [weight_exit project_sink (by omega) hu, if_pos ⟨rfl, exits_iff.mpr ⟨hc, hmem⟩⟩]

theorem joined_of_weight {a b : Node} (h : 0 < l.weight a b) : l.Joined a b (l.weight a b) := by
  rcases l.node_or_outside a with ⟨c, u, hc, hu, rfl⟩ | ha
  · rcases l.node_or_outside b with ⟨d, v, hd, hv, rfl⟩ | hb
    · by_cases hcd : c = d
      · subst hcd
        rw [weight_within hc hu hv] at h ⊢
        exact .within hc hu hv ⟨h, rfl⟩
      · rw [weight_between hc hu hd hv hcd] at h ⊢
        split at h
        · rename_i hlink
          obtain ⟨rfl, rfl, hlink⟩ := hlink
          rw [if_pos ⟨rfl, rfl, hlink⟩]
          exact .up hd hu (links_iff.mp hlink).2
        · omega
    · rw [weight_exit hb hc hu] at h ⊢
      split at h
      · rename_i hexit
        obtain ⟨rfl, hexit⟩ := hexit
        rw [if_pos ⟨rfl, hexit⟩]
        exact .exit (exits_iff.mp hexit).1 hu (exits_iff.mp hexit).2
      · omega
  · rcases l.node_or_outside b with ⟨d, v, hd, hv, rfl⟩ | hb
    · rw [weight_enter ha hd hv] at h ⊢
      split at h
      · rename_i henter
        obtain ⟨rfl, rfl, henter⟩ := henter
        rw [if_pos ⟨rfl, rfl, henter⟩]
        exact .enter hd hv henter
      · omega
    · rw [weight_outside ha hb] at h
      omega

theorem joined_iff {a b : Node} {w : Nat} : l.Joined a b w ↔ 0 < w ∧ l.weight a b = w := by
  constructor
  · intro h
    exact ⟨h.pos, h.weight⟩
  · rintro ⟨hpos, rfl⟩
    exact joined_of_weight hpos

theorem Joined.src_lt {a b : Node} {w : Nat} (h : l.Joined a b w) : a < l.size := by
  cases h with
  | within hc hu => exact Nat.lt_add_right 2 (node_lt hc hu)
  | @up c u hc hu => exact Nat.lt_add_right 2 (node_lt (Nat.lt_of_succ_lt hc) hu)
  | enter => exact Nat.lt_add_of_pos_right (by decide)
  | @exit c u hc hu =>
    have hlt : c < l.copies := by omega
    exact Nat.lt_add_right 2 (node_lt hlt hu)

theorem Joined.dst_lt {a b : Node} {w : Nat} (h : l.Joined a b w) : b < l.size := by
  cases h with
  | within hc _ hv => exact Nat.lt_add_right 2 (node_lt hc hv)
  | up hc hu => exact Nat.lt_add_right 2 (node_lt hc hu)
  | enter hc hv => exact Nat.lt_add_right 2 (node_lt hc hv)
  | exit => exact Nat.lt_succ_self _

end Edges

section Rows

theorem succs_node {c u : Nat} (hc : c < l.copies) (hu : u < l.base.size) :
    l.succs (l.node c u) =
      ((l.base.succs u).map fun (v, w) => (l.node c v, w))
        ++ (if l.links c u then [(l.node (c + 1) u, Weight.infinite)] else [])
        ++ (if l.exits c u then [(l.sink, Weight.infinite)] else []) := by
  unfold succs
  rw [project_node hc hu]

theorem preds_node {d v : Nat} (hd : d < l.copies) (hv : v < l.base.size) :
    l.preds (l.node d v) =
      (if 0 < d && l.links (d - 1) v then [(l.node (d - 1) v, Weight.infinite)] else [])
        ++ ((l.base.preds v).map fun (u, w) => (l.node d u, w))
        ++ (if d = 0 ∧ v ∈ l.stage 0 then [(l.source, Weight.infinite)] else []) := by
  unfold preds
  rw [project_node hd hv]

theorem succs_source :
    l.succs l.source = (l.stage 0).toList.map fun v => (l.node 0 v, Weight.infinite) := by
  unfold succs
  rw [project_source]
  exact if_pos rfl

theorem preds_sink :
    l.preds l.sink =
      (l.stage l.copies).toList.map fun u => (l.node (l.copies - 1) u, Weight.infinite) := by
  unfold preds
  rw [project_sink]
  exact if_pos rfl

theorem succs_outside {a : Node} (ha : l.project a = none) (hne : a ≠ l.source) :
    l.succs a = [] := by
  unfold succs
  rw [ha]
  exact if_neg hne

theorem preds_outside {b : Node} (hb : l.project b = none) (hne : b ≠ l.sink) :
    l.preds b = [] := by
  unfold preds
  rw [hb]
  exact if_neg hne

theorem mem_succs_iff (h : l.WellFormed) {a b : Node} {w : Nat} :
    (b, w) ∈ l.succs a ↔ l.Joined a b w := by
  constructor
  · intro hmem
    rcases l.node_or_outside a with ⟨c, u, hc, hu, rfl⟩ | ha
    · rw [succs_node hc hu, List.mem_append, List.mem_append] at hmem
      rcases hmem with (hbase | hlink) | hexit
      · obtain ⟨⟨v, x⟩, hv, heq⟩ := List.mem_map.mp hbase
        cases heq
        have hw := (h.base.mem_succs u v w).mp hv
        exact .within hc hu (h.base.dst_lt u v (by omega)) hw
      · split at hlink
        · rename_i hlinks
          cases List.mem_singleton.mp hlink
          exact .up (links_iff.mp hlinks).1 hu (links_iff.mp hlinks).2
        · exact absurd hlink List.not_mem_nil
      · split at hexit
        · rename_i hexits
          cases List.mem_singleton.mp hexit
          exact .exit (exits_iff.mp hexits).1 hu (exits_iff.mp hexits).2
        · exact absurd hexit List.not_mem_nil
    · by_cases hsource : a = l.source
      · rw [hsource, succs_source] at hmem
        obtain ⟨v, hv, heq⟩ := List.mem_map.mp hmem
        cases heq
        rw [hsource]
        exact .enter h.copies_pos (h.first v hv) hv
      · rw [succs_outside ha hsource] at hmem
        exact absurd hmem List.not_mem_nil
  · intro hjoined
    cases hjoined with
    | @within c u v w hc hu hv hw =>
      rw [succs_node hc hu, List.mem_append, List.mem_append]
      exact Or.inl (Or.inl (List.mem_map.mpr ⟨(v, w), (h.base.mem_succs u v w).mpr hw, rfl⟩))
    | @up c u hc hu hmem =>
      rw [succs_node (Nat.lt_of_succ_lt hc) hu, if_pos (links_iff.mpr ⟨hc, hmem⟩)]
      simp
    | enter hc hv hmem =>
      rw [succs_source]
      exact List.mem_map.mpr ⟨_, hmem, rfl⟩
    | @exit c u hc hu hmem =>
      rw [succs_node (by omega) hu, if_pos (exits_iff.mpr ⟨hc, hmem⟩)]
      simp

theorem mem_preds_iff (h : l.WellFormed) {a b : Node} {w : Nat} :
    (a, w) ∈ l.preds b ↔ l.Joined a b w := by
  constructor
  · intro hmem
    rcases l.node_or_outside b with ⟨d, v, hd, hv, rfl⟩ | hb
    · rw [preds_node hd hv, List.mem_append, List.mem_append] at hmem
      rcases hmem with (hlink | hbase) | henter
      · split at hlink
        · rename_i hlinks
          rw [Bool.and_eq_true, decide_eq_true_eq] at hlinks
          cases List.mem_singleton.mp hlink
          obtain ⟨c, rfl⟩ : ∃ c, d = c + 1 := ⟨d - 1, by omega⟩
          exact .up hd hv (links_iff.mp hlinks.2).2
        · exact absurd hlink List.not_mem_nil
      · obtain ⟨⟨u, x⟩, hu, heq⟩ := List.mem_map.mp hbase
        cases heq
        have hw := (h.base.mem_preds u v w).mp hu
        exact .within hd (h.base.src_lt u v (by omega)) hv hw
      · split at henter
        · rename_i hfirst
          cases List.mem_singleton.mp henter
          rw [hfirst.1]
          exact .enter h.copies_pos hv hfirst.2
        · exact absurd henter List.not_mem_nil
    · by_cases hsink : b = l.sink
      · rw [hsink, preds_sink] at hmem
        obtain ⟨u, hu, heq⟩ := List.mem_map.mp hmem
        cases heq
        have hpos := h.copies_pos
        rw [hsink]
        exact .exit (by omega) (h.last u hu) hu
      · rw [preds_outside hb hsink] at hmem
        exact absurd hmem List.not_mem_nil
  · intro hjoined
    cases hjoined with
    | @within c u v w hc hu hv hw =>
      rw [preds_node hc hv, List.mem_append, List.mem_append]
      exact Or.inl (Or.inr (List.mem_map.mpr ⟨(u, w), (h.base.mem_preds u v w).mpr hw, rfl⟩))
    | @up c u hc hu hmem =>
      have hlinks : (0 < c + 1 && l.links (c + 1 - 1) u) = true := by
        rw [Nat.add_sub_cancel, links_iff.mpr ⟨hc, hmem⟩]
        simp
      rw [preds_node hc hu, if_pos hlinks]
      simp
    | enter hc hv hmem =>
      rw [preds_node hc hv]
      simp [hmem]
    | @exit c u hc hu hmem =>
      rw [preds_sink, ← hc, Nat.add_sub_cancel]
      rw [← hc] at hmem
      exact List.mem_map.mpr ⟨_, hmem, rfl⟩

theorem ascending_iff_lt {ns : List Nat} : Ascending ns ↔ ns.Pairwise (· < ·) := by
  unfold Ascending
  constructor
  · intro h
    exact h.imp Nat.compare_eq_lt.mp
  · intro h
    exact h.imp Nat.compare_eq_lt.mpr

theorem ascending_copy {c : Nat} {ns : List Node} (h : Ascending ns) :
    (ns.map (l.node c)).Pairwise (· < ·) := by
  rw [List.pairwise_map]
  exact (ascending_iff_lt.mp h).imp fun hlt => Nat.add_lt_add_left hlt _

theorem next_ascending (h : l.WellFormed) (a : Node) : Ascending ((l.succs a).map Prod.fst) := by
  rw [ascending_iff_lt]
  rcases l.node_or_outside a with ⟨c, u, hc, hu, rfl⟩ | ha
  · have hbase : ((l.base.succs u).map fun (v, w) => (l.node c v, w)).map Prod.fst =
        (l.base.next u).map (l.node c) := by
      simp [Digraph.next]
    have hbelow : ∀ x ∈ (l.base.next u).map (l.node c), ∃ v < l.base.size, x = l.node c v := by
      intro x hx
      obtain ⟨v, hv, rfl⟩ := List.mem_map.mp hx
      exact ⟨v, h.base.dst_lt u v ((Digraph.mem_next h.base).mp hv), rfl⟩
    rw [succs_node hc hu, List.map_append, List.map_append, hbase, List.pairwise_append,
      List.pairwise_append]
    refine ⟨⟨ascending_copy (h.base.succs_ascending u), ?_, ?_⟩, ?_, ?_⟩
    · split <;> simp
    · intro x hx y hy
      obtain ⟨v, hv, rfl⟩ := hbelow x hx
      split at hy
      · rw [List.map_cons, List.map_nil, List.mem_singleton] at hy
        rw [hy]
        have hrow : l.node c v < (c + 1) * l.base.size := by
          rw [Nat.add_mul, Nat.one_mul]
          exact Nat.add_lt_add_left hv _
        exact Nat.lt_of_lt_of_le hrow (Nat.le_add_right _ _)
      · exact absurd hy List.not_mem_nil
    · split <;> simp
    · intro x hx y hy
      have hsink : y = l.sink := by
        split at hy
        · simpa using hy
        · exact absurd hy List.not_mem_nil
      have hx : ∃ d v, d < l.copies ∧ v < l.base.size ∧ x = l.node d v := by
        rcases List.mem_append.mp hx with hx | hx
        · obtain ⟨v, hv, rfl⟩ := hbelow x hx
          exact ⟨c, v, hc, hv, rfl⟩
        · split at hx
          · rename_i hlinks
            exact ⟨c + 1, u, (links_iff.mp hlinks).1, hu, by simpa using hx⟩
          · exact absurd hx List.not_mem_nil
      obtain ⟨d, v, hd, hv, rfl⟩ := hx
      rw [hsink]
      exact Nat.lt_succ_of_lt (node_lt hd hv)
  · by_cases hsource : a = l.source
    · rw [hsource, succs_source, List.map_map]
      exact ascending_copy (l.stage 0).ascending
    · rw [succs_outside ha hsource]
      exact List.Pairwise.nil

theorem prior_ascending (h : l.WellFormed) (b : Node) : Ascending ((l.preds b).map Prod.fst) := by
  rw [ascending_iff_lt]
  rcases l.node_or_outside b with ⟨d, v, hd, hv, rfl⟩ | hb
  · have hbase : ((l.base.preds v).map fun (u, w) => (l.node d u, w)).map Prod.fst =
        (l.base.prior v).map (l.node d) := by
      simp [Digraph.prior]
    have hbelow : ∀ x ∈ (l.base.prior v).map (l.node d), ∃ u < l.base.size, x = l.node d u := by
      intro x hx
      obtain ⟨u, hu, rfl⟩ := List.mem_map.mp hx
      exact ⟨u, h.base.src_lt u v ((Digraph.mem_prior h.base).mp hu), rfl⟩
    rw [preds_node hd hv, List.map_append, List.map_append, hbase, List.pairwise_append,
      List.pairwise_append]
    refine ⟨⟨?_, ascending_copy (h.base.preds_ascending v), ?_⟩, ?_, ?_⟩
    · split <;> simp
    · intro x hx y hy
      obtain ⟨u, hu, rfl⟩ := hbelow y hy
      split at hx
      · rename_i hlinks
        rw [Bool.and_eq_true, decide_eq_true_eq] at hlinks
        obtain ⟨c, rfl⟩ : ∃ c, d = c + 1 := ⟨d - 1, by omega⟩
        rw [List.map_cons, List.map_nil, List.mem_singleton, Nat.add_sub_cancel] at hx
        rw [hx]
        have hrow : l.node c v < (c + 1) * l.base.size := by
          rw [Nat.add_mul, Nat.one_mul]
          exact Nat.add_lt_add_left hv _
        exact Nat.lt_of_lt_of_le hrow (Nat.le_add_right _ _)
      · exact absurd hx List.not_mem_nil
    · split <;> simp
    · intro x hx y hy
      have hsource : y = l.source := by
        split at hy
        · simpa using hy
        · exact absurd hy List.not_mem_nil
      have hx : ∃ c u, c < l.copies ∧ u < l.base.size ∧ x = l.node c u := by
        rcases List.mem_append.mp hx with hx | hx
        · split at hx
          · exact ⟨d - 1, v, by omega, hv, by simpa using hx⟩
          · exact absurd hx List.not_mem_nil
        · obtain ⟨u, hu, rfl⟩ := hbelow x hx
          exact ⟨d, u, hd, hu, rfl⟩
      obtain ⟨c, u, hc, hu, rfl⟩ := hx
      rw [hsource]
      exact node_lt hc hu
  · by_cases hsink : b = l.sink
    · rw [hsink, preds_sink, List.map_map]
      exact ascending_copy (l.stage l.copies).ascending
    · rw [preds_outside hb hsink]
      exact List.Pairwise.nil

theorem digraph_consistent (h : l.WellFormed) : l.digraph.Consistent where
  mem_succs _ _ _ := (mem_succs_iff h).trans joined_iff
  mem_preds _ _ _ := (mem_preds_iff h).trans joined_iff
  succs_ascending := next_ascending h
  preds_ascending := prior_ascending h
  src_lt _ _ hpos := (joined_of_weight hpos).src_lt
  dst_lt _ _ hpos := (joined_of_weight hpos).dst_lt

end Rows

section Lifting

variable {Q R : Node → Node → Prop}

/-- Steps of a layered relation follow the base steps within each copy and the edges between and
around the copies. -/
structure Lifts (l : Layered) (Q R : Node → Node → Prop) : Prop where
  bound : ∀ u v, Q u v → v < l.base.size
  within : ∀ c u v, c < l.copies → u < l.base.size → Q u v → R (l.node c u) (l.node c v)
  up : ∀ c u, c + 1 < l.copies → u < l.base.size → u ∈ l.stage (c + 1) →
    R (l.node c u) (l.node (c + 1) u)
  enter : ∀ v, v ∈ l.stage 0 → R l.source (l.node 0 v)
  exit : ∀ c u, c + 1 = l.copies → u < l.base.size → u ∈ l.stage l.copies →
    R (l.node c u) l.sink

theorem Lifts.reach_within (h : l.Lifts Q R) {c u v : Nat} (hc : c < l.copies)
    (hu : u < l.base.size) (huv : ReflTransGen Q u v) :
    v < l.base.size ∧ ReflTransGen R (l.node c u) (l.node c v) := by
  induction huv with
  | refl => exact ⟨hu, ReflTransGen.refl⟩
  | tail _ hstep ih =>
    obtain ⟨hlt, hreach⟩ := ih
    exact ⟨h.bound _ _ hstep, hreach.tail (h.within c _ _ hc hlt hstep)⟩

theorem Lifts.reach_sink (h : l.Lifts Q R) {rest : List NodeSet} {c u : Nat}
    (hrest : l.stages.drop (c + 1) = rest) (hc : c < l.copies) (hu : u < l.base.size)
    (hthreads : Threads Q (· ∈ ·) u rest) : ReflTransGen R (l.node c u) l.sink := by
  have hlength : c + 1 < l.stages.length := by
    unfold copies at hc
    omega
  induction rest generalizing c u with
  | nil =>
    rw [List.drop_eq_nil_iff] at hrest
    omega
  | cons s rest ih =>
    obtain ⟨v, huv, hv, hnext⟩ := hthreads
    rw [List.drop_eq_getElem_cons hlength] at hrest
    have hs : l.stage (c + 1) = s := by
      unfold stage
      rw [List.getElem?_eq_getElem hlength, Option.getD_some]
      exact (List.cons.inj hrest).1
    obtain ⟨hlt, hreach⟩ := h.reach_within hc hu huv
    by_cases hlast : c + 1 = l.copies
    · rw [← hs, hlast] at hv
      exact hreach.tail (h.exit c v hlast hlt hv)
    · have hnextCopy : c + 1 < l.copies := by omega
      have hup := h.up c v hnextCopy hlt (by rw [hs]; exact hv)
      have hlong : c + 1 + 1 < l.stages.length := by
        unfold copies at hnextCopy
        omega
      exact (hreach.tail hup).trans
        (ih (List.cons.inj hrest).2 hnextCopy hlt hnext hlong)

/-- A walk of the base graph through the stages lifts to a walk from the super source to the super
sink. -/
theorem Lifts.source_reaches_sink (h : l.Lifts Q R) (hl : l.WellFormed)
    (hthreaded : Threaded Q (· ∈ ·) l.stages) : ReflTransGen R l.source l.sink := by
  obtain ⟨first, rest, u, hstages, hu, hthreads⟩ := hthreaded
  have hfirst : l.stage 0 = first := by
    simp [stage, hstages]
  have hmem : u ∈ l.stage 0 := by
    rw [hfirst]
    exact hu
  refine ReflTransGen.head (h.enter u hmem) ?_
  exact h.reach_sink (by rw [hstages]; rfl) hl.copies_pos (hl.first u hmem) hthreads

end Lifting

end Layered

section Along

variable {g : Digraph} {stages : List NodeSet}

theorem layered_wellFormed (hg : g.Consistent) {stages : List NodeSet} (hlong : 2 ≤ stages.length)
    (hbound : ∀ s ∈ stages, ∀ v ∈ s, v < g.size) : (⟨g, stages⟩ : Layered).WellFormed := by
  have hstage : ∀ i, ∀ v ∈ (⟨g, stages⟩ : Layered).stage i, v < g.size := by
    intro i v hv
    unfold Layered.stage at hv
    simp only at hv
    cases hs : stages[i]? with
    | none =>
      rw [hs, Option.getD_none] at hv
      exact absurd hv (AscSet.not_mem_empty v)
    | some s =>
      rw [hs, Option.getD_some] at hv
      exact hbound s (List.mem_of_getElem? hs) v hv
  exact ⟨hg, hlong, hstage 0, hstage _⟩

theorem along?_eq_some (hlong : 2 ≤ stages.length) (hbound : ∀ s ∈ stages, ∀ v ∈ s, v < g.size) :
    Layered.along? g stages = some ⟨g, stages⟩ := by
  have hne : stages ≠ [] := by
    rintro rfl
    simp at hlong
  have hends : ∀ s ∈ [stages.head hne, stages.getLast hne], ∀ v ∈ s.toList, v < g.size := by
    simp only [List.mem_cons, List.not_mem_nil, or_false]
    rintro s (rfl | rfl)
    · exact hbound _ (List.head_mem hne)
    · exact hbound _ (List.getLast_mem hne)
  unfold Layered.along?
  rw [List.head?_eq_some_head hne, List.getLast?_eq_some_getLast hne]
  exact if_pos ⟨hlong, hends⟩

namespace Layered

variable {l : Layered}

theorem project_eq_some_iff {n c v : Nat} :
    l.project n = some (c, v) ↔ c < l.copies ∧ v < l.base.size ∧ n = l.node c v := by
  constructor
  · exact of_project
  · rintro ⟨hc, hv, rfl⟩
    exact project_node hc hv

theorem project_eq_none_iff_end {n : Nat} (hn : n < l.size) :
    l.project n = none ↔ n = l.source ∨ n = l.sink := by
  rw [project_eq_none]
  unfold size at hn
  unfold source sink
  omega

/-- A graph whose queries agree, layered along two stages or more of its nodes, has queries that
agree: an edge has a weight exactly when it is listed at its source and exactly when it is listed at
its destination.  The lists are strictly ascending and list nodes of the layered graph.  Each node
of the layered graph but the super source and the super sink is one copy of one base node. -/
theorem along_consistent (base : Digraph) (hbase : base.Consistent) (stages : List NodeSet)
    (hlong : 2 ≤ stages.length) (hbound : ∀ s ∈ stages, ∀ v ∈ s, v < base.size) :
    ∃ l, along? base stages = some l ∧ l.base = base ∧ l.stages = stages ∧
      (∀ s d w, 0 < w →
        (l.digraph.weight s d = w ↔ (d, w) ∈ l.digraph.succs s) ∧
        ((d, w) ∈ l.digraph.succs s ↔ (s, w) ∈ l.digraph.preds d)) ∧
      (∀ n, (l.digraph.next n).Pairwise (· < ·) ∧ (l.digraph.prior n).Pairwise (· < ·)) ∧
      (∀ n m, m ∈ l.digraph.next n ∨ m ∈ l.digraph.prior n → m < l.digraph.size) ∧
      ∀ n < l.digraph.size,
        (∀ c v, l.project n = some (c, v) ↔ c < l.copies ∧ v < base.size ∧ n = l.node c v) ∧
        (l.project n = none ↔ n = l.source ∨ n = l.sink) := by
  have hl := layered_wellFormed hbase hlong hbound
  have hconsistent := digraph_consistent hl
  refine ⟨⟨base, stages⟩, along?_eq_some hlong hbound, rfl, rfl, ?_, ?_, ?_, ?_⟩
  · intro s d w hw
    rw [hconsistent.mem_succs, hconsistent.mem_preds]
    exact ⟨(and_iff_right hw).symm, Iff.rfl⟩
  · intro n
    exact ⟨ascending_iff_lt.mp (hconsistent.succs_ascending n),
      ascending_iff_lt.mp (hconsistent.preds_ascending n)⟩
  · rintro n m (hm | hm)
    · exact hconsistent.dst_lt n m ((Digraph.mem_next hconsistent).mp hm)
    · exact hconsistent.src_lt m n ((Digraph.mem_prior hconsistent).mp hm)
  · intro n hn
    exact ⟨fun c v => project_eq_some_iff, project_eq_none_iff_end hn⟩

def spin : WeightedGraph :=
  (WeightedGraph.withNodes 2).putAll [(⟨0, 1⟩, 4), (⟨1, 0⟩, 3), (⟨1, 1⟩, 2)]

def thereAndBack : List NodeSet := [.singleton 0, .singleton 1, .singleton 0]

/-- Copy 0 of node 1 leads to the nodes beside it in its copy and up to copy 1 of itself. -/
theorem along_spin : ∃ l, along? spin.digraph thereAndBack = some l ∧
    l.digraph.succs (l.node 0 1) = [(0, 3), (1, 2), (3, Weight.infinite)] ∧
    l.digraph.preds (l.node 1 1) = [(1, Weight.infinite), (2, 4), (3, 2)] ∧
    (∀ s d w, 0 < w →
      (l.digraph.weight s d = w ↔ (d, w) ∈ l.digraph.succs s) ∧
      ((d, w) ∈ l.digraph.succs s ↔ (s, w) ∈ l.digraph.preds d)) ∧
    ∀ n < l.digraph.size, l.project n = none ↔ n = l.source ∨ n = l.sink := by
  have hbound : ∀ s ∈ thereAndBack, ∀ v ∈ s, v < spin.digraph.size := by decide
  obtain ⟨l, hl, hbase, hstages, hedges, -, -, hnodes⟩ :=
    along_consistent spin.digraph spin.digraph_consistent thereAndBack (by decide) hbound
  refine ⟨l, hl, ?_, ?_, hedges, fun n hn => (hnodes n hn).2⟩
  all_goals
    cases l
    cases hbase
    cases hstages
    rfl

end Layered

end Along

end SpecFence
