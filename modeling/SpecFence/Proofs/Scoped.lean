import SpecFence.Proofs.EdgeMap

/-!
# Stacked overlays are edge maps

Writing on an overlay replaces the weight of a pair, and restoring a pair gives it back the weight
of the layer below; a stack of overlays reads like the map that these operations lead to.  This
holds for overlays of written weights alone and for those that keep tables of extra neighbours: the
tables hold exactly the ends of the written pairs that are absent below, and every operation keeps
them so.
-/

set_option autoImplicit false

namespace SpecFence

inductive OverlayOp where
  | put (e : Edge) (w : Nat)
  | restore (e : Edge)

def OverlayOp.InRange (n : Nat) : OverlayOp → Prop
  | .put e _ => e.src < n ∧ e.dst < n
  | .restore _ => True

instance (n : Nat) : DecidablePred (OverlayOp.InRange n)
  | .put e _ => inferInstanceAs (Decidable (e.src < n ∧ e.dst < n))
  | .restore _ => .isTrue trivial

namespace EdgeMap

variable {below m : EdgeMap}

def overlayStep (below m : EdgeMap) : OverlayOp → EdgeMap
  | .put e w => m.put e w
  | .restore e => m.put e (below.weight e.src e.dst)

def layer (below : EdgeMap) (ops : List OverlayOp) : EdgeMap := ops.foldl (overlayStep below) below

end EdgeMap

def Overlay.step (o : Overlay) : OverlayOp → Overlay
  | .put e w => o.put e w
  | .restore e => o.restore e

def ScopedGraph.step (s : ScopedGraph) : OverlayOp → ScopedGraph
  | .put e w => s.put e w
  | .restore e => s.restore e

def Overlay.layer (g : Digraph) (ops : List OverlayOp) : Digraph :=
  (ops.foldl step (onto g)).digraph

def ScopedGraph.layer (g : Digraph) (ops : List OverlayOp) : Digraph :=
  (ops.foldl step (onto g)).digraph

namespace EdgeMap

variable {below m : EdgeMap}

theorem ext {m m' : EdgeMap} (hsize : m.size = m'.size)
    (hweight : ∀ u v, m.weight u v = m'.weight u v) : m = m' := by
  have hweights : m.weights = m'.weights := by
    refine AscMap.ext_get? fun e => Option.ext fun w => ?_
    rw [get?_eq_some_iff, get?_eq_some_iff, hweight]
  cases m
  cases m'
  simp only [mk.injEq]
  exact ⟨hsize, hweights⟩

@[simp] theorem size_overlayStep (op : OverlayOp) : (overlayStep below m op).size = m.size := by
  cases op with
  | put e w => exact size_put e w
  | restore e => exact size_put e _

theorem size_foldl_overlayStep (ops : List OverlayOp) :
    (ops.foldl (overlayStep below) m).size = m.size := by
  induction ops generalizing m with
  | nil => rfl
  | cons op ops ih => rw [List.foldl_cons, ih, size_overlayStep]

@[simp] theorem size_layer (ops : List OverlayOp) : (below.layer ops).size = below.size :=
  size_foldl_overlayStep ops

theorem weight_put_of_ne {e : Edge} (w : Nat) {u v : Node} (h : (⟨u, v⟩ : Edge) ≠ e) :
    (m.put e w).weight u v = m.weight u v := by
  by_cases hbound : e.src < m.size ∧ e.dst < m.size
  · rw [weight_put hbound.1 hbound.2, if_neg h]
  · rw [put, dif_neg hbound]

theorem weight_restore (hsize : m.size = below.size) (e : Edge) (u v : Node) :
    (overlayStep below m (.restore e)).weight u v =
      if (⟨u, v⟩ : Edge) = e then below.weight u v else m.weight u v := by
  by_cases he : (⟨u, v⟩ : Edge) = e
  · subst he
    rw [if_pos rfl]
    by_cases hbound : u < m.size ∧ v < m.size
    · exact (weight_put hbound.1 hbound.2 _ u v).trans (if_pos rfl)
    · rw [overlayStep, put, dif_neg hbound, weight_eq_zero hbound,
        weight_eq_zero (hsize ▸ hbound)]
  · rw [if_neg he]
    exact weight_put_of_ne _ he

theorem weight_foldl_restore (hsize : m.size = below.size) (edges : List Edge) (u v : Node) :
    ((edges.map .restore).foldl (overlayStep below) m).weight u v =
      if (⟨u, v⟩ : Edge) ∈ edges then below.weight u v else m.weight u v := by
  induction edges generalizing m with
  | nil => simp
  | cons e edges ih =>
    rw [List.map_cons, List.foldl_cons, ih ((size_overlayStep _).trans hsize), weight_restore hsize]
    by_cases hmem : (⟨u, v⟩ : Edge) ∈ edges
    · simp [hmem]
    · simp [hmem]

theorem weight_foldl_of_not_written (hsize : m.size = below.size) {ops : List OverlayOp}
    {u v : Node} (hm : m.weight u v = below.weight u v) (h : ∀ w, .put ⟨u, v⟩ w ∉ ops) :
    (ops.foldl (overlayStep below) m).weight u v = below.weight u v := by
  induction ops generalizing m with
  | nil => exact hm
  | cons op ops ih =>
    refine ih ((size_overlayStep op).trans hsize) ?_ fun w hw => h w (List.mem_cons_of_mem op hw)
    cases op with
    | put e w =>
      have hne : (⟨u, v⟩ : Edge) ≠ e := fun he => h w (he ▸ List.mem_cons_self)
      rw [overlayStep, weight_put_of_ne w hne, hm]
    | restore e =>
      rw [weight_restore hsize, hm, ite_self]

theorem layer_restored (below : EdgeMap) (ops : List OverlayOp) (edges : List Edge)
    (h : ∀ e w, .put e w ∈ ops → e ∈ edges) : below.layer (ops ++ edges.map .restore) = below := by
  refine ext (size_layer _) fun u v => ?_
  rw [layer, List.foldl_append, weight_foldl_restore (size_foldl_overlayStep ops)]
  by_cases hmem : (⟨u, v⟩ : Edge) ∈ edges
  · rw [if_pos hmem]
  · rw [if_neg hmem]
    exact weight_foldl_of_not_written rfl rfl fun w hw => hmem (h _ w hw)

end EdgeMap

theorem OverlayOp.foldl_induction {γ : Type} {step : γ → OverlayOp → γ} {below : EdgeMap}
    {R : γ → EdgeMap → Prop}
    (hstep : ∀ g m op, m.size = below.size → op.InRange m.size → R g m →
      R (step g op) (EdgeMap.overlayStep below m op))
    {ops : List OverlayOp} (hops : ∀ op ∈ ops, op.InRange below.size) {g : γ} {m : EdgeMap}
    (hsize : m.size = below.size) (h : R g m) :
    R (ops.foldl step g) (ops.foldl (EdgeMap.overlayStep below) m) := by
  induction ops generalizing g m with
  | nil => exact h
  | cons op ops ih =>
    rw [List.forall_mem_cons] at hops
    exact ih hops.2 ((EdgeMap.size_overlayStep op).trans hsize)
      (hstep g m op hsize (hsize ▸ hops.1) h)

structure Overlay.Reads (o : Overlay) (below m : EdgeMap) : Prop where
  base : o.base = below.digraph
  weight : ∀ u v, o.weight u v = m.weight u v

namespace Overlay

variable {o : Overlay} {below m : EdgeMap}

theorem Reads.step (h : o.Reads below m) (hsize : m.size = below.size) {op : OverlayOp}
    (hop : op.InRange m.size) : (o.step op).Reads below (EdgeMap.overlayStep below m op) where
  base := by cases op <;> exact h.base
  weight u v := by
    cases op with
    | put e w => exact (weight_put o e w u v).trans (by
        rw [EdgeMap.overlayStep, EdgeMap.weight_put hop.1 hop.2, h.weight])
    | restore e => exact (weight_restore o e u v).trans (by
        rw [EdgeMap.weight_restore hsize, h.weight, h.base]
        rfl)

theorem Reads.digraph_eq (h : o.Reads below m) (hsize : m.size = below.size) :
    o.digraph = m.digraph := by
  have hbase : o.base.size = m.size := (congrArg Digraph.size h.base).trans hsize.symm
  have hbounds : o.InBounds := by
    intro e w hw hne
    have hweight : m.weight e.src e.dst = w := by
      rw [← h.weight, Overlay.weight, hw, Option.getD_some]
    rw [hbase]
    exact EdgeMap.bounds_of_weight_pos (hweight ▸ Nat.pos_of_ne_zero hne)
  exact (digraph_consistent (h.base ▸ below.digraph_consistent) hbounds).ext m.digraph_consistent
    hbase h.weight

theorem layer_digraph (below : EdgeMap) {ops : List OverlayOp}
    (hops : ∀ op ∈ ops, op.InRange below.size) :
    layer below.digraph ops = (below.layer ops).digraph := by
  have hreads : (ops.foldl Overlay.step (onto below.digraph)).Reads below (below.layer ops) :=
    OverlayOp.foldl_induction (R := fun o m => Reads o below m)
      (fun _ _ _ hsize hop h => h.step hsize hop) hops rfl ⟨rfl, weight_onto below.digraph⟩
  exact hreads.digraph_eq (EdgeMap.size_layer ops)

end Overlay

theorem Edge.mk_eq_iff {u v : Node} {e : Edge} : (⟨u, v⟩ : Edge) = e ↔ u = e.src ∧ v = e.dst := by
  cases e
  exact Edge.mk.injEq .. ▸ Iff.rfl

namespace EdgeMap

variable {below : EdgeMap} {written : AscMap Edge Nat} {e : Edge} {u v w : Nat}

def Extra (below : EdgeMap) (written : AscMap Edge Nat) (u v : Node) : Prop :=
  below.weight u v = 0 ∧ (written.get? ⟨u, v⟩).isSome

theorem extra_insert_of_absent (h : below.weight e.src e.dst = 0) :
    below.Extra (written.insert e w) u v ↔
      (u = e.src ∧ v = e.dst) ∨ below.Extra written u v := by
  rw [Extra, AscMap.get?_insert, ← Edge.mk_eq_iff]
  by_cases he : (⟨u, v⟩ : Edge) = e
  · subst he
    simp [show below.weight u v = 0 from h]
  · simp [he, Extra]

theorem extra_insert_of_present (h : below.weight e.src e.dst ≠ 0) :
    below.Extra (written.insert e w) u v ↔ below.Extra written u v := by
  rw [Extra, Extra, AscMap.get?_insert]
  by_cases he : (⟨u, v⟩ : Edge) = e
  · subst he
    simp [show below.weight u v ≠ 0 from h]
  · simp [he]

theorem extra_erase : below.Extra (written.erase e) u v ↔
    below.Extra written u v ∧ ¬ (u = e.src ∧ v = e.dst) := by
  rw [Extra, Extra, AscMap.get?_erase, ← Edge.mk_eq_iff]
  by_cases he : (⟨u, v⟩ : Edge) = e
  · simp [he]
  · simp [he]

end EdgeMap

/-- A scoped graph has the weights of a map, and its tables hold the ends of the written pairs that
are absent below. -/
structure ScopedGraph.Reads (s : ScopedGraph) (below m : EdgeMap) : Prop where
  base : s.base = below.digraph
  weight : ∀ u v, s.weight u v = m.weight u v
  extraSuccs : ∀ u v, v ∈ s.extraSuccs.of u ↔ below.Extra s.overrides u v
  extraPreds : ∀ u v, u ∈ s.extraPreds.of v ↔ below.Extra s.overrides u v

namespace NeighborTable

variable {t : NeighborTable} {u v a x : Node}

theorem mem_of_add : x ∈ (t.add u v).of a ↔ (a = u ∧ x = v) ∨ x ∈ t.of a := by
  unfold add of
  rw [AscMap.get?_insert]
  by_cases ha : a = u
  · simp [ha]
  · simp [ha]

theorem mem_of_remove : x ∈ (t.remove u v).of a ↔ x ∈ t.of a ∧ ¬ (a = u ∧ x = v) := by
  unfold remove
  cases hget : t.get? u with
  | none =>
    refine (and_iff_left_of_imp ?_).symm
    rintro hx ⟨rfl, -⟩
    simp [of, hget] at hx
  | some s =>
    unfold of
    rw [AscMap.get?_insert]
    by_cases ha : a = u
    · simp [ha, hget]
    · simp [ha]

end NeighborTable

namespace ScopedGraph

variable {s : ScopedGraph} {below m : EdgeMap}

theorem get?_foldl_extra (extra : NodeSet) (row : Row) (v : Node) :
    (extra.toList.foldl (fun r n => r.insert n 0) row).get? v =
      if v ∈ extra then some 0 else row.get? v := by
  have hpairs := AscMap.get?_foldl_insert (extra.toList.map fun n => (n, 0)) row v
  rw [List.foldl_map] at hpairs
  rcases hpairs with ⟨w, hw, hget⟩ | ⟨hnone, hget⟩
  · obtain ⟨n, hn, heq⟩ := List.mem_map.mp hw
    cases heq
    rw [hget, if_pos (AscSet.mem_def.mpr hn)]
  · have hv : v ∉ extra := fun hv => hnone 0 (List.mem_map.mpr ⟨v, hv, rfl⟩)
    rw [hget, if_neg hv]

/-- A merged row lists a node with its written weight, or else with its weight below, unless that is
zero, when the extra nodes are those that are written and absent below. -/
theorem mem_merged {row : List (Node × Nat)} {extra : NodeSet} {key : Node → Edge}
    {weightBelow : Node → Nat} (hrow : ∀ v w, (v, w) ∈ row ↔ 0 < w ∧ weightBelow v = w)
    (hextra : ∀ v, v ∈ extra ↔ weightBelow v = 0 ∧ (s.overrides.get? (key v)).isSome) (v w : Nat) :
    (v, w) ∈ s.merged row extra key ↔
      0 < w ∧ (s.overrides.get? (key v)).getD (weightBelow v) = w := by
  have hlisted : (v, w) ∈ s.merged row extra key ↔
      ∃ x, (if v ∈ extra then some 0 else (AscMap.ofList row).get? v) = some x ∧
        0 < w ∧ (s.overrides.get? (key v)).getD x = w := by
    simp only [← get?_foldl_extra, ← AscMap.mem_toList_iff]
    simp only [merged, List.mem_filterMap, Prod.exists, Option.ite_none_right_eq_some,
      Option.some.injEq, Prod.mk.injEq]
    constructor
    · rintro ⟨n, x, hmem, hpos, rfl, rfl⟩
      exact ⟨x, hmem, hpos, rfl⟩
    · rintro ⟨x, hmem, hpos, rfl⟩
      exact ⟨v, x, hmem, hpos, rfl, rfl⟩
  rw [hlisted, Overlay.get?_ofList hrow]
  by_cases hv : v ∈ extra
  · simp [hv, ((hextra v).mp hv).1]
  · by_cases hzero : weightBelow v = 0
    · have hnone : s.overrides.get? (key v) = none := by
        by_contra hsome
        exact hv ((hextra v).mpr ⟨hzero, Option.isSome_iff_ne_none.mpr hsome⟩)
      simp only [hv, hzero, hnone, if_true, if_false, reduceCtorEq, false_and, exists_false,
        Option.getD_none, false_iff]
      omega
    · simp [hv, hzero]

theorem ascending_merged (s : ScopedGraph) (row : List (Node × Nat)) (extra : NodeSet)
    (key : Node → Edge) : Ascending ((s.merged row extra key).map Prod.fst) := by
  have hrow := (extra.toList.foldl (fun r n => r.insert n 0) (AscMap.ofList row)).ascending
  refine List.pairwise_map.mpr (List.pairwise_filterMap.mpr ((List.pairwise_map.mp hrow).imp ?_))
  intro a b hab x hx y hy
  obtain ⟨-, hx⟩ := Option.ite_none_right_eq_some.mp hx
  obtain ⟨-, hy⟩ := Option.ite_none_right_eq_some.mp hy
  cases hx
  cases hy
  exact hab

section Steps

variable {e : Edge} {w : Nat}

theorem put_of_present (h : s.base.weight e.src e.dst ≠ 0) :
    s.put e w = { s with overrides := s.overrides.insert e w } := if_neg h

theorem put_of_absent (h : s.base.weight e.src e.dst = 0) (hw : 0 < w) :
    s.put e w =
      { s with
        overrides := s.overrides.insert e w
        extraSuccs := s.extraSuccs.add e.src e.dst
        extraPreds := s.extraPreds.add e.dst e.src } :=
  (if_pos h).trans (if_pos hw)

theorem put_zero_of_absent (h : s.base.weight e.src e.dst = 0) : s.put e 0 = s.restore e :=
  (if_pos h).trans (if_neg (Nat.lt_irrefl 0))

theorem weight_restore (u v : Node) : (s.restore e).weight u v =
    if (⟨u, v⟩ : Edge) = e then s.base.weight u v else s.weight u v := by
  simp only [weight, restore, AscMap.get?_erase]
  split <;> simp

theorem weight_put (u v : Node) :
    (s.put e w).weight u v = if (⟨u, v⟩ : Edge) = e then w else s.weight u v := by
  by_cases habsent : s.base.weight e.src e.dst = 0
  · rcases Nat.eq_zero_or_pos w with rfl | hw
    · rw [put_zero_of_absent habsent, weight_restore]
      by_cases he : (⟨u, v⟩ : Edge) = e
      · subst he
        rw [if_pos rfl, if_pos rfl]
        exact habsent
      · rw [if_neg he, if_neg he]
    · rw [put_of_absent habsent hw]
      simp only [weight, AscMap.get?_insert]
      split <;> simp
  · rw [put_of_present habsent]
    simp only [weight, AscMap.get?_insert]
    split <;> simp

theorem Reads.restore (h : s.Reads below m) (hsize : m.size = below.size) (e : Edge) :
    (s.restore e).Reads below (EdgeMap.overlayStep below m (.restore e)) where
  base := h.base
  weight u v := by
    rw [weight_restore, EdgeMap.weight_restore hsize, h.weight, h.base]
    rfl
  extraSuccs u v := by
    rw [ScopedGraph.restore, NeighborTable.mem_of_remove, EdgeMap.extra_erase, h.extraSuccs]
  extraPreds u v := by
    rw [ScopedGraph.restore, NeighborTable.mem_of_remove, EdgeMap.extra_erase, h.extraPreds,
      and_comm (a := v = e.dst)]

theorem Reads.put (h : s.Reads below m) (hsize : m.size = below.size) (hsrc : e.src < m.size)
    (hdst : e.dst < m.size) (w : Nat) : (s.put e w).Reads below (m.put e w) := by
  have hweight : ∀ u v, (s.put e w).weight u v = (m.put e w).weight u v := by
    intro u v
    rw [weight_put, EdgeMap.weight_put hsrc hdst, h.weight]
  have hbelow : s.base.weight e.src e.dst = below.weight e.src e.dst := by
    rw [h.base]
    rfl
  by_cases habsent : s.base.weight e.src e.dst = 0
  · rcases Nat.eq_zero_or_pos w with rfl | hw
    · have hrestored := h.restore hsize e
      rw [EdgeMap.overlayStep, ← hbelow, habsent, ← put_zero_of_absent habsent] at hrestored
      exact hrestored
    · rw [put_of_absent habsent hw] at hweight ⊢
      constructor
      case base => exact h.base
      case weight => exact hweight
      case extraSuccs =>
        intro u v
        rw [NeighborTable.mem_of_add, EdgeMap.extra_insert_of_absent (hbelow ▸ habsent),
          h.extraSuccs]
      case extraPreds =>
        intro u v
        rw [NeighborTable.mem_of_add, EdgeMap.extra_insert_of_absent (hbelow ▸ habsent),
          h.extraPreds, and_comm (a := v = e.dst)]
  · rw [put_of_present habsent] at hweight ⊢
    constructor
    case base => exact h.base
    case weight => exact hweight
    case extraSuccs =>
      intro u v
      rw [EdgeMap.extra_insert_of_present (hbelow ▸ habsent), h.extraSuccs]
    case extraPreds =>
      intro u v
      rw [EdgeMap.extra_insert_of_present (hbelow ▸ habsent), h.extraPreds]

theorem Reads.step (h : s.Reads below m) (hsize : m.size = below.size) {op : OverlayOp}
    (hop : op.InRange m.size) : (s.step op).Reads below (EdgeMap.overlayStep below m op) := by
  cases op with
  | put e w => exact h.put hsize hop.1 hop.2 w
  | restore e => exact h.restore hsize e

end Steps

theorem Reads.digraph_eq (h : s.Reads below m) (hsize : m.size = below.size) :
    s.digraph = m.digraph := by
  have hbase : s.base.Consistent := h.base ▸ below.digraph_consistent
  have habsent : ∀ u v, below.Extra s.overrides u v ↔
      s.base.weight u v = 0 ∧ (s.overrides.get? ⟨u, v⟩).isSome := by
    rw [h.base]
    exact fun u v => Iff.rfl
  refine EdgeMap.eq_digraph ((congrArg Digraph.size h.base).trans hsize.symm) h.weight ?_ ?_
    (fun u => ascending_merged _ _ _ _) fun v => ascending_merged _ _ _ (⟨·, v⟩)
  · intro u
    exact mem_merged (hbase.mem_succs u) fun v => (h.extraSuccs u v).trans (habsent u v)
  · intro u v
    exact mem_merged (fun u w => hbase.mem_preds u v w)
      (fun u => (h.extraPreds u v).trans (habsent u v)) u

theorem reads_onto (below : EdgeMap) : (onto below.digraph).Reads below below := by
  constructor
  case base => rfl
  case weight => exact fun u v => rfl
  case extraSuccs | extraPreds =>
    intro u v
    exact iff_of_false (AscSet.not_mem_empty _) fun h => nomatch h.2

theorem layer_digraph (below : EdgeMap) {ops : List OverlayOp}
    (hops : ∀ op ∈ ops, op.InRange below.size) :
    layer below.digraph ops = (below.layer ops).digraph := by
  have hreads : (ops.foldl ScopedGraph.step (onto below.digraph)).Reads below (below.layer ops) :=
    OverlayOp.foldl_induction (R := fun s m => Reads s below m)
      (fun _ _ _ hsize hop h => h.step hsize hop) hops rfl (reads_onto below)
  exact hreads.digraph_eq (EdgeMap.size_layer ops)

end ScopedGraph

theorem EdgeMap.foldl_layer {layer : Digraph → List OverlayOp → Digraph}
    (hlayer : ∀ (m : EdgeMap) ops, (∀ op ∈ ops, op.InRange m.size) →
      layer m.digraph ops = (m.layer ops).digraph)
    {layers : List (List OverlayOp)} {m : EdgeMap}
    (h : ∀ ops ∈ layers, ∀ op ∈ ops, op.InRange m.size) :
    layers.foldl layer m.digraph = (layers.foldl EdgeMap.layer m).digraph := by
  induction layers generalizing m with
  | nil => rfl
  | cons ops layers ih =>
    rw [List.forall_mem_cons] at h
    rw [List.foldl_cons, hlayer m ops h.1]
    exact ih (by simpa using h.2)

/-- Every graph that is built by writing edges, with a stack of overlays over it, reads like the map
that replaying the operations leads to, and so does a plain copy of it.  The lists of the map are
strictly ascending, agree with each other and have no zero weights.  When all pairs that were
written on one more layer are restored, what is read is the layer below. -/
theorem EdgeMap.stack_reads (n : Nat) (ops : List GraphOp) (hops : GraphOp.InRange n ops)
    (layers : List (List OverlayOp))
    (hlayers : ∀ layer ∈ layers, ∀ op ∈ layer, op.InRange (built n ops).size) :
    ∃ m : EdgeMap, layers.foldl EdgeMap.layer (built n ops) = m ∧
      layers.foldl Overlay.layer (WeightedGraph.built n ops).digraph = m.digraph ∧
      layers.foldl ScopedGraph.layer (TwoWayGraph.built n ops).digraph = m.digraph ∧
      (WeightedGraph.ofDigraph m.digraph).digraph = m.digraph ∧
      (TwoWayGraph.ofDigraph m.digraph).digraph = m.digraph ∧
      m.digraph.edges = m.weights.toList ∧
      (∀ u, Ascending (m.digraph.next u)) ∧ (∀ v, Ascending (m.digraph.prior v)) ∧
      (∀ u v w, (v, w) ∈ m.digraph.succs u ↔ (u, w) ∈ m.digraph.preds v) ∧
      (∀ u v w, (v, w) ∈ m.digraph.succs u → 0 < w) ∧
      ∀ (top : List OverlayOp) (restored : List Edge), (∀ op ∈ top, op.InRange m.size) →
        (∀ e w, .put e w ∈ top → e ∈ restored) →
          Overlay.layer m.digraph (top ++ restored.map .restore) = m.digraph ∧
            ScopedGraph.layer m.digraph (top ++ restored.map .restore) = m.digraph := by
  refine ⟨layers.foldl EdgeMap.layer (built n ops), rfl, ?_⟩
  have hplain := foldl_layer (fun m ops h => Overlay.layer_digraph m h) hlayers
  have hscoped := foldl_layer (fun m ops h => ScopedGraph.layer_digraph m h) hlayers
  rw [← WeightedGraph.digraph_built n hops] at hplain
  rw [← TwoWayGraph.digraph_built n hops] at hscoped
  generalize layers.foldl EdgeMap.layer (built n ops) = m at hplain hscoped
  have hm := m.digraph_consistent
  refine ⟨hplain, hscoped, WeightedGraph.digraph_ofDigraph hm, TwoWayGraph.digraph_ofDigraph hm,
    edges_digraph m, hm.succs_ascending, hm.preds_ascending, ?_, ?_, ?_⟩
  · intro u v w
    rw [hm.mem_succs, hm.mem_preds]
  · intro u v w hmem
    exact ((hm.mem_succs u v w).mp hmem).1
  · intro top restored htop hall
    have hrange : ∀ op ∈ top ++ restored.map .restore, op.InRange m.size := by
      intro op hop
      rcases List.mem_append.mp hop with hop | hop
      · exact htop op hop
      · obtain ⟨e, -, rfl⟩ := List.mem_map.mp hop
        exact trivial
    rw [Overlay.layer_digraph m hrange, ScopedGraph.layer_digraph m hrange,
      layer_restored m top restored hall]
    exact ⟨rfl, rfl⟩

def pathOps : List GraphOp := [.put ⟨0, 1⟩ 4, .addNode, .put ⟨1, 2⟩ 2]

/-- One layer turns the path into an edge and one back; the other writes and restores over it. -/
def pathLayers : List (List OverlayOp) :=
  [[.put ⟨0, 1⟩ 1, .put ⟨1, 2⟩ 0, .put ⟨2, 0⟩ 7],
    [.put ⟨1, 2⟩ 5, .put ⟨2, 0⟩ 0, .restore ⟨1, 2⟩, .put ⟨0, 2⟩ 3]]

/-- Two edges are left on top, and a third layer with all its writes restored changes nothing. -/
theorem EdgeMap.stack_path : ∃ m : EdgeMap,
    m.weights.toList = [(⟨0, 1⟩, 1), (⟨0, 2⟩, 3)] ∧
      pathLayers.foldl Overlay.layer (WeightedGraph.built 2 pathOps).digraph = m.digraph ∧
      pathLayers.foldl ScopedGraph.layer (TwoWayGraph.built 2 pathOps).digraph = m.digraph ∧
      ScopedGraph.layer m.digraph [.put ⟨0, 1⟩ 0, .put ⟨1, 2⟩ 9, .restore ⟨1, 2⟩, .restore ⟨0, 1⟩] =
        m.digraph := by
  obtain ⟨m, hm, hplain, hscoped, -, -, -, -, -, -, -, hrestored⟩ :=
    EdgeMap.stack_reads 2 pathOps (by decide) pathLayers (by decide)
  have hsize : m.size = 3 := by
    rw [← hm]
    rfl
  refine ⟨m, ?_, hplain, hscoped, ?_⟩
  · rw [← hm]
    rfl
  · refine (hrestored [.put ⟨0, 1⟩ 0, .put ⟨1, 2⟩ 9] [⟨1, 2⟩, ⟨0, 1⟩] ?_ ?_).2
    · rw [hsize]
      decide
    · intro e w hput
      have hwritten : e = ⟨0, 1⟩ ∧ w = 0 ∨ e = ⟨1, 2⟩ ∧ w = 9 := by simpa using hput
      obtain ⟨rfl, -⟩ | ⟨rfl, -⟩ := hwritten
      · decide
      · decide

end SpecFence
