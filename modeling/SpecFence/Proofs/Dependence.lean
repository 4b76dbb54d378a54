import SpecFence.Proofs.ControlFlow

/-!
# Control edges are steps of control

In a well formed function each laid out instruction has one node, and two nodes are joined by a
control edge exactly when they stand for instructions of which the second follows the first.
-/

set_option autoImplicit false

namespace SpecFence

namespace DependenceGraph

variable {f : Function} {weighting : BlockWeighting}

section Steps

theorem mem_stepsWithin {l : List InstId} {i j : InstId} :
    (i, j) ∈ stepsWithin l ↔ Adjacent l i j := by
  induction l with
  | nil => simp [stepsWithin, not_adjacent_nil]
  | cons a l ih =>
    cases l with
    | nil => simp [stepsWithin, adjacent_cons, not_adjacent_nil]
    | cons b l =>
      rw [stepsWithin, List.mem_cons, ih, adjacent_cons (x := a), List.head?_cons]
      simp [eq_comm]

theorem mem_steps_iff (h : f.WellFormed) {i j : InstId} :
    (∃ l ∈ f.layout, ∃ b, ((i, j), b) ∈ stepsOf f l) ↔ f.Follows i j := by
  unfold stepsOf
  simp only [List.mem_append, List.mem_map, Prod.mk.injEq]
  constructor
  · rintro ⟨l, hl, b, ⟨⟨x, y⟩, hxy, hpair, -⟩ | hbetween⟩
    · cases hpair
      left
      refine ⟨l.block, ?_⟩
      rw [Function.blockInsts_eq h.blocks_nodup hl]
      exact mem_stepsWithin.mp hxy
    · right
      have hinsts := Function.blockInsts_eq h.blocks_nodup hl
      cases hlast : l.insts.getLast? with
      | none => simp [hlast] at hbetween
      | some last =>
        rw [hlast] at hbetween
        obtain ⟨t, ht, hfirst⟩ := List.mem_filterMap.mp hbetween
        obtain ⟨first, hfirst, hpair⟩ := Option.map_eq_some_iff.mp hfirst
        cases hpair
        refine ⟨l.block, b, ?_, ht, hfirst⟩
        unfold Function.lastInst?
        rw [hinsts, hlast]
  · rintro (⟨b, hadjacent⟩ | ⟨b, t, hlast, ht, hfirst⟩)
    · obtain ⟨l, hl, rfl⟩ := Function.mem_blocks.mp
        (Function.mem_blocks_of_mem_blockInsts hadjacent.mem_left)
      rw [Function.blockInsts_eq h.blocks_nodup hl] at hadjacent
      exact ⟨l, hl, l.block, Or.inl ⟨(i, j), mem_stepsWithin.mpr hadjacent, rfl, rfl⟩⟩
    · obtain ⟨l, hl, rfl⟩ := Function.mem_blocks.mp (Function.mem_blocks_of_mem_flowSuccs ht)
      unfold Function.lastInst? at hlast
      rw [Function.blockInsts_eq h.blocks_nodup hl] at hlast
      refine ⟨l, hl, t, Or.inr ?_⟩
      rw [hlast]
      exact List.mem_filterMap.mpr ⟨t, ht, by rw [hfirst]; rfl⟩

end Steps

section Nodes

theorem points_ofFunction : (ofFunction f weighting).points = (pointsOf f).toArray := rfl

theorem getElem?_instNodes (i : InstId) :
    (ofFunction f weighting).instNode? i =
      if i < f.insts.size then (pointsOf f).idxOf? (.inst i) else none := by
  change ((Array.range f.insts.size).map _)[i]?.join = _
  rw [Array.getElem?_map, Array.getElem?_range]
  split
  · rfl
  · rfl

theorem mem_pointsOf {i : InstId} : .inst i ∈ pointsOf f ↔ i ∈ f.layoutInsts := by
  unfold pointsOf Function.layoutInsts
  rw [List.mem_flatMap, List.mem_flatMap]
  refine exists_congr fun l => and_congr Iff.rfl ?_
  simp

theorem inst?_eq_some_iff {n : Node} {i : InstId} :
    (ofFunction f weighting).inst? n = some i ↔ (pointsOf f)[n]? = some (.inst i) := by
  unfold inst?
  rw [points_ofFunction, List.getElem?_toArray]
  split
  · rename_i j hj
    rw [hj]
    simp
  · rename_i hnone
    constructor
    · intro h
      cases h
    · intro h
      exact absurd h (hnone i)

theorem filterMap_pointsOf :
    (pointsOf f).filterMap (fun p => match p with
      | .inst i => some i
      | .param _ => none) = f.layoutInsts := by
  unfold pointsOf Function.layoutInsts
  rw [List.filterMap_flatMap]
  congr 1
  funext l
  rw [List.filterMap_append, List.filterMap_map, List.filterMap_map]
  have hparams : (f.blockParams l.block).filterMap
      ((fun p => match p with
        | ProgramPoint.inst i => some i
        | .param _ => none) ∘ ProgramPoint.param) = [] := by
    rw [List.filterMap_eq_nil_iff]
    intro v _
    rfl
  have hinsts : l.insts.filterMap
      ((fun p => match p with
        | ProgramPoint.inst i => some i
        | .param _ => none) ∘ ProgramPoint.inst) = l.insts := by
    have hid : ((fun p => match p with
        | ProgramPoint.inst i => some i
        | .param _ => none) ∘ ProgramPoint.inst) = some := rfl
    rw [hid, List.filterMap_some]
  rw [hparams, hinsts, List.nil_append]

theorem node_unique (h : f.WellFormed) {i : InstId} {m n : Node}
    (hm : (pointsOf f)[m]? = some (.inst i)) (hn : (pointsOf f)[n]? = some (.inst i)) : m = n := by
  have hpairwise := h.insts_nodup
  rw [← filterMap_pointsOf] at hpairwise
  have hpoints := List.pairwise_filterMap.mp hpairwise
  obtain ⟨hmlt, hm⟩ := List.getElem?_eq_some_iff.mp hm
  obtain ⟨hnlt, hn⟩ := List.getElem?_eq_some_iff.mp hn
  rcases Nat.lt_trichotomy m n with hlt | heq | hlt
  · exact absurd rfl (List.pairwise_iff_getElem.mp hpoints m n hmlt hnlt hlt i
      (by rw [hm]) i (by rw [hn]))
  · exact heq
  · exact absurd rfl (List.pairwise_iff_getElem.mp hpoints n m hnlt hmlt hlt i
      (by rw [hn]) i (by rw [hm]))

theorem instNode?_eq_some_iff (h : f.WellFormed) {i : InstId} {n : Node} :
    (ofFunction f weighting).instNode? i = some n ↔
      (ofFunction f weighting).inst? n = some i := by
  rw [inst?_eq_some_iff, getElem?_instNodes]
  constructor
  · intro hnode
    split at hnode
    · obtain ⟨hlt, hpoint, -⟩ := List.idxOf?_eq_some_iff.mp hnode
      rw [List.getElem?_eq_getElem hlt]
      exact congrArg some (by simpa using hpoint)
    · cases hnode
  · intro hpoint
    have hmem : i ∈ f.layoutInsts := mem_pointsOf.mp (List.mem_of_getElem? hpoint)
    rw [if_pos (h.insts_lt i hmem)]
    cases hindex : (pointsOf f).idxOf? (.inst i) with
    | none =>
      exact absurd (mem_pointsOf.mpr hmem) (List.idxOf?_eq_none_iff.mp hindex)
    | some m =>
      obtain ⟨hlt, hm, -⟩ := List.idxOf?_eq_some_iff.mp hindex
      have hm' : (pointsOf f)[m]? = some (.inst i) := by
        rw [List.getElem?_eq_getElem hlt]
        exact congrArg some (by simpa using hm)
      rw [node_unique h hm' hpoint]

theorem mem_layoutInsts_of_inst? {n : Node} {i : InstId}
    (h : (ofFunction f weighting).inst? n = some i) : i ∈ f.layoutInsts :=
  mem_pointsOf.mp (List.mem_of_getElem? (inst?_eq_some_iff.mp h))

theorem inst?_unique (h : f.WellFormed) {m n : Node} {i : InstId}
    (hm : (ofFunction f weighting).inst? m = some i)
    (hn : (ofFunction f weighting).inst? n = some i) : m = n :=
  node_unique h (inst?_eq_some_iff.mp hm) (inst?_eq_some_iff.mp hn)

theorem exists_node {i : InstId} (hi : i ∈ f.layoutInsts) :
    ∃ n, (ofFunction f weighting).inst? n = some i := by
  obtain ⟨n, hn⟩ := List.mem_iff_getElem?.mp (mem_pointsOf.mpr hi)
  exact ⟨n, inst?_eq_some_iff.mpr hn⟩

theorem inst?_lt {n : Node} {i : InstId} (h : (ofFunction f weighting).inst? n = some i) :
    n < (pointsOf f).length :=
  (List.getElem?_eq_some_iff.mp (inst?_eq_some_iff.mp h)).1

end Nodes

section Control

theorem weight_pos (f : Function) (weighting : BlockWeighting) (b : BlockId) :
    0 < weighting.weight f b := by
  cases weighting with
  | uniform n =>
    change 0 < max n 1
    omega
  | frequency base =>
    unfold BlockWeighting.weight
    simp only
    split
    · unfold BlockWeighting.estimate
      omega
    · exact Nat.one_pos

/-- Writing edges of positive weight one after the other joins exactly the pairs that were joined or
are written. -/
theorem joins_foldl_put {α : Type} (l : List α) (ends : α → Option (Node × Node)) (w : α → Nat)
    (hw : ∀ x ∈ l, 0 < w x) (r : WeightedGraph)
    (hbound : ∀ x ∈ l, ∀ u v, ends x = some (u, v) → u < r.size ∧ v < r.size) (a b : Node) :
    0 < (l.foldl (fun r x => match ends x with
      | some (u, v) => r.put u v (w x)
      | none => r) r).weight a b ↔
      0 < r.weight a b ∨ ∃ x ∈ l, ends x = some (a, b) := by
  induction l generalizing r with
  | nil => simp
  | cons x l ih =>
    have hrest : ∀ y ∈ l, 0 < w y := fun y hy => hw y (List.mem_cons_of_mem x hy)
    rw [List.foldl_cons]
    cases hx : ends x with
    | none =>
      simp only
      rw [ih hrest r fun y hy => hbound y (List.mem_cons_of_mem x hy)]
      simp [hx]
    | some e =>
      obtain ⟨u, v⟩ := e
      simp only
      obtain ⟨hu, hv⟩ := hbound x List.mem_cons_self u v hx
      have hsize : (r.put u v (w x)).size = r.size := WeightedGraph.size_put r u v (w x)
      rw [ih hrest _ fun y hy s t hy' => by
        rw [hsize]
        exact hbound y (List.mem_cons_of_mem x hy) s t hy']
      rw [WeightedGraph.weight_put hu hv]
      have hpos := hw x List.mem_cons_self
      by_cases hab : a = u ∧ b = v
      · obtain ⟨rfl, rfl⟩ := hab
        simp [hx, hpos]
      · rw [if_neg hab]
        have hne : ¬ (u = a ∧ v = b) := fun h => hab ⟨h.1.symm, h.2.symm⟩
        simp [hx, hne]

def endsOf (f : Function) (weighting : BlockWeighting) (x : (InstId × InstId) × BlockId) :
    Option (Node × Node) :=
  match (ofFunction f weighting).instNode? x.1.1, (ofFunction f weighting).instNode? x.1.2 with
  | some u, some v => some (u, v)
  | _, _ => none

theorem endsOf_eq_some_iff {x : (InstId × InstId) × BlockId} {u v : Node} :
    endsOf f weighting x = some (u, v) ↔
      (ofFunction f weighting).instNode? x.1.1 = some u ∧
        (ofFunction f weighting).instNode? x.1.2 = some v := by
  unfold endsOf
  split
  · rename_i a b ha hb
    rw [ha, hb]
    simp
  · rename_i hnone
    constructor
    · intro h
      cases h
    · rintro ⟨hu, hv⟩
      exact absurd hv (hnone u v hu)

theorem control_ofFunction :
    (ofFunction f weighting).control =
      (f.layout.flatMap (stepsOf f)).foldl (fun r x => match endsOf f weighting x with
        | some (u, v) => r.put u v
            ((((Array.range f.params.size).map (weighting.weight f))[x.2]?).getD 1)
        | none => r) (WeightedGraph.withNodes (pointsOf f).length) := by
  rw [List.foldl_flatMap]
  change f.layout.foldl _ _ = _
  congr 1
  funext r l
  congr 1
  funext r x
  obtain ⟨⟨i, j⟩, b⟩ := x
  unfold endsOf
  change (match (ofFunction f weighting).instNode? i, (ofFunction f weighting).instNode? j with
    | some u, some v => _
    | _, _ => _) = _
  simp only
  cases (ofFunction f weighting).instNode? i with
  | none => rfl
  | some u =>
    cases (ofFunction f weighting).instNode? j with
    | none => rfl
    | some v => rfl

theorem ofFunction_congr {weighting' : BlockWeighting}
    (h : ∀ b < f.params.size, weighting.weight f b = weighting'.weight f b) :
    ofFunction f weighting = ofFunction f weighting' := by
  have hweights : (Array.range f.params.size).map (weighting.weight f) =
      (Array.range f.params.size).map (weighting'.weight f) := by
    apply Array.map_congr_left
    intro b hb
    exact h b (Array.mem_range.mp hb)
  unfold ofFunction ofWeights
  rw [hweights]

theorem ofFunction_frequency_eq_uniform {base n : Nat}
    (hblocks : ∀ b < f.params.size, (b ∈ f.blocks ∧ f.reachable.has b = true) ∧
      BlockWeighting.estimate f base b = max n 1) :
    ofFunction f (.frequency base) = ofFunction f (.uniform n) := by
  apply ofFunction_congr
  intro b hb
  obtain ⟨hreach, hestimate⟩ := hblocks b hb
  unfold BlockWeighting.weight
  dsimp only
  rw [if_pos hreach, hestimate]

theorem control_joins_iff (h : f.WellFormed) {u v : Node} :
    0 < (ofFunction f weighting).control.weight u v ↔
      ∃ i j, (ofFunction f weighting).inst? u = some i ∧
        (ofFunction f weighting).inst? v = some j ∧ f.Follows i j := by
  rw [control_ofFunction, joins_foldl_put]
  · rw [WeightedGraph.weight_withNodes]
    simp only [Nat.lt_irrefl, false_or, List.mem_flatMap]
    constructor
    · rintro ⟨⟨⟨i, j⟩, b⟩, ⟨l, hl, hmem⟩, hends⟩
      obtain ⟨hu, hv⟩ := endsOf_eq_some_iff.mp hends
      exact ⟨i, j, (instNode?_eq_some_iff h).mp hu, (instNode?_eq_some_iff h).mp hv,
        (mem_steps_iff h).mp ⟨l, hl, b, hmem⟩⟩
    · rintro ⟨i, j, hu, hv, hfollows⟩
      obtain ⟨l, hl, b, hmem⟩ := (mem_steps_iff h).mpr hfollows
      exact ⟨((i, j), b), ⟨l, hl, hmem⟩, endsOf_eq_some_iff.mpr
        ⟨(instNode?_eq_some_iff h).mpr hu, (instNode?_eq_some_iff h).mpr hv⟩⟩
  · intro x _
    rw [Array.getElem?_map, Array.getElem?_range]
    split
    · exact weight_pos f weighting x.2
    · exact Nat.one_pos
  · intro x _ u v hends
    obtain ⟨hu, hv⟩ := endsOf_eq_some_iff.mp hends
    rw [WeightedGraph.size_withNodes]
    exact ⟨inst?_lt ((instNode?_eq_some_iff h).mp hu), inst?_lt ((instNode?_eq_some_iff h).mp hv)⟩

end Control

end DependenceGraph

end SpecFence
