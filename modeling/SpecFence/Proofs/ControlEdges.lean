import SpecFence.Proofs.Adjacency
import SpecFence.Proofs.Built
import SpecFence.Proofs.Dependence
import SpecFence.Proofs.Dependents

/-!
# Control edges are exact

Whatever the blocks weigh, the nodes of a dependence graph are the laid out parameters and
instructions, each once, and every step of control is written once, with the weight of the block
that it enters.  So the weight of an edge is the weight of that block, no edge is written over, and
parameters have no control edges.
-/

set_option autoImplicit false

namespace SpecFence

open SpecFence.Function

namespace DependenceGraph

variable {f : Function} {weight : BlockId → Nat} {i j : InstId} {b : BlockId} {u v : Node}
  {l : LaidBlock}

section Nodes

theorem ofFunction_eq (f : Function) (weighting : BlockWeighting) :
    ofFunction f weighting = ofWeights f (weighting.weight f) := rfl

theorem points_ofWeights : (ofWeights f weight).points = (pointsOf f).toArray := rfl

theorem instNodes_ofWeights : (ofWeights f weight).instNodes =
    (Array.range f.insts.size).map fun i => (pointsOf f).idxOf? (.inst i) := rfl

theorem inst?_eq_uniform : (ofWeights f weight).inst? u =
    (ofFunction f (.uniform 1)).inst? u := by
  unfold inst?
  rw [points_ofWeights, points_ofFunction]

theorem instNode?_eq_uniform : (ofWeights f weight).instNode? i =
    (ofFunction f (.uniform 1)).instNode? i := by
  unfold instNode?
  rw [ofFunction_eq, instNodes_ofWeights, instNodes_ofWeights]

theorem instNode?_ofWeights_iff (h : f.WellFormed) : (ofWeights f weight).instNode? i = some u ↔
    (ofWeights f weight).inst? u = some i := by
  rw [inst?_eq_uniform, instNode?_eq_uniform]
  exact instNode?_eq_some_iff h

theorem inst?_ofWeights_eq_some_iff : (ofWeights f weight).inst? u = some i ↔
    (pointsOf f)[u]? = some (.inst i) := by
  rw [inst?_eq_uniform]
  exact inst?_eq_some_iff

theorem instNode?_lt_length (h : f.WellFormed) (hi : (ofWeights f weight).instNode? i = some u) :
    u < (pointsOf f).length := by
  have hu := inst?_ofWeights_eq_some_iff.mp ((instNode?_ofWeights_iff h).mp hi)
  exact (List.getElem?_eq_some_iff.mp hu).1

theorem mem_pointsOf_param {p : ValueId} : .param p ∈ pointsOf f ↔ p ∈ f.layoutParams := by
  simp [pointsOf, Function.layoutParams, Function.blocks, List.flatMap_map]

theorem nodup_pointsOf (h : f.WellFormed) (hparams : f.layoutParams.Nodup) :
    (pointsOf f).Nodup := by
  have hinsts := List.nodup_flatMap.mp h.insts_nodup
  unfold Function.layoutParams Function.blocks at hparams
  rw [List.flatMap_map] at hparams
  have hparams := List.nodup_flatMap.mp hparams
  unfold pointsOf
  rw [List.nodup_flatMap]
  constructor
  · intro l hl
    rw [List.nodup_append]
    refine ⟨(hparams.1 l hl).map fun _ _ => ProgramPoint.param.inj,
      (hinsts.1 l hl).map fun _ _ => ProgramPoint.inst.inj, ?_⟩
    intro p hp q hq
    obtain ⟨v, -, rfl⟩ := List.mem_map.mp hp
    obtain ⟨i, -, rfl⟩ := List.mem_map.mp hq
    simp
  · refine (hinsts.2.and hparams.2).imp ?_
    rintro l m ⟨hi, hp⟩ x hx hy
    rcases List.mem_append.mp hx with hx | hx
    · obtain ⟨v, hv, rfl⟩ := List.mem_map.mp hx
      have hw : v ∈ f.blockParams m.block := by simpa using hy
      exact hp hv hw
    · obtain ⟨i, hil, rfl⟩ := List.mem_map.mp hx
      have him : i ∈ m.insts := by simpa using hy
      exact hi hil him

end Nodes

section Steps

theorem nodup_stepsWithin {l : List InstId} (hl : l.Nodup) : (stepsWithin l).Nodup := by
  induction l with
  | nil => exact List.nodup_nil
  | cons a l ih =>
    cases l with
    | nil => exact List.nodup_nil
    | cons c l =>
      rw [List.nodup_cons] at hl
      rw [stepsWithin, List.nodup_cons]
      refine ⟨?_, ih hl.2⟩
      intro hmem
      exact hl.1 (mem_stepsWithin.mp hmem).mem_left

theorem mem_insts_of_mem_stepsOf (hx : ((i, j), b) ∈ stepsOf f l) : i ∈ l.insts := by
  unfold stepsOf at hx
  rcases List.mem_append.mp hx with hwithin | hbetween
  · obtain ⟨step, hstep, heq⟩ := List.mem_map.mp hwithin
    cases heq
    exact (mem_stepsWithin.mp hstep).mem_left
  · cases hlast : l.insts.getLast? with
    | none => simp [hlast] at hbetween
    | some last =>
      rw [hlast] at hbetween
      obtain ⟨t, -, hfirst⟩ := List.mem_filterMap.mp hbetween
      obtain ⟨first, -, heq⟩ := Option.map_eq_some_iff.mp hfirst
      cases heq
      exact List.mem_of_mem_getLast? hlast

theorem mem_blockInsts_of_mem_stepsOf (h : f.WellFormed) (hl : l ∈ f.layout)
    (hx : ((i, j), b) ∈ stepsOf f l) : j ∈ f.blockInsts b := by
  unfold stepsOf at hx
  rcases List.mem_append.mp hx with hwithin | hbetween
  · obtain ⟨step, hstep, heq⟩ := List.mem_map.mp hwithin
    cases heq
    rw [blockInsts_eq h.blocks_nodup hl]
    exact (mem_stepsWithin.mp hstep).mem_right
  · cases hlast : l.insts.getLast? with
    | none => simp [hlast] at hbetween
    | some last =>
      rw [hlast] at hbetween
      obtain ⟨t, -, hfirst⟩ := List.mem_filterMap.mp hbetween
      obtain ⟨first, hhead, heq⟩ := Option.map_eq_some_iff.mp hfirst
      cases heq
      exact List.mem_of_mem_head? hhead

theorem mem_steps_entering_iff (h : f.WellFormed) :
    ((i, j), b) ∈ f.layout.flatMap (stepsOf f) ↔ f.Follows i j ∧ j ∈ f.blockInsts b := by
  rw [List.mem_flatMap]
  constructor
  · rintro ⟨l, hl, hx⟩
    exact ⟨(mem_steps_iff h).mp ⟨l, hl, b, hx⟩, mem_blockInsts_of_mem_stepsOf h hl hx⟩
  · rintro ⟨hfollows, hj⟩
    obtain ⟨l, hl, c, hx⟩ := (mem_steps_iff h).mpr hfollows
    obtain rfl := h.block_unique hj (mem_blockInsts_of_mem_stepsOf h hl hx)
    exact ⟨l, hl, hx⟩

theorem nodup_stepsOf (h : f.WellFormed) (hl : l ∈ f.layout) :
    ((stepsOf f l).map Prod.fst).Nodup := by
  have hnodup : l.insts.Nodup := by
    rw [← blockInsts_eq h.blocks_nodup hl]
    exact h.nodup_blockInsts l.block
  unfold stepsOf
  rw [List.map_append, List.map_map, List.nodup_append]
  have hid : Prod.fst ∘ (fun step : InstId × InstId => (step, l.block)) = id := rfl
  rw [hid, List.map_id]
  refine ⟨nodup_stepsWithin hnodup, ?_, ?_⟩
  · cases l.insts.getLast? with
    | none => exact List.nodup_nil
    | some last =>
      dsimp only
      rw [List.map_filterMap]
      -- successors that start with the same instruction are the same block
      apply (Digraph.nodup_of_ascending (f.flowSuccs l.block).ascending).filterMap
      intro s t step hs ht
      simp only [Option.map_map, Option.mem_def, Option.map_eq_some_iff, Function.comp] at hs ht
      obtain ⟨x, hx, rfl⟩ := hs
      obtain ⟨y, hy, heq⟩ := ht
      obtain rfl : y = x := (Prod.mk.inj heq).2
      exact h.block_unique (List.mem_of_mem_head? hx) (List.mem_of_mem_head? hy)
  · -- a step within the block does not start at its last instruction
    intro step hstep step' hstep' heq
    obtain rfl := heq
    obtain ⟨i, j⟩ := step
    have hlast := (mem_stepsWithin.mp hstep).ne_getLast hnodup
    cases hend : l.insts.getLast? with
    | none => simp [hend] at hstep'
    | some last =>
      rw [hend] at hlast hstep'
      obtain ⟨⟨_, t⟩, hmem, rfl⟩ := List.mem_map.mp hstep'
      obtain ⟨s, -, hfirst⟩ := List.mem_filterMap.mp hmem
      obtain ⟨first, -, heq⟩ := Option.map_eq_some_iff.mp hfirst
      cases heq
      exact hlast rfl

theorem nodup_steps (h : f.WellFormed) :
    ((f.layout.flatMap (stepsOf f)).map Prod.fst).Nodup := by
  rw [List.map_flatMap, List.nodup_flatMap]
  refine ⟨fun l hl => nodup_stepsOf h hl, ?_⟩
  refine (List.nodup_flatMap.mp h.insts_nodup).2.imp ?_
  intro l m hapart step hl hm
  obtain ⟨⟨⟨i, j⟩, b⟩, hx, rfl⟩ := List.mem_map.mp hl
  obtain ⟨⟨⟨i', j'⟩, b'⟩, hy, heq⟩ := List.mem_map.mp hm
  cases heq
  exact hapart (mem_insts_of_mem_stepsOf hx) (mem_insts_of_mem_stepsOf hy)

end Steps

section Writes

def edge? (g : DependenceGraph) (step : InstId × InstId) : Option Edge :=
  match g.instNode? step.1, g.instNode? step.2 with
  | some u, some v => some ⟨u, v⟩
  | _, _ => none

def writes (f : Function) (weight : BlockId → Nat) : List (Edge × Nat) :=
  (f.layout.flatMap (stepsOf f)).filterMap fun (step, b) =>
    ((ofWeights f weight).edge? step).map (·, weight b)

theorem edge?_eq_some_iff (h : f.WellFormed) : (ofWeights f weight).edge? (i, j) = some ⟨u, v⟩ ↔
    (ofWeights f weight).inst? u = some i ∧ (ofWeights f weight).inst? v = some j := by
  rw [← instNode?_ofWeights_iff h, ← instNode?_ofWeights_iff h]
  unfold edge?
  cases (ofWeights f weight).instNode? i <;> cases (ofWeights f weight).instNode? j <;> simp

theorem mem_writes_iff (h : f.WellFormed) {w : Nat} : ((⟨u, v⟩ : Edge), w) ∈ writes f weight ↔
    ∃ i j b, (ofWeights f weight).inst? u = some i ∧ (ofWeights f weight).inst? v = some j ∧
      f.Follows i j ∧ j ∈ f.blockInsts b ∧ w = weight b := by
  unfold writes
  rw [List.mem_filterMap]
  constructor
  · rintro ⟨⟨⟨i, j⟩, b⟩, hstep, hwrite⟩
    obtain ⟨hfollows, hj⟩ := (mem_steps_entering_iff h).mp hstep
    obtain ⟨e, hedge, heq⟩ := Option.map_eq_some_iff.mp hwrite
    cases heq
    obtain ⟨hu, hv⟩ := (edge?_eq_some_iff h).mp hedge
    exact ⟨i, j, b, hu, hv, hfollows, hj, rfl⟩
  · rintro ⟨i, j, b, hu, hv, hfollows, hj, rfl⟩
    refine ⟨((i, j), b), (mem_steps_entering_iff h).mpr ⟨hfollows, hj⟩, ?_⟩
    dsimp only
    rw [(edge?_eq_some_iff h).mpr ⟨hu, hv⟩]
    rfl

theorem nodup_writes (h : f.WellFormed) : ((writes f weight).map Prod.fst).Nodup := by
  have hedges : (writes f weight).map Prod.fst =
      ((f.layout.flatMap (stepsOf f)).map Prod.fst).filterMap (ofWeights f weight).edge? := by
    unfold writes
    rw [List.map_filterMap, List.filterMap_map]
    congr 1
    funext x
    simp [Function.comp_def]
  rw [hedges]
  apply (nodup_steps h).filterMap
  rintro ⟨i, j⟩ ⟨i', j'⟩ ⟨u, v⟩ hedge hedge'
  obtain ⟨hu, hv⟩ := (edge?_eq_some_iff h).mp hedge
  obtain ⟨hu', hv'⟩ := (edge?_eq_some_iff h).mp hedge'
  rw [hu] at hu'
  rw [hv] at hv'
  simp_all

theorem bounds_of_mem_writes (h : f.WellFormed) : ∀ x ∈ writes f weight,
    x.1.src < (WeightedGraph.withNodes (pointsOf f).length).size ∧
      x.1.dst < (WeightedGraph.withNodes (pointsOf f).length).size := by
  rintro ⟨⟨u, v⟩, w⟩ hx
  obtain ⟨i, j, b, hu, hv, -⟩ := (mem_writes_iff h).mp hx
  rw [WeightedGraph.size_withNodes]
  exact ⟨instNode?_lt_length h ((instNode?_ofWeights_iff h).mpr hu),
    instNode?_lt_length h ((instNode?_ofWeights_iff h).mpr hv)⟩

theorem control_eq_putAll (h : f.WellFormed) : (ofWeights f weight).control =
    (WeightedGraph.withNodes (pointsOf f).length).putAll (writes f weight) := by
  unfold WeightedGraph.putAll writes
  rw [List.foldl_filterMap, List.foldl_flatMap]
  change f.layout.foldl _ _ = _
  apply List.foldl_ext
  intro g l hl
  apply List.foldl_ext
  rintro g ⟨⟨i, j⟩, b⟩ hx
  have hb : b < f.params.size :=
    h.blocks_lt b (mem_blocks_of_mem_blockInsts (mem_blockInsts_of_mem_stepsOf h hl hx))
  change (match (ofWeights f weight).instNode? i, (ofWeights f weight).instNode? j with
    | some u, some v => g.put u v ((((Array.range f.params.size).map weight)[b]?).getD 1)
    | _, _ => g) = _
  have hcost : (((Array.range f.params.size).map weight)[b]?).getD 1 = weight b := by simp [hb]
  rw [hcost]
  dsimp only [edge?]
  cases (ofWeights f weight).instNode? i <;> cases (ofWeights f weight).instNode? j <;> rfl

end Writes

/-- The nodes are the laid out parameters and instructions, each once, and the node of an
instruction and the instruction of a node are found from each other. -/
structure NodesMatch (f : Function) (g : DependenceGraph) : Prop where
  lt_size_iff (u : Node) : u < g.control.size ↔ ∃ x, g.points[u]? = some x
  unique (u v : Node) (x : ProgramPoint) :
    g.points[u]? = some x → g.points[v]? = some x → u = v
  param_iff (p : ValueId) : (∃ u : Node, g.points[u]? = some (.param p)) ↔ p ∈ f.layoutParams
  inst_iff (i : InstId) : (∃ u : Node, g.points[u]? = some (.inst i)) ↔ i ∈ f.layoutInsts
  inst?_iff (u : Node) (i : InstId) : g.inst? u = some i ↔ g.points[u]? = some (.inst i)
  instNode?_iff (u : Node) (i : InstId) : g.instNode? i = some u ↔ g.inst? u = some i

/-- The control edges are the steps of control.  Each is written once, with the weight of the block
that it enters. -/
structure StepsMatch (f : Function) (weight : BlockId → Nat) (g : DependenceGraph) : Prop where
  joins_iff (u v : Node) : 0 < g.control.weight u v ↔
    ∃ i j, g.inst? u = some i ∧ g.inst? v = some j ∧ f.Follows i j
  weighs (u v : Node) (j : InstId) (b : BlockId) : 0 < g.control.weight u v →
    g.inst? v = some j → j ∈ f.blockInsts b → g.control.weight u v = weight b
  param (u : Node) (p : ValueId) : g.points[u]? = some (.param p) →
    ∀ v, g.control.weight u v = 0 ∧ g.control.weight v u = 0
  written : g.control = (WeightedGraph.withNodes g.size).putAll (writes f weight)
  written_once : ((writes f weight).map Prod.fst).Nodup

section Exact

theorem nodesMatch (h : f.WellFormed) (hparams : f.layoutParams.Nodup) :
    NodesMatch f (ofWeights f weight) := by
  have hsize : (ofWeights f weight).control.size = (pointsOf f).length := by
    rw [control_eq_putAll h, WeightedGraph.size_putAll, WeightedGraph.size_withNodes]
  have hpoint : ∀ {u : Node} {x : ProgramPoint}, (ofWeights f weight).points[u]? = some x ↔
      (pointsOf f)[u]? = some x := by
    simp [points_ofWeights]
  constructor
  case lt_size_iff =>
    intro u
    simp [hsize, points_ofWeights, List.getElem?_eq_some_iff]
  case unique =>
    intro u v x hu hv
    obtain ⟨hlt, hu⟩ := List.getElem?_eq_some_iff.mp (hpoint.mp hu)
    obtain ⟨hlt', hv⟩ := List.getElem?_eq_some_iff.mp (hpoint.mp hv)
    exact (nodup_pointsOf h hparams).getElem_inj_iff.mp (hu.trans hv.symm)
  case param_iff =>
    intro p
    simp only [hpoint]
    rw [← List.mem_iff_getElem?, mem_pointsOf_param]
  case inst_iff =>
    intro i
    simp only [hpoint]
    rw [← List.mem_iff_getElem?, mem_pointsOf]
  case inst?_iff =>
    intro u i
    rw [hpoint]
    exact inst?_ofWeights_eq_some_iff
  case instNode?_iff => exact fun u i => instNode?_ofWeights_iff h

theorem weight_of_mem_writes (h : f.WellFormed) {w : Nat}
    (hw : ((⟨u, v⟩ : Edge), w) ∈ writes f weight) : (ofWeights f weight).control.weight u v = w := by
  rw [control_eq_putAll h]
  exact (WeightedGraph.weight_putAll (nodup_writes h) (bounds_of_mem_writes h) u v).1 w hw

theorem weight_of_not_written (h : f.WellFormed)
    (hout : (⟨u, v⟩ : Edge) ∉ (writes f weight).map Prod.fst) :
    (ofWeights f weight).control.weight u v = 0 := by
  rw [control_eq_putAll h]
  rw [(WeightedGraph.weight_putAll (nodup_writes h) (bounds_of_mem_writes h) u v).2 hout]
  exact WeightedGraph.weight_withNodes _ u v

theorem mem_writes_of_pos (h : f.WellFormed) (hpos : 0 < (ofWeights f weight).control.weight u v) :
    ((⟨u, v⟩ : Edge), (ofWeights f weight).control.weight u v) ∈ writes f weight := by
  by_contra hnot
  have hzero : (ofWeights f weight).control.weight u v = 0 := by
    apply weight_of_not_written h
    intro hmem
    obtain ⟨⟨e, w⟩, hw, rfl⟩ := List.mem_map.mp hmem
    rw [weight_of_mem_writes h hw] at hnot
    exact hnot hw
  omega

theorem stepsMatch (h : f.WellFormed) (hweight : ∀ b ∈ f.blocks, 0 < weight b) :
    StepsMatch f weight (ofWeights f weight) := by
  have hjoins : ∀ u v, 0 < (ofWeights f weight).control.weight u v ↔ ∃ i j,
      (ofWeights f weight).inst? u = some i ∧ (ofWeights f weight).inst? v = some j ∧
        f.Follows i j := by
    intro u v
    constructor
    · intro hpos
      obtain ⟨i, j, b, hu, hv, hfollows, -⟩ := (mem_writes_iff h).mp (mem_writes_of_pos h hpos)
      exact ⟨i, j, hu, hv, hfollows⟩
    · rintro ⟨i, j, hu, hv, hfollows⟩
      obtain ⟨b, hb⟩ := h.mem_layoutInsts.mp (h.mem_layoutInsts_of_follows hfollows)
      rw [weight_of_mem_writes h ((mem_writes_iff h).mpr ⟨i, j, b, hu, hv, hfollows, hb, rfl⟩)]
      exact hweight b (mem_blocks_of_mem_blockInsts hb)
  constructor
  case joins_iff => exact hjoins
  case weighs =>
    intro u v j b hpos hv hj
    obtain ⟨i, j', b', -, hv', -, hj', hw⟩ := (mem_writes_iff h).mp (mem_writes_of_pos h hpos)
    obtain rfl := Option.some_inj.mp (hv.symm.trans hv')
    rw [hw, h.block_unique hj hj']
  case param =>
    intro u p hp v
    have hnone : (ofWeights f weight).inst? u = none := by
      unfold inst?
      rw [hp]
    constructor
    · apply Nat.eq_zero_of_not_pos
      intro hpos
      obtain ⟨i, j, hu, -⟩ := (hjoins u v).mp hpos
      rw [hnone] at hu
      cases hu
    · apply Nat.eq_zero_of_not_pos
      intro hpos
      obtain ⟨i, j, -, hu, -⟩ := (hjoins v u).mp hpos
      rw [hnone] at hu
      cases hu
  case written =>
    have hsize : (ofWeights f weight).size = (pointsOf f).length := List.size_toArray
    rw [hsize]
    exact control_eq_putAll h
  case written_once => exact nodup_writes h

theorem control_edges_exact (f : Function) (h : f.WellFormed) (hparams : f.layoutParams.Nodup)
    (weight : BlockId → Nat) (hweight : ∀ b ∈ f.blocks, 0 < weight b) :
    NodesMatch f (ofWeights f weight) ∧ StepsMatch f weight (ofWeights f weight) :=
  ⟨nodesMatch h hparams, stepsMatch h hweight⟩

/-- A loop of one instruction that goes to itself and to an empty block twice, after a block with a
branch in its middle and no branch at its end. -/
def raggedLoop : Function := .build ⟨.numbered 0 0, [], [],
  [⟨[⟨.i32, 1⟩, ⟨.i64, 1⟩], [⟨.jump, [], .targets [⟨2, []⟩], none, []⟩,
      ⟨.load, [1], .offset 0, some ⟨.i64, 1⟩, [⟨.i64, 1⟩]⟩]⟩,
    ⟨[], []⟩,
    ⟨[⟨.i64, 1⟩], [⟨.brTable, [0], .targets [⟨2, [1]⟩, ⟨1, []⟩, ⟨2, [2]⟩, ⟨3, []⟩], none, []⟩]⟩,
    ⟨[], [⟨.fence, [], .none, none, []⟩]⟩], some [0, 2, 1, 3]⟩

theorem control_edges_exact_raggedLoop :
    raggedLoop.WellFormed ∧ raggedLoop.layoutParams.Nodup ∧ (∀ b ∈ raggedLoop.blocks, 0 < b + 1) ∧
      NodesMatch raggedLoop (ofWeights raggedLoop (· + 1)) ∧
      StepsMatch raggedLoop (· + 1) (ofWeights raggedLoop (· + 1)) ∧
      (ofWeights raggedLoop (· + 1)).control.digraph.edges =
        [(⟨2, 3⟩, 1), (⟨5, 5⟩, 3), (⟨5, 6⟩, 4)] := by
  have hformed : raggedLoop.WellFormed := build_wellFormed (by decide)
  have hparams : raggedLoop.layoutParams.Nodup := nodup_params_build (by decide)
  have hweight : ∀ b ∈ raggedLoop.blocks, 0 < b + 1 := fun b _ => Nat.succ_pos b
  obtain ⟨hnodes, hsteps⟩ := control_edges_exact raggedLoop hformed hparams (· + 1) hweight
  exact ⟨hformed, hparams, hweight, hnodes, hsteps, by decide +kernel⟩

end Exact

end DependenceGraph

end SpecFence
