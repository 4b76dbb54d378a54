import Mathlib.Data.Set.Card
import SpecFence.Proofs.BranchWaypoints

/-!
# What is collected, operand by operand

Collecting goes through the transmitted operands in the order of the layout.  A kept operand adds
its origins to the sources.  If its source stage is not empty, it also adds its group, and its
instruction to the sinks.  So the sources are the origins that emitted groups were built from,
together with the instructions at the end of a block that are their own origins.
-/

set_option autoImplicit false

namespace SpecFence

theorem AscSet.ncard_eq_size {κ : Type} [Ord κ] [Std.TransOrd κ] [Std.LawfulEqOrd κ]
    [DecidableEq κ] (s : AscSet κ) : {k | k ∈ s}.ncard = s.size := by
  have hset : {k | k ∈ s} = ↑s.toList.toFinset := by
    ext k
    simp [AscSet.mem_def]
  rw [hset, Set.ncard_coe_finset, List.toFinset_card_of_nodup s.nodup_toList]
  rfl

structure Offer where
  inst : InstId
  sink : Node
  operand : ValueId × Transmission

namespace GroupInput

variable {input : GroupInput} {branches : NodeSet} {xs : List Offer} {i o : InstId}
  {out : CollectedGroups} {group : WaypointGroup} {state : LeakClassifier × CollectedGroups}

def offersOf (input : GroupInput) (i : InstId) : List Offer :=
  match input.graph.instNode? i, input.function.transmitters input.taintInput.table i with
  | some sink, .ok operands => operands.map (⟨i, sink, ·⟩)
  | _, _ => []

def offers (input : GroupInput) : List Offer := input.function.layoutInsts.flatMap input.offersOf

def keptOrigins (input : GroupInput) (x : Offer) : List InstId :=
  if input.leavesOut x.operand.1 x.operand.2 then []
  else (input.originsOf x.operand.1 x.operand.2).map Prod.fst

def addOffer (input : GroupInput) (branches : NodeSet) (out : CollectedGroups) (x : Offer) :
    CollectedGroups :=
  input.addOperand branches x.inst x.sink out x.operand

def offered? (input : GroupInput) (branches : NodeSet) (x : Offer) : Option WaypointGroup :=
  input.groupOf? branches x.sink x.operand

section Collecting

theorem foldlM_addInst_eq {insts : List InstId} {final : LeakClassifier × CollectedGroups}
    (h : (insts.foldlM (input.addInst branches) state).result = .ok final) :
    final.2 = (insts.flatMap input.offersOf).foldl (input.addOffer branches) state.2 := by
  induction insts generalizing state with
  | nil =>
    rw [List.foldlM_nil, Recorded.pure_result_eq_ok_iff] at h
    rw [← h]
    rfl
  | cons i insts ih =>
    rw [List.foldlM_cons, Recorded.bind_result_eq_ok_iff] at h
    obtain ⟨next, hnext, hrest⟩ := h
    rw [ih hrest, List.flatMap_cons, List.foldl_append]
    congr 1
    unfold addInst at hnext
    unfold offersOf
    cases hsink : input.graph.instNode? i with
    | none =>
      rw [hsink] at hnext
      rw [← Recorded.pure_result_eq_ok_iff.mp hnext]
      rfl
    | some sink =>
      rw [hsink] at hnext
      dsimp only at hnext
      rw [Recorded.bind_result_eq_ok_iff, result_classify] at hnext
      obtain ⟨operands, hoperands, hnext⟩ := hnext
      rw [← Recorded.pure_result_eq_ok_iff.mp hnext, hoperands]
      dsimp only
      rw [List.foldl_map]
      rfl

theorem collect_eq_foldl (h : input.collect.result = .ok out) :
    out = input.offers.foldl (input.addOffer input.branchNodes) ⟨[], .empty, .empty⟩ := by
  unfold collect at h
  rw [Recorded.bind_result_eq_ok_iff] at h
  obtain ⟨final, hfinal, h⟩ := h
  rw [← Recorded.pure_result_eq_ok_iff.mp h]
  exact foldlM_addInst_eq hfinal

theorem groups_foldl_addOffer : (xs.foldl (input.addOffer branches) out).groups =
    out.groups ++ xs.filterMap (input.offered? branches) := by
  induction xs generalizing out with
  | nil => simp
  | cons x xs ih =>
    rw [List.foldl_cons, ih, addOffer, groups_addOperand, List.append_assoc]
    congr 1
    unfold offered?
    cases hgroup : input.groupOf? branches x.sink x.operand <;> simp [hgroup]

theorem mem_sources_addOffer (x : Offer) : o ∈ (input.addOffer branches out x).sources ↔
    o ∈ out.sources ∨ o ∈ input.keptOrigins x := by
  unfold addOffer addOperand keptOrigins
  by_cases hleft : input.leavesOut x.operand.1 x.operand.2 = true
  · simp [hleft]
  · simp only [hleft, if_false, Bool.false_eq_true]
    split
    · exact AscSet.mem_insertAll
    · exact AscSet.mem_insertAll

theorem mem_sources_foldl_addOffer : o ∈ (xs.foldl (input.addOffer branches) out).sources ↔
    o ∈ out.sources ∨ ∃ x ∈ xs, o ∈ input.keptOrigins x := by
  induction xs generalizing out with
  | nil => simp
  | cons x xs ih =>
    rw [List.foldl_cons, ih, mem_sources_addOffer]
    simp [or_assoc]

theorem mem_sinks_addOffer (x : Offer) : i ∈ (input.addOffer branches out x).sinks ↔
    i ∈ out.sinks ∨ (i = x.inst ∧ ∃ group, input.offered? branches x = some group) := by
  unfold addOffer addOperand offered? groupOf?
  by_cases hleft : input.leavesOut x.operand.1 x.operand.2 = true
  · simp [hleft]
  · by_cases hempty :
        (input.sourceStage x.sink (input.originsOf x.operand.1 x.operand.2)).isEmpty = true
    · simp [hleft, hempty]
    · simp [hleft, hempty, or_comm]

theorem mem_sinks_foldl_addOffer : i ∈ (xs.foldl (input.addOffer branches) out).sinks ↔
    i ∈ out.sinks ∨ ∃ x ∈ xs, i = x.inst ∧ ∃ group, input.offered? branches x = some group := by
  induction xs generalizing out with
  | nil => simp
  | cons x xs ih =>
    rw [List.foldl_cons, ih, mem_sinks_addOffer]
    simp [or_assoc]

/-- Everything that is collected, in terms of the operands. -/
structure Gathers (input : GroupInput) (out : CollectedGroups) : Prop where
  groups : out.groups = input.offers.filterMap (input.offered? input.branchNodes)
  mem_sources : ∀ o, o ∈ out.sources ↔ ∃ x ∈ input.offers, o ∈ input.keptOrigins x
  mem_sinks : ∀ i, i ∈ out.sinks ↔
    ∃ x ∈ input.offers, i = x.inst ∧ ∃ group, input.offered? input.branchNodes x = some group

theorem gathers_collect (h : input.collect.result = .ok out) : input.Gathers out := by
  rw [collect_eq_foldl h]
  constructor
  case groups => exact groups_foldl_addOffer
  case mem_sources =>
    intro o
    rw [mem_sources_foldl_addOffer]
    simp
  case mem_sinks =>
    intro i
    rw [mem_sinks_foldl_addOffer]
    simp

theorem mem_offersOf {x : Offer} : x ∈ input.offersOf i ↔
    x.inst = i ∧ input.graph.instNode? i = some x.sink ∧ ∃ operands,
      input.function.transmitters input.taintInput.table i = .ok operands ∧
        x.operand ∈ operands := by
  obtain ⟨j, sink, operand⟩ := x
  unfold offersOf
  cases input.graph.instNode? i with
  | none => simp
  | some n =>
    cases input.function.transmitters input.taintInput.table i with
    | error e => simp
    | ok operands =>
      simp only [List.mem_map, Offer.mk.injEq, Option.some_inj, Except.ok.injEq, exists_eq_left']
      constructor
      · rintro ⟨a, ha, rfl, rfl, rfl⟩
        exact ⟨rfl, rfl, ha⟩
      · rintro ⟨rfl, rfl, hmem⟩
        exact ⟨operand, hmem, rfl, rfl, rfl⟩

end Collecting

section Emitted

/-- An emitted group was built from an origin. -/
def BuiltFrom (input : GroupInput) (group : WaypointGroup) (o : InstId) : Prop :=
  ∃ x ∈ input.offers, input.offered? input.branchNodes x = some group ∧ o ∈ input.keptOrigins x

def DeadEnd (input : GroupInput) (o : InstId) : Prop :=
  (∃ x ∈ input.offers, x.inst = o ∧ o ∈ input.keptOrigins x) ∧ ∀ i, ¬ input.function.Follows o i

theorem mem_keptOrigins {x : Offer} : o ∈ input.keptOrigins x ↔
    input.leavesOut x.operand.1 x.operand.2 = false ∧
      ∃ u, (o, u) ∈ input.originsOf x.operand.1 x.operand.2 := by
  unfold keptOrigins
  by_cases hleft : input.leavesOut x.operand.1 x.operand.2 = true
  · simp [hleft]
  · simp [hleft]

theorem offered?_cases (branches : NodeSet) {x : Offer} (ho : o ∈ input.keptOrigins x) :
    (∃ group, input.offered? branches x = some group) ∨
      ∀ u, u ∉ input.sourceStage x.sink (input.originsOf x.operand.1 x.operand.2) := by
  cases hgroup : input.offered? branches x with
  | some group => exact Or.inl ⟨group, rfl⟩
  | none =>
    rcases PassInput.groupOf?_eq_none_iff.mp hgroup with hleft | hempty
    · have hkept := (mem_keptOrigins.mp ho).1
      rw [hleft] at hkept
      cases hkept
    · exact Or.inr hempty

theorem stages_of_offered? {x : Offer} (h : input.offered? branches x = some group) :
    ∃ init, group.stages = init ++ [.singleton x.sink] := by
  unfold offered? groupOf? at h
  split at h
  · cases h
  · dsimp only at h
    split at h
    · cases h
    · obtain rfl := Option.some_inj.mp h
      unfold stagesOf
      rw [List.append_cons]
      exact ⟨_, rfl⟩

variable {weighting : BlockWeighting}

theorem deadEnd_of_empty (h : input.function.WellFormed)
    (hgraph : input.graph = .ofFunction input.function weighting)
    (hbranch : (input.function.opcode o).isBranch = false) {x : Offer} (hx : x ∈ input.offers)
    (ho : o ∈ input.keptOrigins x)
    (hempty : ∀ u, u ∉ input.sourceStage x.sink (input.originsOf x.operand.1 x.operand.2)) :
    input.DeadEnd o := by
  obtain ⟨-, u, hu⟩ := mem_keptOrigins.mp ho
  obtain ⟨i, -, hoffer⟩ := List.mem_flatMap.mp hx
  obtain ⟨rfl, hsink, -⟩ := mem_offersOf.mp hoffer
  rw [hgraph, DependenceGraph.instNode?_eq_some_iff h] at hsink
  have hnode := ((mem_originsOf_iff h hgraph).mp hu).2.2
  rw [hgraph] at hnode
  have hself : u = x.sink := by
    by_contra hne
    exact hempty u (PassInput.mem_sourceStage.mpr ⟨hne, (o, u), hu, Or.inl ⟨hne, rfl⟩⟩)
  rw [hself] at hnode
  refine ⟨⟨x, hx, Option.some_inj.mp (hsink.symm.trans hnode), ho⟩, ?_⟩
  intro i hfollows
  obtain ⟨w, hw⟩ : ∃ w, (DependenceGraph.ofFunction input.function weighting).inst? w = some i :=
    DependenceGraph.exists_node (h.mem_layoutInsts_of_follows hfollows)
  have hnext : w ∈ input.graph.digraph.next x.sink := by
    rw [hgraph]
    exact (PassInput.mem_next_iff h hnode hw).mpr hfollows
  have hloop : w = x.sink := by
    by_contra hne
    exact hempty w (PassInput.mem_sourceStage.mpr ⟨hne, (o, u), hu, Or.inr ⟨hself, hnext⟩⟩)
  rw [hloop] at hw
  obtain rfl := Option.some_inj.mp (hnode.symm.trans hw)
  rw [h.isBranch_of_follows_self hfollows] at hbranch
  cases hbranch

theorem Gathers.mem_sources_iff (h : input.function.WellFormed)
    (hgraph : input.graph = .ofFunction input.function weighting)
    (hbranch : ∀ v, ∀ o ∈ input.taint.originsOf v, (input.function.opcode o).isBranch = false)
    (hout : input.Gathers out) : o ∈ out.sources ↔
      (∃ group ∈ out.groups, input.BuiltFrom group o) ∨ input.DeadEnd o := by
  rw [hout.mem_sources]
  constructor
  · rintro ⟨x, hx, ho⟩
    rcases offered?_cases input.branchNodes ho with ⟨group, hgroup⟩ | hempty
    · refine Or.inl ⟨group, ?_, x, hx, hgroup, ho⟩
      rw [hout.groups]
      exact List.mem_filterMap.mpr ⟨x, hx, hgroup⟩
    · obtain ⟨-, u, hu⟩ := mem_keptOrigins.mp ho
      have horigin := ((mem_originsOf_iff h hgraph).mp hu).1
      exact Or.inr (deadEnd_of_empty h hgraph (hbranch _ o horigin) hx ho hempty)
  · rintro (⟨group, -, x, hx, -, ho⟩ | ⟨⟨x, hx, -, ho⟩, -⟩)
    · exact ⟨x, hx, ho⟩
    · exact ⟨x, hx, ho⟩

end Emitted

end GroupInput

/-- The one node of the last stage of a group is that of an instruction. -/
def DependenceGraph.Transmits (graph : DependenceGraph) (group : WaypointGroup) (i : InstId) :
    Prop :=
  ∃ init v, group.stages = init ++ [.singleton v] ∧ graph.inst? v = some i

namespace GroupInput

variable {input : GroupInput} {out : CollectedGroups} {i : InstId} {weighting : BlockWeighting}

theorem Gathers.mem_sinks_iff (h : input.function.WellFormed)
    (hgraph : input.graph = .ofFunction input.function weighting) (hout : input.Gathers out) :
    i ∈ out.sinks ↔ ∃ group ∈ out.groups, input.graph.Transmits group i := by
  have hsink : ∀ x ∈ input.offers, input.graph.inst? x.sink = some x.inst := by
    intro x hx
    obtain ⟨i, -, hoffer⟩ := List.mem_flatMap.mp hx
    obtain ⟨rfl, hsink, -⟩ := mem_offersOf.mp hoffer
    rw [hgraph] at hsink ⊢
    exact (DependenceGraph.instNode?_eq_some_iff h).mp hsink
  rw [hout.mem_sinks, hout.groups]
  constructor
  · rintro ⟨x, hx, rfl, group, hgroup⟩
    obtain ⟨init, hstages⟩ := stages_of_offered? hgroup
    exact ⟨group, List.mem_filterMap.mpr ⟨x, hx, hgroup⟩, init, x.sink, hstages, hsink x hx⟩
  · rintro ⟨group, hmem, init, v, hstages, hv⟩
    obtain ⟨x, hx, hgroup⟩ := List.mem_filterMap.mp hmem
    obtain ⟨init', hstages'⟩ := stages_of_offered? hgroup
    have hlast : AscSet.singleton v = AscSet.singleton x.sink :=
      List.singleton_inj.mp (List.append_inj' (hstages.symm.trans hstages') rfl).2
    have hnode : v = x.sink := by
      apply AscSet.mem_singleton.mp
      rw [← hlast]
      exact AscSet.mem_singleton.mpr rfl
    rw [hnode, hsink x hx] at hv
    exact ⟨x, hx, (Option.some_inj.mp hv).symm, group, hgroup⟩

end GroupInput

namespace PassInput

variable {f : Function} {input : PassInput} {plan : PassPlan} {gi : GroupInput}

structure CollectsFrom (input : PassInput) (f : Function) (gi : GroupInput) : Prop where
  taintInput : gi.taintInput = input.taintInput f
  settings : gi.settings = input.settings
  graph : gi.graph = input.graph f
  taint : SpeculativeTaint.compute gi.taintInput = .ok gi.taint
  publicValues : input.publicValues? gi.taintInput = .ok gi.publicValues

theorem CollectsFrom.function (h : input.CollectsFrom f gi) : gi.function = f :=
  congrArg TaintInput.function h.taintInput

theorem exists_collectsFrom (h : (input.plan f).result = .ok plan) : plan.graph = input.graph f ∧
    ∃ gi, input.CollectsFrom f gi ∧ gi.collect.result = .ok plan.collected := by
  obtain ⟨taint, publicValues, htaint, hpublic, hgraph, hcollect, -⟩ := plan_eq_ok_iff.mp h
  exact ⟨hgraph, ⟨input.taintInput f, input.settings, plan.graph, taint, publicValues⟩,
    ⟨rfl, rfl, hgraph, htaint, hpublic⟩, hcollect⟩

theorem CollectsFrom.isBranch (h : input.CollectsFrom f gi) :
    ∀ v, ∀ o ∈ gi.taint.originsOf v, (f.opcode o).isBranch = false := by
  intro v o ho
  rw [← h.function]
  exact SpeculativeTaint.isBranch_of_mem_originsOf h.taint ho

theorem CollectsFrom.mem_sources_iff (h : f.WellFormed) (hgi : input.CollectsFrom f gi)
    {out : CollectedGroups} (hout : gi.Gathers out) {o : InstId} : o ∈ out.sources ↔
      (∃ group ∈ out.groups, gi.BuiltFrom group o) ∨ gi.DeadEnd o := by
  have hfunction := hgi.function
  refine hout.mem_sources_iff (hfunction ▸ h) (hfunction ▸ hgi.graph) ?_
  rw [hfunction]
  exact hgi.isBranch

theorem CollectsFrom.mem_sinks_iff (h : f.WellFormed) (hgi : input.CollectsFrom f gi)
    {out : CollectedGroups} (hout : gi.Gathers out) {i : InstId} :
    i ∈ out.sinks ↔ ∃ group ∈ out.groups, (input.graph f).Transmits group i := by
  have hfunction := hgi.function
  rw [← hgi.graph]
  exact hout.mem_sinks_iff (hfunction ▸ h) (hfunction ▸ hgi.graph)

end PassInput

end SpecFence
