import SpecFence.Proofs.Collected
import SpecFence.Proofs.Unbounded

/-!
# Emitted groups can be cut

A group is emitted with at least two stages that are inhabited, lie in the graph, and share no node
with the next, so it passes the check.  Its first stage is left by at least one step, and when
all blocks have finite weights that step is over a finite edge: no walk over infinite edges
satisfies an emitted group.
-/

set_option autoImplicit false

namespace SpecFence

open Relation

namespace WaypointGroup

variable {group : WaypointGroup} {size : Nat}

theorem WellPosed.not_satisfiable (h : group.WellPosed size) {R : Node → Node → Prop}
    (hstuck : ∀ u v, ¬ R u v) : ¬ group.Satisfiable R := by
  rintro ⟨first, rest, u, hstages, hu, hrest⟩
  have hlong := h.long
  have hdisjoint := h.disjoint
  rw [hstages] at hlong hdisjoint
  cases rest with
  | nil => simp at hlong
  | cons next rest =>
    obtain ⟨v, huv, hv, -⟩ := hrest
    obtain rfl : u = v := by
      rcases huv.cases_head with heq | ⟨w, huw, -⟩
      · exact heq
      · exact absurd huw (hstuck u w)
    exact (List.isChain_cons_cons.mp hdisjoint).1 u hu hv

end WaypointGroup

namespace DependenceGraph

variable {f : Function} {weighting : BlockWeighting} {bound : Nat}

section Weights

theorem weight_foldl_put_lt {α : Type} (l : List α) (ends : α → Option (Node × Node)) (w : α → Nat)
    (hw : ∀ x ∈ l, w x < bound) (r : WeightedGraph)
    (hbound : ∀ x ∈ l, ∀ u v, ends x = some (u, v) → u < r.size ∧ v < r.size)
    (hr : ∀ a b, r.weight a b < bound) (a b : Node) :
    (l.foldl (fun r x => match ends x with
      | some (u, v) => r.put u v (w x)
      | none => r) r).weight a b < bound := by
  induction l generalizing r with
  | nil => exact hr a b
  | cons x l ih =>
    rw [List.forall_mem_cons] at hw hbound
    rw [List.foldl_cons]
    cases hx : ends x with
    | none => exact ih hw.2 r hbound.2 hr
    | some e =>
      obtain ⟨hu, hv⟩ := hbound.1 e.1 e.2 hx
      apply ih hw.2
      · intro y hy u v hends
        rw [WeightedGraph.size_put]
        exact hbound.2 y hy u v hends
      · intro c d
        rw [WeightedGraph.weight_put hu hv]
        split
        · exact hw.1
        · exact hr c d

theorem instNode?_lt {i : InstId} {n : Node}
    (h : (ofFunction f weighting).instNode? i = some n) : n < (ofFunction f weighting).size := by
  rw [getElem?_instNodes] at h
  change n < (pointsOf f).toArray.size
  rw [List.size_toArray]
  split at h
  · obtain ⟨hlt, -⟩ := List.idxOf?_eq_some_iff.mp h
    exact hlt
  · cases h

theorem mem_blocks_of_mem_stepsOf {l : LaidBlock} (hl : l ∈ f.layout)
    {x : (InstId × InstId) × BlockId} (hx : x ∈ stepsOf f l) : x.2 ∈ f.blocks := by
  unfold stepsOf at hx
  rcases List.mem_append.mp hx with hwithin | hbetween
  · obtain ⟨step, -, rfl⟩ := List.mem_map.mp hwithin
    exact List.mem_map_of_mem hl
  · split at hbetween
    · exact absurd hbetween List.not_mem_nil
    · obtain ⟨b, -, hfirst⟩ := List.mem_filterMap.mp hbetween
      obtain ⟨first, hhead, rfl⟩ := Option.map_eq_some_iff.mp hfirst
      exact Function.mem_blocks_of_mem_blockInsts (List.mem_of_mem_head? hhead)

theorem control_weight_lt (hone : 1 < bound)
    (hweights : ∀ b ∈ f.blocks, weighting.weight f b < bound) (u v : Node) :
    (ofFunction f weighting).control.weight u v < bound := by
  rw [control_ofFunction]
  apply weight_foldl_put_lt
  · intro x hx
    obtain ⟨l, hl, hx⟩ := List.mem_flatMap.mp hx
    rw [Array.getElem?_map, Array.getElem?_range]
    split
    · exact hweights x.2 (mem_blocks_of_mem_stepsOf hl hx)
    · exact hone
  · intro x _ u v hends
    obtain ⟨hu, hv⟩ := endsOf_eq_some_iff.mp hends
    rw [WeightedGraph.size_withNodes]
    exact ⟨instNode?_lt hu, instNode?_lt hv⟩
  · intro a b
    rw [WeightedGraph.weight_withNodes]
    omega

theorem size_foldl_put {α : Type} (l : List α) (ends : α → Option (Node × Node)) (w : α → Nat)
    (r : WeightedGraph) :
    (l.foldl (fun r x => match ends x with
      | some (u, v) => r.put u v (w x)
      | none => r) r).size = r.size := by
  induction l generalizing r with
  | nil => rfl
  | cons x l ih =>
    rw [List.foldl_cons, ih]
    split
    · exact WeightedGraph.size_put _ _ _ _
    · rfl

theorem size_digraph (f : Function) (weighting : BlockWeighting) :
    (ofFunction f weighting).digraph.size = (ofFunction f weighting).size := by
  change (ofFunction f weighting).control.size = (pointsOf f).toArray.size
  rw [control_ofFunction, List.size_toArray]
  exact (size_foldl_put _ (endsOf f weighting) _ _).trans (WeightedGraph.size_withNodes _)

end Weights

end DependenceGraph

theorem Logged.foldlM_total {α ε σ : Type} {f : σ → α → Logged ε σ} {P : σ → Prop} (l : List α)
    (hstep : ∀ s a, a ∈ l → P s → ∃ t, (f s a).result = .ok t ∧ P t) {s : σ} (hs : P s) :
    ∃ t, (l.foldlM f s).result = .ok t ∧ P t := by
  induction l generalizing s with
  | nil => exact ⟨s, rfl, hs⟩
  | cons a l ih =>
    obtain ⟨next, hnext, hkept⟩ := hstep s a List.mem_cons_self hs
    obtain ⟨t, ht, hlast⟩ := ih (fun s b hb => hstep s b (List.mem_cons_of_mem a hb)) hkept
    refine ⟨t, ?_, hlast⟩
    rw [List.foldlM_cons, Recorded.bind_result_eq_ok_iff]
    exact ⟨next, hnext, ht⟩

namespace GroupInput

variable {input : GroupInput} {group : WaypointGroup} {sink : Node} {i : InstId}

section Groups

theorem wellPosed_stagesOf {branches sources : NodeSet} {size : Nat}
    (hbranches : ∀ v ∈ branches, v < size) (hsources : ∀ v ∈ sources, v < size)
    (hsink : sink < size) (hinhabited : ∃ v, v ∈ sources) (hnot : sink ∉ sources) :
    (⟨stagesOf branches sources sink⟩ : WaypointGroup).WellPosed size := by
  have hpair : (⟨[sources, .singleton sink]⟩ : WaypointGroup).WellPosed size := by
    constructor
    · simp
    · simp [hinhabited]
    · simpa using ⟨hsources, hsink⟩
    · refine .cons_cons ?_ (.singleton _)
      intro v hv hmem
      exact hnot (AscSet.mem_singleton.mp hmem ▸ hv)
  unfold stagesOf
  dsimp only
  split
  · exact hpair
  · rename_i hne
    obtain ⟨v, hv⟩ : ∃ v, v ∈ branches.difference sources := by
      by_contra hnone
      exact hne (AscSet.isEmpty_iff.mpr fun v hv => hnone ⟨v, hv⟩)
    constructor
    · simp
    · exact List.forall_mem_cons.mpr ⟨⟨v, hv⟩, hpair.inhabited⟩
    · exact List.forall_mem_cons.mpr
        ⟨fun u hu => hbranches u (AscSet.mem_difference.mp hu).1, hpair.bound⟩
    · exact List.isChain_cons_cons.mpr
        ⟨fun u hu => (AscSet.mem_difference.mp hu).2, hpair.disjoint⟩

theorem branchNodes_lt (input : GroupInput) : ∀ v ∈ input.branchNodes, v < input.graph.size := by
  intro v hv
  unfold branchNodes at hv
  split at hv
  · rw [AscSet.mem_ofList, List.mem_filter, List.mem_range] at hv
    exact hv.1
  · exact absurd hv (AscSet.not_mem_empty v)

variable {f : Function} {weighting : BlockWeighting}
  (hgraph : input.graph = .ofFunction f weighting)
include hgraph

theorem sourceStage_lt (x : ValueId) (kind : Transmission) :
    ∀ u ∈ input.sourceStage sink (input.originsOf x kind), u < input.graph.size := by
  intro u hu
  rw [hgraph]
  obtain ⟨-, ⟨o, n⟩, hy, hcase⟩ := PassInput.mem_sourceStage.mp hu
  rcases hcase with ⟨-, rfl⟩ | ⟨-, hnext⟩
  · unfold originsOf at hy
    obtain ⟨o', -, hsome⟩ := List.mem_filterMap.mp hy
    split at hsome
    · cases hsome
    · obtain ⟨m, hm, heq⟩ := Option.map_eq_some_iff.mp hsome
      cases heq
      rw [hgraph] at hm
      exact DependenceGraph.instNode?_lt hm
  · rw [hgraph] at hnext
    have hconsistent := (DependenceGraph.ofFunction f weighting).control.digraph_consistent
    have hlt := hconsistent.dst_lt sink u ((Digraph.mem_next hconsistent).mp hnext)
    rw [← DependenceGraph.size_digraph]
    exact hlt

theorem wellPosed_of_groupOf? (hsink : input.graph.instNode? i = some sink)
    {operand : ValueId × Transmission}
    (h : input.groupOf? input.branchNodes sink operand = some group) :
    group.WellPosed input.graph.size := by
  unfold groupOf? at h
  split at h
  · cases h
  · dsimp only at h
    split at h
    · cases h
    · rename_i hne
      cases h
      apply wellPosed_stagesOf input.branchNodes_lt (sourceStage_lt hgraph _ _)
      · rw [hgraph] at hsink ⊢
        exact DependenceGraph.instNode?_lt hsink
      · by_contra hnone
        exact hne (AscSet.isEmpty_iff.mpr fun v hv => hnone ⟨v, hv⟩)
      · intro hmem
        exact (PassInput.mem_sourceStage.mp hmem).1 rfl

theorem exists_addInst (hrule : ∃ operands,
      input.function.transmitters input.taintInput.table i = .ok operands)
    {state : LeakClassifier × CollectedGroups}
    (hstate : ∀ group ∈ state.2.groups, group.WellPosed input.graph.size) :
    ∃ next, (input.addInst input.branchNodes state i).result = .ok next ∧
      ∀ group ∈ next.2.groups, group.WellPosed input.graph.size := by
  cases hsink : input.graph.instNode? i with
  | none =>
    refine ⟨state, ?_, hstate⟩
    unfold addInst
    rw [hsink]
    rfl
  | some sink =>
    obtain ⟨operands, hoperands⟩ := hrule
    obtain ⟨c, hresult⟩ := addInst_eq_ok input.branchNodes hsink hoperands state
    refine ⟨_, hresult, ?_⟩
    intro group hgroup
    rcases (mem_groups_foldl_addOperand state.2).mp hgroup with hold | ⟨operand, -, hnew⟩
    · exact hstate group hold
    · exact wellPosed_of_groupOf? hgraph hsink hnew

/-- Collecting succeeds when all instructions have a rule for what they transmit, and every group
passes the check. -/
theorem exists_collect (hrules : ∀ i ∈ input.function.layoutInsts, ∃ operands,
      input.function.transmitters input.taintInput.table i = .ok operands) :
    ∃ out, input.collect.result = .ok out ∧
      ∀ group ∈ out.groups, group.WellPosed input.graph.size := by
  obtain ⟨⟨c, out⟩, hresult, hgroups⟩ := Logged.foldlM_total
    (P := fun state : LeakClassifier × CollectedGroups =>
      ∀ group ∈ state.2.groups, group.WellPosed input.graph.size)
    input.function.layoutInsts (fun state i hi hstate => exists_addInst hgraph (hrules i hi) hstate)
    (s := (.initial, ⟨[], .empty, .empty⟩)) (by simp)
  refine ⟨out, ?_, hgroups⟩
  unfold collect
  rw [Recorded.bind_result_eq_ok_iff]
  exact ⟨(c, out), hresult, rfl⟩

end Groups

end GroupInput

end SpecFence
