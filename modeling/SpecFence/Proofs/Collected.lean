import Mathlib
import SpecFence.Proofs.Built
import SpecFence.Proofs.Dependence
import SpecFence.Proofs.Leaks
import SpecFence.Proofs.Origins
import SpecFence.Proofs.Plan
import SpecFence.Proofs.Walk

/-!
# Which groups are collected

Collecting succeeds when the taint analysis has, and emits one group for each transmitted operand
that is not left out and has origins in its source stage.  An origin is in that stage exactly when
what it loads is seen to leak along uses, or is transmitted only under further conditions; origins
whose flow to the sink is seen by the taint analysis alone, through calls or memory, are lost.
-/

set_option autoImplicit false

namespace SpecFence

namespace GroupInput

variable {input : GroupInput} {branches : NodeSet} {sink : Node} {i : InstId}
  {group : WaypointGroup} {operands : List (ValueId × Transmission)}

def groupOf? (input : GroupInput) (branches : NodeSet) (sink : Node)
    (operand : ValueId × Transmission) : Option WaypointGroup :=
  if input.leavesOut operand.1 operand.2 then none
  else
    let sources := input.sourceStage sink (input.originsOf operand.1 operand.2)
    if sources.isEmpty then none else some ⟨stagesOf branches sources sink⟩

theorem groups_addOperand (out : CollectedGroups) (operand : ValueId × Transmission) :
    (input.addOperand branches i sink out operand).groups =
      out.groups ++ (input.groupOf? branches sink operand).toList := by
  unfold addOperand groupOf?
  by_cases hleft : input.leavesOut operand.1 operand.2 = true
  · simp [hleft]
  · by_cases hempty :
        (input.sourceStage sink (input.originsOf operand.1 operand.2)).isEmpty = true
    · simp [hleft, hempty]
    · simp [hleft, hempty]

theorem mem_groups_foldl_addOperand (out : CollectedGroups) :
    group ∈ (operands.foldl (input.addOperand branches i sink) out).groups ↔
      group ∈ out.groups ∨ ∃ operand ∈ operands, input.groupOf? branches sink operand = some group := by
  induction operands generalizing out with
  | nil => simp
  | cons operand operands ih =>
    rw [List.foldl_cons, ih, groups_addOperand]
    simp [or_assoc]

theorem result_classify (c : LeakClassifier) (f : Function) (table : IntrinsicTable) (i : InstId) :
    (c.classify f table i).2.result = f.transmitters table i := by
  unfold LeakClassifier.classify
  split
  · rfl
  · rfl

theorem addInst_eq_ok (branches : NodeSet) (hsink : input.graph.instNode? i = some sink)
    (hoperands : input.function.transmitters input.taintInput.table i = .ok operands)
    (state : LeakClassifier × CollectedGroups) :
    ∃ c, (input.addInst branches state i).result =
      .ok (c, operands.foldl (input.addOperand branches i sink) state.2) := by
  unfold addInst
  rw [hsink]
  refine ⟨(state.1.classify input.function input.taintInput.table i).1, ?_⟩
  dsimp only
  rw [Recorded.bind_result_eq_ok_iff]
  exact ⟨operands, (result_classify _ _ _ _).trans hoperands, rfl⟩

/-- What an instruction with a node emits. -/
def Emits (input : GroupInput) (branches : NodeSet) (i : InstId) (group : WaypointGroup) : Prop :=
  ∃ sink operands, input.graph.instNode? i = some sink ∧
    input.function.transmitters input.taintInput.table i = .ok operands ∧
    ∃ operand ∈ operands, input.groupOf? branches sink operand = some group

theorem foldlM_addInst (branches : NodeSet) {insts : List InstId}
    (hnodes : ∀ i ∈ insts, ∃ sink, input.graph.instNode? i = some sink)
    (hrules : ∀ i ∈ insts, ∃ operands,
      input.function.transmitters input.taintInput.table i = .ok operands)
    (state : LeakClassifier × CollectedGroups) :
    ∃ c out, (insts.foldlM (input.addInst branches) state).result = .ok (c, out) ∧
      ∀ group, group ∈ out.groups ↔
        group ∈ state.2.groups ∨ ∃ i ∈ insts, input.Emits branches i group := by
  induction insts generalizing state with
  | nil => exact ⟨state.1, state.2, rfl, by simp⟩
  | cons i insts ih =>
    obtain ⟨sink, hsink⟩ := hnodes i List.mem_cons_self
    obtain ⟨operands, hoperands⟩ := hrules i List.mem_cons_self
    obtain ⟨c, hfirst⟩ := addInst_eq_ok branches hsink hoperands state
    obtain ⟨c', out, hrest, hgroups⟩ := ih (fun j hj => hnodes j (List.mem_cons_of_mem i hj))
      (fun j hj => hrules j (List.mem_cons_of_mem i hj))
      (c, operands.foldl (input.addOperand branches i sink) state.2)
    refine ⟨c', out, ?_, ?_⟩
    · rw [List.foldlM_cons, Recorded.bind_result_eq_ok_iff]
      exact ⟨_, hfirst, hrest⟩
    · intro group
      have hemits : input.Emits branches i group ↔
          ∃ operand ∈ operands, input.groupOf? branches sink operand = some group := by
        unfold Emits
        rw [hsink, hoperands]
        simp
      rw [hgroups, mem_groups_foldl_addOperand, or_assoc, ← hemits]
      simp

theorem collect_eq_ok (input : GroupInput)
    (hnodes : ∀ i ∈ input.function.layoutInsts, ∃ sink, input.graph.instNode? i = some sink)
    (hrules : ∀ i ∈ input.function.layoutInsts, ∃ operands,
      input.function.transmitters input.taintInput.table i = .ok operands) :
    ∃ out, input.collect.result = .ok out ∧ ∀ group, group ∈ out.groups ↔
      ∃ i ∈ input.function.layoutInsts, input.Emits input.branchNodes i group := by
  obtain ⟨c, out, hresult, hgroups⟩ :=
    foldlM_addInst input.branchNodes hnodes hrules (.initial, ⟨[], .empty, .empty⟩)
  refine ⟨out, ?_, ?_⟩
  · unfold collect
    rw [Recorded.bind_result_eq_ok_iff]
    exact ⟨(c, out), hresult, rfl⟩
  · intro group
    rw [hgroups]
    simp

theorem mem_originsOf_iff {weighting : BlockWeighting} (h : input.function.WellFormed)
    (hgraph : input.graph = .ofFunction input.function weighting) {x : ValueId}
    {kind : Transmission} {o : InstId} {u : Node} :
    (o, u) ∈ input.originsOf x kind ↔ o ∈ input.taint.originsOf x ∧
      input.isStopped kind o = false ∧ input.graph.inst? u = some o := by
  have hnode : input.graph.instNode? o = some u ↔ input.graph.inst? u = some o := by
    rw [hgraph]
    exact DependenceGraph.instNode?_eq_some_iff h
  rw [← hnode]
  unfold originsOf
  rw [List.mem_filterMap]
  constructor
  · rintro ⟨o', ho', hsome⟩
    split at hsome
    · cases hsome
    · rename_i hopen
      obtain ⟨n, hn, heq⟩ := Option.map_eq_some_iff.mp hsome
      obtain ⟨rfl, rfl⟩ := Prod.mk.inj heq
      exact ⟨ho', Bool.eq_false_iff.mpr hopen, hn⟩
  · rintro ⟨ho, hopen, hu⟩
    refine ⟨o, ho, ?_⟩
    rw [hopen, hu]
    rfl

end GroupInput

/-- A group ends with a stage that has the node of one instruction, and the node of another alone. -/
def DependenceGraph.LeadsFrom (graph : DependenceGraph) (group : WaypointGroup) (o i : InstId) :
    Prop :=
  ∃ init s u v, group.stages = init ++ [s, .singleton v] ∧ u ∈ s ∧ graph.inst? u = some o ∧
    graph.inst? v = some i

/-- The flow of what an origin loads to an operand is not taken for stopped: the operand is
transmitted only under further conditions, or what is loaded is seen to leak. -/
def Function.Visible (f : Function) (table : IntrinsicTable) (kind : Transmission) (o : InstId) :
    Prop :=
  kind = .pseudo ∨ ∀ r, f.firstResult? o = some r → f.Leaks table r

def Settings.Keeps (s : Settings) (kind : Transmission) : Prop :=
  kind = .pseudo → s.pseudoTransmitters = true

namespace PassInput

/-- What groups are collected from in a function, given its taint, if nothing is left out as
public. -/
def groupInput (input : PassInput) (f : Function) (taint : SpeculativeTaint) : GroupInput :=
  ⟨input.taintInput f, input.settings, input.graph f, taint, none⟩

variable {f : Function} {input : PassInput} {taint : SpeculativeTaint} {kind : Transmission}
  {x : ValueId} {i o : InstId} {u v : Node}

theorem isStopped_eq_false_iff (taint : SpeculativeTaint) (h : f.WellFormed) (hd : f.Defined)
    (ho : o ∈ f.layoutInsts) :
    (input.groupInput f taint).isStopped kind o = false ↔ f.Visible input.table kind o := by
  have hresult : (input.groupInput f taint).function.firstResult? o = f.firstResult? o := rfl
  unfold GroupInput.isStopped Function.Visible
  rw [hresult]
  cases kind with
  | pseudo => simp
  | always =>
    cases hr : f.firstResult? o with
    | none => simp
    | some r =>
      have hlt := Function.lt_of_definition? (hd.firstResult?_defined ho hr)
      change (!f.mayLeak input.table (.ofFunction f false) r) = false ↔ _
      rw [Bool.not_eq_false', Function.mayLeak_iff h hd hlt]
      simp

theorem mem_originsOf_groupInput (h : f.WellFormed) (hd : f.Defined)
    (htaint : SpeculativeTaint.compute (input.taintInput f) = .ok taint) :
    (o, u) ∈ (input.groupInput f taint).originsOf x kind ↔
      o ∈ taint.originsOf x ∧ f.Visible input.table kind o ∧ (input.graph f).inst? u = some o := by
  have hwf : (input.groupInput f taint).function.WellFormed := h
  refine Iff.trans (GroupInput.mem_originsOf_iff hwf rfl) (and_congr_right fun ho => ?_)
  have hlaid := SpeculativeTaint.mem_layoutInsts_of_mem_originsOf htaint ho
  exact and_congr_left' (isStopped_eq_false_iff taint h hd hlaid)

theorem mem_next_iff {weighting : BlockWeighting} (h : f.WellFormed)
    (hv : (DependenceGraph.ofFunction f weighting).inst? v = some i)
    (hu : (DependenceGraph.ofFunction f weighting).inst? u = some o) :
    u ∈ (DependenceGraph.ofFunction f weighting).digraph.next v ↔ f.Follows i o := by
  refine (Digraph.mem_next (DependenceGraph.ofFunction f weighting).control.digraph_consistent).trans
    ((DependenceGraph.control_joins_iff h).trans ?_)
  constructor
  · rintro ⟨i', o', hi', ho', hstep⟩
    obtain rfl := Option.some_inj.mp (hv.symm.trans hi')
    obtain rfl := Option.some_inj.mp (hu.symm.trans ho')
    exact hstep
  · exact fun hstep => ⟨i, o, hv, hu, hstep⟩

theorem mem_sourceStage {gi : GroupInput} {sink : Node} {origins : List (InstId × Node)} :
    u ∈ gi.sourceStage sink origins ↔ u ≠ sink ∧ ∃ y ∈ origins,
      (y.2 ≠ sink ∧ u = y.2) ∨ (y.2 = sink ∧ u ∈ gi.graph.digraph.next sink) := by
  unfold GroupInput.sourceStage
  rw [AscSet.mem_filter, AscSet.mem_ofList, List.mem_flatMap, and_comm, bne_iff_ne]
  refine and_congr_right fun _ => exists_congr fun y => and_congr_right fun _ => ?_
  by_cases hy : y.2 = sink
  · simp [hy]
  · simp [hy]

theorem mem_sourceStage_iff (h : f.WellFormed) (hd : f.Defined)
    (htaint : SpeculativeTaint.compute (input.taintInput f) = .ok taint)
    (hv : (input.graph f).inst? v = some i) (hu : (input.graph f).inst? u = some o) (hne : o ≠ i) :
    u ∈ (input.groupInput f taint).sourceStage v ((input.groupInput f taint).originsOf x kind) ↔
      ∃ o' ∈ taint.originsOf x, f.Visible input.table kind o' ∧
        (o' = o ∨ (o' = i ∧ f.Follows i o)) := by
  have huv : u ≠ v := by
    rintro rfl
    exact hne (Option.some_inj.mp (hu.symm.trans hv))
  have hnext : u ∈ (input.groupInput f taint).graph.digraph.next v ↔ f.Follows i o :=
    mem_next_iff h hv hu
  rw [mem_sourceStage, hnext]
  constructor
  · rintro ⟨-, ⟨o', n⟩, hy, hcase⟩
    obtain ⟨horigin, hvisible, hn⟩ := (mem_originsOf_groupInput h hd htaint).mp hy
    refine ⟨o', horigin, hvisible, ?_⟩
    rcases hcase with ⟨-, rfl⟩ | ⟨rfl, hstep⟩
    · exact Or.inl (Option.some_inj.mp (hn.symm.trans hu))
    · exact Or.inr ⟨Option.some_inj.mp (hn.symm.trans hv), hstep⟩
  · rintro ⟨o', horigin, hvisible, rfl | ⟨rfl, hstep⟩⟩
    · exact ⟨huv, (o', u), (mem_originsOf_groupInput h hd htaint).mpr ⟨horigin, hvisible, hu⟩,
        Or.inl ⟨huv, rfl⟩⟩
    · exact ⟨huv, (o', v), (mem_originsOf_groupInput h hd htaint).mpr ⟨horigin, hvisible, hv⟩,
        Or.inr ⟨rfl, hstep⟩⟩

theorem leadsFrom_groupOf? {gi : GroupInput} {branches : NodeSet} {sink : Node}
    {operand : ValueId × Transmission} {group : WaypointGroup}
    (hgroup : gi.groupOf? branches sink operand = some group) :
    gi.graph.LeadsFrom group o i ↔ gi.graph.inst? sink = some i ∧
      ∃ u ∈ gi.sourceStage sink (gi.originsOf operand.1 operand.2), gi.graph.inst? u = some o := by
  unfold GroupInput.groupOf? at hgroup
  split at hgroup
  · cases hgroup
  · dsimp only at hgroup
    split at hgroup
    · cases hgroup
    · obtain rfl := Option.some_inj.mp hgroup
      unfold DependenceGraph.LeadsFrom
      constructor
      · rintro ⟨init, s, u, v, hstages, hmem, hu, hv⟩
        obtain ⟨-, htail⟩ := List.append_inj' hstages rfl
        obtain ⟨rfl, hsingle⟩ := List.cons.inj htail
        have hsink : v = sink := by
          have hin : v ∈ AscSet.singleton sink := by
            rw [(List.cons.inj hsingle).1]
            exact AscSet.mem_singleton.mpr rfl
          exact AscSet.mem_singleton.mp hin
        rw [hsink] at hv
        exact ⟨hv, u, hmem, hu⟩
      · rintro ⟨hv, u, hmem, hu⟩
        exact ⟨_, _, u, sink, rfl, hmem, hu, hv⟩

theorem leavesOut_eq_false_iff (f : Function) (taint : SpeculativeTaint) (x : ValueId) :
    (input.groupInput f taint).leavesOut x kind = false ↔ input.settings.Keeps kind := by
  unfold GroupInput.leavesOut Settings.Keeps
  change (kind == .pseudo && (!input.settings.pseudoTransmitters || false)) = false ↔ _
  cases kind with
  | always => simp
  | pseudo => simp

theorem groupOf?_eq_none_iff {gi : GroupInput} {branches : NodeSet} {sink : Node}
    {operand : ValueId × Transmission} :
    gi.groupOf? branches sink operand = none ↔ gi.leavesOut operand.1 operand.2 = true ∨
      ∀ u, u ∉ gi.sourceStage sink (gi.originsOf operand.1 operand.2) := by
  unfold GroupInput.groupOf?
  by_cases hleft : gi.leavesOut operand.1 operand.2 = true
  · simp [hleft]
  · by_cases hempty : (gi.sourceStage sink (gi.originsOf operand.1 operand.2)).isEmpty = true
    · have hnone := AscSet.isEmpty_iff.mp hempty
      simp [hleft, hempty, hnone]
    · have hsome := fun hnone => hempty (AscSet.isEmpty_iff.mpr hnone)
      simp only [hleft, hempty, if_false, Bool.false_eq_true, false_or]
      constructor
      · intro hno
        cases hno
      · exact fun hnone => absurd hnone hsome

theorem exists_emits_iff (h : f.WellFormed) (hd : f.Defined)
    (htaint : SpeculativeTaint.compute (input.taintInput f) = .ok taint) (hi : i ∈ f.layoutInsts)
    (ho : o ∈ f.layoutInsts) (hne : o ≠ i) {operands : List (ValueId × Transmission)}
    (hoperands : f.transmitters input.table i = .ok operands) {branches : NodeSet} :
    (∃ group, (∃ j ∈ f.layoutInsts, (input.groupInput f taint).Emits branches j group) ∧
        (input.graph f).LeadsFrom group o i) ↔
      ∃ y kind, (y, kind) ∈ operands ∧ input.settings.Keeps kind ∧
        ∃ o' ∈ taint.originsOf y, f.Visible input.table kind o' ∧
          (o' = o ∨ (o' = i ∧ f.Follows i o)) := by
  obtain ⟨v, hv⟩ : ∃ v, (input.graph f).inst? v = some i := DependenceGraph.exists_node hi
  obtain ⟨u, hu⟩ : ∃ u, (input.graph f).inst? u = some o := DependenceGraph.exists_node ho
  constructor
  · rintro ⟨group, ⟨j, -, sink, operands', hsink, hrule, ⟨y, kind⟩, hmem, hgroup⟩, hleads⟩
    obtain ⟨hiv, u', hstage, hu'⟩ := (leadsFrom_groupOf? hgroup).mp hleads
    have hjv : (input.graph f).inst? sink = some j := (DependenceGraph.instNode?_eq_some_iff h).mp hsink
    obtain rfl : j = i := Option.some_inj.mp (hjv.symm.trans hiv)
    obtain rfl : operands' = operands := Except.ok.inj (hrule.symm.trans hoperands)
    refine ⟨y, kind, hmem, ?_, (mem_sourceStage_iff h hd htaint hiv hu' hne).mp hstage⟩
    refine (leavesOut_eq_false_iff f taint y).mp ?_
    by_contra hleft
    rw [groupOf?_eq_none_iff.mpr (Or.inl (by simpa using hleft))] at hgroup
    cases hgroup
  · rintro ⟨y, kind, hmem, hkeeps, horigin⟩
    have hstage := (mem_sourceStage_iff (x := y) h hd htaint hv hu hne).mpr horigin
    have hleft := (leavesOut_eq_false_iff f taint y).mpr hkeeps
    cases hgroup : (input.groupInput f taint).groupOf? branches v (y, kind) with
    | none =>
      rcases groupOf?_eq_none_iff.mp hgroup with hout | hempty
      · rw [hleft] at hout
        cases hout
      · exact absurd hstage (hempty u)
    | some group =>
      refine ⟨group, ⟨i, hi, v, operands, ?_, hoperands, (y, kind), hmem, hgroup⟩, ?_⟩
      · exact (DependenceGraph.instNode?_eq_some_iff h).mpr hv
      · exact (leadsFrom_groupOf? hgroup).mpr ⟨hv, u, hstage, hu⟩

/-- With nothing left out as public, a kept operand with an origin has a group from the origin
exactly when one of the kept operands does that sees its origin's flow, or that sees a flow of the
instruction to itself which the origin comes next to. -/
theorem collect_leads_iff_visible (f : Function) (h : f.WellFormed) (hd : f.Defined)
    (input : PassInput) (hprune : input.settings.prunePublic = false) (taint : SpeculativeTaint)
    (htaint : SpeculativeTaint.compute (input.taintInput f) = .ok taint) :
    ∃ publicValues out, input.publicValues? (input.taintInput f) = .ok publicValues ∧
      (GroupInput.collect ⟨input.taintInput f, input.settings, input.graph f, taint,
        publicValues⟩).result = .ok out ∧
      ∀ i ∈ f.layoutInsts, ∀ operands, f.transmitters input.table i = .ok operands →
        ∀ x kind, (x, kind) ∈ operands → input.settings.Keeps kind →
          ∀ o ∈ taint.originsOf x, o ≠ i →
            ((∃ group ∈ out.groups, (input.graph f).LeadsFrom group o i) ↔
              ∃ y kind', (y, kind') ∈ operands ∧ input.settings.Keeps kind' ∧
                ∃ o' ∈ taint.originsOf y, f.Visible input.table kind' o' ∧
                  (o' = o ∨ (o' = i ∧ f.Follows i o))) := by
  have hnodes : ∀ i ∈ f.layoutInsts, ∃ sink, (input.graph f).instNode? i = some sink := by
    intro i hi
    obtain ⟨n, hn⟩ := DependenceGraph.exists_node hi
    exact ⟨n, (DependenceGraph.instNode?_eq_some_iff h).mpr hn⟩
  have hrules : ∀ i ∈ f.layoutInsts, ∃ operands, f.transmitters input.table i = .ok operands :=
    fun i hi => SpeculativeTaint.exists_transmitters_of_compute htaint hi
  obtain ⟨out, hcollect, hgroups⟩ :=
    GroupInput.collect_eq_ok (input.groupInput f taint) hnodes hrules
  refine ⟨none, out, ?_, hcollect, ?_⟩
  · unfold publicValues?
    rw [hprune]
    rfl
  · intro i hi operands hoperands x kind _ _ o ho hne
    have hlaid := SpeculativeTaint.mem_layoutInsts_of_mem_originsOf htaint ho
    rw [← exists_emits_iff h hd htaint hi hlaid hne hoperands]
    exact exists_congr fun group => and_congr_left fun _ => hgroups group

/-- In the pointer chase the third load has a group from the second. -/
theorem collect_pointerChase :
    ∃ publicValues out, plain.publicValues? (plain.taintInput pointerChase) = .ok publicValues ∧
      (GroupInput.collect ⟨plain.taintInput pointerChase, plain.settings, plain.graph pointerChase,
        pointerChaseTaint, publicValues⟩).result = .ok out ∧
      ∃ group ∈ out.groups, (plain.graph pointerChase).LeadsFrom group 1 2 := by
  have htaint : SpeculativeTaint.compute (plain.taintInput pointerChase) =
      .ok pointerChaseTaint := by
    cbv
  obtain ⟨publicValues, out, hpublic, hcollect, hiff⟩ :=
    collect_leads_iff_visible pointerChase (by decide +kernel) (by decide +kernel) plain rfl
      pointerChaseTaint htaint
  refine ⟨publicValues, out, hpublic, hcollect, ?_⟩
  have htransmits : pointerChase.transmitters plain.table 2 = .ok [(2, .always)] := by cbv
  have horigin : 1 ∈ pointerChaseTaint.originsOf 2 := by decide +kernel
  have hvisible : pointerChase.Visible plain.table .always 1 := by
    refine Or.inr fun r hr => ?_
    obtain rfl : r = 2 := Option.some_inj.mp (hr.symm.trans (by cbv))
    exact .transmitted (i := 2) (by decide +kernel) (by cbv) (by decide +kernel) (by cbv)
  have hkeeps : plain.settings.Keeps .always := fun hpseudo => absurd hpseudo (by decide)
  refine (hiff 2 (by decide +kernel) _ htransmits 2 .always List.mem_cons_self hkeeps 1 horigin
    (by decide)).mpr ?_
  exact ⟨2, .always, List.mem_cons_self, hkeeps, 1, horigin, hvisible, Or.inl rfl⟩

def countedLoad : Function := .build ⟨.numbered 0 0, [], [],
  [⟨[⟨.i64, 1⟩], [⟨.load, [0], .offset 0, some ⟨.i64, 1⟩, [⟨.i64, 1⟩]⟩,
    ⟨.load, [1], .offset 0, some ⟨.i64, 1⟩, [⟨.i64, 1⟩]⟩,
    ⟨.call, [2], .callee 0, none, [⟨.i64, 1⟩]⟩,
    ⟨.load, [3], .offset 0, some ⟨.i64, 1⟩, [⟨.i64, 1⟩]⟩, ⟨.ret, [], .none, none, []⟩]⟩], none⟩

def counting : PassInput :=
  ⟨{ Settings.default with pseudoTransmitters := false }, .conservative,
    (AscMap.empty : IntrinsicTable).insert 0 .ctpop, ⟨false, false, false, false⟩, false⟩

def countedLoadTaint : SpeculativeTaint :=
  ⟨.ofList [1, 2, 3, 4], #[.empty, .empty, .singleton 1, .singleton 1, .singleton 3]⟩

/-- The flow through the intrinsic is tainted, but no group is collected for it. -/
theorem collect_countedLoad :
    countedLoad.WellFormed ∧ countedLoad.FenceFree ∧ counting.settings.prunePublic = false ∧
      SpeculativeTaint.compute (counting.taintInput countedLoad) = .ok countedLoadTaint ∧
      countedLoad.transmitters counting.table 3 = .ok [(3, .always)] ∧
      1 ∈ countedLoadTaint.originsOf 3 ∧
      ∃ out, (counting.groupInput countedLoad countedLoadTaint).collect.result = .ok out ∧
        ¬ ∃ group ∈ out.groups, (counting.graph countedLoad).LeadsFrom group 1 3 := by
  have hblocks : ∀ b < countedLoad.params.size,
      (b ∈ countedLoad.blocks ∧ countedLoad.reachable.has b = true) ∧
        BlockWeighting.estimate countedLoad 1000 b = 1000 := by
    intro b hb
    obtain rfl : b = 0 := Nat.lt_one_iff.mp hb
    exact ⟨⟨by decide +kernel, by cbv⟩, by cbv⟩
  have hgraph : counting.graph countedLoad = .ofFunction countedLoad (.uniform 1000) :=
    DependenceGraph.ofFunction_frequency_eq_uniform hblocks
  have hcollect : (counting.groupInput countedLoad countedLoadTaint).collect.result =
      .ok ⟨[], .empty, .empty⟩ := by
    unfold groupInput
    rw [hgraph]
    cbv
  refine ⟨Function.build_wellFormed (by decide), by decide +kernel, rfl, by cbv, by cbv,
    by decide +kernel, _, hcollect, ?_⟩
  rintro ⟨group, hmem, -⟩
  exact absurd hmem List.not_mem_nil

end PassInput

end SpecFence
