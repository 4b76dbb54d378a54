import SpecFence.Proofs.Emitted
import SpecFence.Proofs.Mitigation
import SpecFence.Proofs.Outcome
import SpecFence.Proofs.Publicity

/-!
# How the pass ends

The pass gives up on a function for one reason of its own: an instruction without a taint rule, the
first in the layout.  The rules for what is transmitted cover all instructions that have a taint
rule, the emitted groups pass the check, and finite block weights leave each of them a cut.  Apart
from that the caller can ask to give up, which is noticed when there is something to cut.
-/

set_option autoImplicit false

namespace SpecFence

variable {f : Function} {table : IntrinsicTable} {i : InstId}

section Rules

/-- An instruction that the taint analyses have a rule for: no atomic read-modify-write, and no call
of `setjmp` or of an intrinsic without an entry. -/
structure Function.Ruled (f : Function) (table : IntrinsicTable) (i : InstId) : Prop where
  rmw : f.opcode i ≠ .atomicRmw
  cas : f.opcode i ≠ .atomicCas
  setjmp : table.calledBy? f i ≠ some .setjmp
  unknown : ∀ n, table.calledBy? f i ≠ some (.unknown n)

theorem Opcode.valuePolicy_eq_unsupported_iff {o : Opcode} :
    o.valuePolicy = .unsupported ↔ o = .atomicRmw ∨ o = .atomicCas := by
  cases o <;> decide

theorem Intrinsic.taint_eq_invalid_iff {intrinsic : Intrinsic} :
    intrinsic.taint = .invalid ↔ intrinsic = .setjmp ∨ ∃ n, intrinsic = .unknown n := by
  cases intrinsic <;> simp [taint]

theorem ruled_iff : f.Ruled table i ↔ (f.opcode i).valuePolicy ≠ .unsupported ∧
    ∀ intrinsic, table.calledBy? f i = some intrinsic → intrinsic.taint ≠ .invalid := by
  rw [ne_eq, Opcode.valuePolicy_eq_unsupported_iff, not_or]
  simp only [ne_eq, Intrinsic.taint_eq_invalid_iff, not_or, not_exists]
  constructor
  · intro h
    refine ⟨⟨h.rmw, h.cas⟩, ?_⟩
    intro intrinsic hcalled
    constructor
    · rintro rfl
      exact h.setjmp hcalled
    · rintro n rfl
      exact h.unknown n hcalled
  · rintro ⟨⟨hrmw, hcas⟩, hcalled⟩
    exact ⟨hrmw, hcas, fun h => (hcalled _ h).1 rfl, fun n h => (hcalled _ h).2 n rfl⟩

/-- The policies of operations and intrinsics give a rule to exactly the instructions that are said
to have one. -/
theorem exists_rule_iff : (∃ rule, TaintRule.of f table i = .ok rule) ↔ f.Ruled table i := by
  rw [ruled_iff]
  unfold TaintRule.of
  split
  · rename_i hpolicy
    simp [hpolicy]
  · rename_i hpolicy
    cases hcalled : table.calledBy? f i with
    | none => simp [hpolicy]
    | some intrinsic =>
      by_cases hinvalid : intrinsic.taint = .invalid
      · simp [hpolicy, hinvalid]
      · simp [hpolicy, hinvalid]
  · rename_i hsupported hordinary
    refine iff_of_true ⟨_, rfl⟩ ⟨hsupported, ?_⟩
    intro intrinsic hcalled
    exact absurd (valuePolicy_of_format_call (format_of_calledBy? hcalled)) hordinary

theorem exists_subject (h : ¬ f.Ruled table i) :
    ∃ subject, TaintRule.of f table i = .error subject := by
  cases hof : TaintRule.of f table i with
  | error subject => exact ⟨subject, rfl⟩
  | ok rule => exact absurd (exists_rule_iff.mp ⟨rule, hof⟩) h

theorem taintRules_of_first {before after : List InstId} {subject : TaintSubject}
    (hlayout : f.layoutInsts = before ++ i :: after) (hbefore : ∀ j ∈ before, f.Ruled table j)
    (h : TaintRule.of f table i = .error subject) :
    taintRules f table = .error (.noTaintRule f.name i subject) := by
  unfold taintRules
  rw [hlayout]
  clear hlayout
  induction before with
  | nil =>
    rw [List.nil_append, List.mapM_cons, h]
    rfl
  | cons j before ih =>
    rw [List.forall_mem_cons] at hbefore
    obtain ⟨rule, hrule⟩ := exists_rule_iff.mpr hbefore.1
    rw [List.cons_append, List.mapM_cons, ih hbefore.2, hrule]
    rfl

end Rules

namespace PassInput

variable {input : PassInput} {e : PassError} {plan : PassPlan}

section Plans

def collected (input : PassInput) (f : Function) : Except PassError CollectedGroups := do
  let taint ← SpeculativeTaint.compute (input.taintInput f)
  let publicValues ← input.publicValues? (input.taintInput f)
  (GroupInput.collect
    ⟨input.taintInput f, input.settings, input.graph f, taint, publicValues⟩).result

/-- The flow problems that a run poses. -/
def flowProblems (input : PassInput) (f : Function) : List (Digraph × WaypointGroup) :=
  match input.collected f with
  | .error _ => []
  | .ok out =>
    if input.settings.mitigation = .fenceAfterSource then []
    else SpecFence.flowProblems (input.graph f).digraph out.groups input.settings.passLimit
      input.cancelled

theorem plan_result (input : PassInput) (f : Function) :
    (input.plan f).result = input.collected f >>= fun out =>
      (input.cutFor (input.graph f) out.groups).result >>= fun cut =>
        .ok ⟨input.graph f, out, cut⟩ := by
  unfold PassInput.plan collected
  simp only [Recorded.bind_result, Logged.emitIf_result, Recorded.lift_result, bind_assoc]
  rfl

theorem collected_of_plan (h : (input.plan f).result = .ok plan) :
    plan.graph = input.graph f ∧ input.collected f = .ok plan.collected := by
  rw [plan_result] at h
  obtain ⟨out, hout, h⟩ := Except.bind_eq_ok_iff.mp h
  obtain ⟨cut, -, h⟩ := Except.bind_eq_ok_iff.mp h
  cases h
  exact ⟨rfl, hout⟩

theorem collected_of_first {before after : List InstId} {subject : TaintSubject}
    (hlayout : f.layoutInsts = before ++ i :: after)
    (hbefore : ∀ j ∈ before, f.Ruled input.table j)
    (h : TaintRule.of f input.table i = .error subject) :
    input.collected f = .error (.noTaintRule f.name i subject) := by
  have hrules : taintRules (input.taintInput f).function (input.taintInput f).table = _ :=
    taintRules_of_first hlayout hbefore h
  unfold collected SpeculativeTaint.compute
  rw [hrules]
  rfl

theorem exists_collected (h : ∀ i ∈ f.layoutInsts, f.Ruled input.table i) :
    ∃ out, input.collected f = .ok out ∧
      ∀ group ∈ out.groups, group.WellPosed (input.graph f).size := by
  have hrules : ∀ i ∈ (input.taintInput f).function.layoutInsts,
      ∃ rule, TaintRule.of f input.table i = .ok rule := fun i hi => exists_rule_iff.mpr (h i hi)
  obtain ⟨taint, htaint⟩ := SpeculativeTaint.exists_compute hrules
  obtain ⟨publicValues, hpublic⟩ :
      ∃ publicValues, input.publicValues? (input.taintInput f) = .ok publicValues := by
    unfold publicValues?
    split
    · obtain ⟨values, hvalues⟩ := PublicValues.exists_compute hrules
      rw [hvalues]
      exact ⟨_, rfl⟩
    · exact ⟨none, rfl⟩
  have hrun : ∃ out, (GroupInput.collect ⟨input.taintInput f, input.settings, input.graph f, taint,
      publicValues⟩).result = .ok out ∧
        ∀ group ∈ out.groups, group.WellPosed (input.graph f).size :=
    GroupInput.exists_collect rfl fun i hi =>
      SpeculativeTaint.exists_transmitters_of_compute htaint hi
  obtain ⟨out, hcollect, hgroups⟩ := hrun
  refine ⟨out, ?_, hgroups⟩
  exact Except.bind_eq_ok_iff.mpr
    ⟨taint, htaint, Except.bind_eq_ok_iff.mpr ⟨publicValues, hpublic, hcollect⟩⟩

theorem graph_size (input : PassInput) (f : Function) :
    (input.graph f).digraph.size = (input.graph f).size :=
  DependenceGraph.size_digraph f _

theorem ruled_of_collected {out : CollectedGroups} (h : input.collected f = .ok out) :
    ∀ i ∈ f.layoutInsts, f.Ruled input.table i := by
  obtain ⟨taint, htaint, -⟩ := Except.bind_eq_ok_iff.mp h
  obtain ⟨rules, hrules, -⟩ := Except.bind_eq_ok_iff.mp htaint
  intro i hi
  exact exists_rule_iff.mp ((taintRules_eq_ok hrules).1 i hi)

structure GivesUp (input : PassInput) (groups : List WaypointGroup) : Prop where
  cancelled : input.cancelled = true
  emitted : groups ≠ []
  cutting : input.settings.mitigation = .fencePerEdge ∨ input.settings.mitigation = .fencePerBlock

theorem cutFor_cases {groups : List WaypointGroup} (hmitigation : input.settings.mitigation ≠ .none)
    (hweights : ∀ b ∈ f.blocks,
      (BlockWeighting.frequency input.settings.baseWeight).weight f b < Weight.infinite)
    (hwell : ∀ group ∈ groups, group.WellPosed (input.graph f).size)
    (hfits : input.settings.mitigation ≠ .fenceAfterSource →
      ∀ p ∈ SpecFence.flowProblems (input.graph f).digraph groups input.settings.passLimit
        input.cancelled, FlowFits p.1 p.2) :
    (input.GivesUp groups ∧
      (input.cutFor (input.graph f) groups).result = .error (.cut .cancelled)) ∨
    (¬ input.GivesUp groups ∧ ∃ cut, (input.cutFor (input.graph f) groups).result = .ok cut) := by
  unfold cutFor
  by_cases hbaseline : input.settings.mitigation = .fenceAfterSource
  · right
    rw [if_pos hbaseline]
    refine ⟨fun h => ?_, .empty, rfl⟩
    have hcutting := h.cutting
    rw [hbaseline] at hcutting
    simp at hcutting
  rw [if_neg hbaseline]
  by_cases hempty : groups = []
  · right
    refine ⟨fun h => h.emitted hempty, .empty, ?_⟩
    rw [hempty]
    rfl
  rw [← graph_size] at hwell
  have hvalid : ∀ x ∈ groups, x.fault? (input.graph f).digraph.size = none :=
    fun x hx => (hwell x hx).fault?_eq_none
  cases hcancelled : input.cancelled with
  | true =>
    left
    refine ⟨⟨hcancelled, hempty, ?_⟩, ?_⟩
    · cases hkind : input.settings.mitigation with
      | none => exact absurd hkind hmitigation
      | fencePerEdge => exact Or.inl rfl
      | fencePerBlock => exact Or.inr rfl
      | fenceAfterSource => exact absurd hkind hbaseline
    · unfold Recorded.mapError
      rw [separate_cancelled hempty hvalid]
      rfl
  | false =>
    right
    have hfits := hfits hbaseline
    rw [hcancelled] at hfits
    refine ⟨fun h => Bool.false_ne_true (hcancelled.symm.trans h.cancelled), ?_⟩
    have hconsistent := (input.graph f).control.digraph_consistent
    rcases separate_cases hconsistent hempty hvalid hfits with ⟨cut, hcut, -⟩ | ⟨-, hin⟩
    · exact ⟨cut, Recorded.mapError_eq_ok_iff.mpr hcut⟩
    · obtain ⟨x, hx, hsatisfiable⟩ := hin
      refine absurd hsatisfiable ((hwell x hx).not_satisfiable fun u v huv => ?_)
      exact Nat.not_lt_of_le huv
        (DependenceGraph.control_weight_lt (by decide) hweights u v)

theorem plan_of_first {before after : List InstId} (hlayout : f.layoutInsts = before ++ i :: after)
    (hbefore : ∀ j ∈ before, f.Ruled input.table j) (h : ¬ f.Ruled input.table i) :
    ∃ subject, TaintRule.of f input.table i = .error subject ∧
      (input.plan f).result = .error (.noTaintRule f.name i subject) := by
  obtain ⟨subject, hsubject⟩ := exists_subject h
  refine ⟨subject, hsubject, ?_⟩
  rw [plan_result, collected_of_first hlayout hbefore hsubject]
  rfl

theorem plan_cases (hmitigation : input.settings.mitigation ≠ .none)
    (hweights : ∀ b ∈ f.blocks,
      (BlockWeighting.frequency input.settings.baseWeight).weight f b < Weight.infinite)
    (hfits : ∀ p ∈ input.flowProblems f, FlowFits p.1 p.2)
    (hrules : ∀ i ∈ f.layoutInsts, f.Ruled input.table i) :
    ∃ out, input.collected f = .ok out ∧
      (∀ group ∈ out.groups, group.fault? (input.graph f).digraph.size = none) ∧
      ((input.GivesUp out.groups ∧ (input.plan f).result = .error (.cut .cancelled)) ∨
        (¬ input.GivesUp out.groups ∧ ∃ plan, (input.plan f).result = .ok plan)) := by
  obtain ⟨out, hout, hwell⟩ := exists_collected hrules
  unfold flowProblems at hfits
  rw [hout] at hfits
  have hposed : input.settings.mitigation ≠ .fenceAfterSource →
      ∀ p ∈ SpecFence.flowProblems (input.graph f).digraph out.groups input.settings.passLimit
        input.cancelled, FlowFits p.1 p.2 := by
    intro hcutting
    simpa only [if_neg hcutting] using hfits
  refine ⟨out, hout, ?_, ?_⟩
  · intro group hgroup
    rw [graph_size]
    exact (hwell group hgroup).fault?_eq_none
  · rw [plan_result, hout]
    rcases cutFor_cases hmitigation hweights hwell hposed with ⟨hgives, hcut⟩ | ⟨hgoes, cut, hcut⟩
    · exact Or.inl ⟨hgives, by simp only [bind, Except.bind, hcut]⟩
    · exact Or.inr ⟨hgoes, _, Except.bind_eq_ok_iff.mpr
        ⟨out, rfl, Except.bind_eq_ok_iff.mpr ⟨cut, hcut, rfl⟩⟩⟩

end Plans

section Runs

theorem run_of_error (hmitigation : input.settings.mitigation ≠ .none)
    (h : (input.plan f).result = .error e) :
    (input.run f).outcome.result = .error e ∧ (input.run f).function = f := by
  unfold run
  rw [if_neg hmitigation]
  simp only [h, and_self]

theorem run_of_ok (hmitigation : input.settings.mitigation ≠ .none)
    (hstats : input.reporting.fileStats = false) (h : (input.plan f).result = .ok plan) :
    ∃ stats, (input.run f).outcome.result = .ok stats := by
  unfold run
  rw [if_neg hmitigation]
  simp only [h, report_result hstats]
  exact ⟨_, rfl⟩

/-- The pass fails for want of a taint rule only, at the first instruction of the layout without
one, unless the caller asks it to give up and there is something to cut.  Every emitted group passes
the check, and after an error the function is what it was. -/
theorem run_outcome (f : Function) (input : PassInput)
    (hmitigation : input.settings.mitigation ≠ .none) (hstats : input.reporting.fileStats = false)
    (hweights : ∀ b ∈ f.blocks,
      (BlockWeighting.frequency input.settings.baseWeight).weight f b < Weight.infinite)
    (hfits : ∀ p ∈ input.flowProblems f, FlowFits p.1 p.2) :
    (∀ before i after, f.layoutInsts = before ++ i :: after →
      (∀ j ∈ before, f.Ruled input.table j) → ¬ f.Ruled input.table i →
        ∃ subject, TaintRule.of f input.table i = .error subject ∧
          (input.run f).outcome.result = .error (.noTaintRule f.name i subject)) ∧
    ((∀ i ∈ f.layoutInsts, f.Ruled input.table i) → ∃ out, input.collected f = .ok out ∧
      (∀ group ∈ out.groups, group.fault? (input.graph f).digraph.size = none) ∧
      ((input.run f).outcome.result = .error (.cut .cancelled) ↔ input.GivesUp out.groups) ∧
      ((∃ stats, (input.run f).outcome.result = .ok stats) ↔ ¬ input.GivesUp out.groups)) ∧
    (input.cancelled = false → ((∃ stats, (input.run f).outcome.result = .ok stats) ↔
      ∀ i ∈ f.layoutInsts, f.Ruled input.table i)) ∧
    ∀ e, (input.run f).outcome.result = .error e →
      (input.run f).function = f ∧ ((∃ i subject, e = .noTaintRule f.name i subject) ∨
        (e = .cut .cancelled ∧ input.cancelled = true)) := by
  have hcases := fun hrules => plan_cases hmitigation hweights hfits hrules
  refine ⟨?_, ?_, ?_, ?_⟩
  · intro before i after hlayout hbefore hi
    obtain ⟨subject, hsubject, hplan⟩ := plan_of_first hlayout hbefore hi
    exact ⟨subject, hsubject, (run_of_error hmitigation hplan).1⟩
  · intro hrules
    obtain ⟨out, hout, hvalid, hrun⟩ := hcases hrules
    refine ⟨out, hout, hvalid, ?_⟩
    rcases hrun with ⟨hgives, hplan⟩ | ⟨hgoes, plan, hplan⟩
    · rw [(run_of_error hmitigation hplan).1]
      exact ⟨iff_of_true rfl hgives, iff_of_false (by simp) fun hgoes => hgoes hgives⟩
    · obtain ⟨stats, hok⟩ := run_of_ok hmitigation hstats hplan
      rw [hok]
      exact ⟨iff_of_false (by simp) hgoes, iff_of_true ⟨stats, rfl⟩ hgoes⟩
  · intro hflag
    constructor
    · rintro ⟨stats, hok⟩
      by_contra hrules
      obtain ⟨before, i, after, hlayout, hbefore, hi⟩ := exists_first_not hrules
      obtain ⟨subject, -, hplan⟩ := plan_of_first hlayout hbefore hi
      rw [(run_of_error hmitigation hplan).1] at hok
      cases hok
    · intro hrules
      obtain ⟨out, -, -, hrun⟩ := hcases hrules
      rcases hrun with ⟨hgives, -⟩ | ⟨-, plan, hplan⟩
      · exact absurd (hflag.symm.trans hgives.cancelled) Bool.false_ne_true
      · exact run_of_ok hmitigation hstats hplan
  · intro e herror
    by_cases hrules : ∀ i ∈ f.layoutInsts, f.Ruled input.table i
    · obtain ⟨out, -, -, hrun⟩ := hcases hrules
      rcases hrun with ⟨hgives, hplan⟩ | ⟨-, plan, hplan⟩
      · obtain ⟨hresult, hfunction⟩ := run_of_error hmitigation hplan
        exact ⟨hfunction, Or.inr ⟨Except.error.inj (herror.symm.trans hresult), hgives.cancelled⟩⟩
      · obtain ⟨stats, hok⟩ := run_of_ok hmitigation hstats hplan
        rw [hok] at herror
        cases herror
    · obtain ⟨before, i, after, hlayout, hbefore, hi⟩ := exists_first_not hrules
      obtain ⟨subject, -, hplan⟩ := plan_of_first hlayout hbefore hi
      obtain ⟨hresult, hfunction⟩ := run_of_error hmitigation hplan
      exact ⟨hfunction, Or.inl ⟨i, subject, Except.error.inj (herror.symm.trans hresult)⟩⟩

/-- The pointer chase gets its fence, unless the caller asks to give up. -/
theorem run_outcome_pointerChase :
    (∃ stats, (plain.run pointerChase).outcome.result = .ok stats) ∧
      (({ plain with cancelled := true } : PassInput).run pointerChase).outcome.result =
        .error (.cut .cancelled) := by
  have hweights : ∀ b ∈ pointerChase.blocks,
      (BlockWeighting.frequency plain.settings.baseWeight).weight pointerChase b <
        Weight.infinite := by
    have hestimate : BlockWeighting.estimate pointerChase 1000 0 = 1000 := by cbv
    intro b hb
    obtain rfl : b = 0 := List.mem_singleton.mp hb
    change (if _ then BlockWeighting.estimate pointerChase 1000 0 else 1) < Weight.infinite
    rw [hestimate]
    split
    · decide
    · decide
  obtain ⟨hgraph, hcollected⟩ := collected_of_plan plan_pointerChase
  have hrules := ruled_of_collected hcollected
  have hfits : ∀ p ∈ plain.flowProblems pointerChase, FlowFits p.1 p.2 := by
    have hcapacities : (plain.flowProblems pointerChase).map (fun p => flowCapacity? p.1 p.2) =
        [some 9002, some 9002] := by
      unfold flowProblems
      rw [hcollected, ← hgraph]
      cbv
    exact flowFits_of_capacities hcapacities (by decide)
  have hnone : ({ plain with cancelled := true } : PassInput).flowProblems pointerChase = [] := by
    unfold flowProblems
    rw [show PassInput.collected { plain with cancelled := true } pointerChase = _ from hcollected]
    exact flowProblems_cancelled _ _ _
  constructor
  · exact ((run_outcome pointerChase plain (by decide) rfl hweights hfits).2.2.1 rfl).mpr hrules
  · obtain ⟨out, hout, -, hgives, -⟩ := (run_outcome pointerChase { plain with cancelled := true }
      (by decide) rfl hweights (by simp [hnone])).2.1 hrules
    cases hcollected.symm.trans hout
    exact hgives.mpr ⟨rfl, by decide, Or.inl rfl⟩

end Runs

end PassInput

end SpecFence
