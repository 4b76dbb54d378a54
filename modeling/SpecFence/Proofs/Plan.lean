import SpecFence.Pass.Run
import SpecFence.Proofs.Result

/-!
# Plans and runs

When a plan is made, and what a run that has made one does.
-/

set_option autoImplicit false

namespace SpecFence

namespace PassInput

variable {f : Function} {cut : Cut} {input : PassInput} {plan : PassPlan} {stats : PassStats}

def taintInput (input : PassInput) (f : Function) : TaintInput :=
  ⟨f, input.table, .ofFunction f false, input.oracle⟩

def graph (input : PassInput) (f : Function) : DependenceGraph :=
  .ofFunction f (.frequency input.settings.baseWeight)

theorem plan_eq_ok_iff : (input.plan f).result = .ok plan ↔
    ∃ taint publicValues, SpeculativeTaint.compute (input.taintInput f) = .ok taint ∧
      input.publicValues? (input.taintInput f) = .ok publicValues ∧
      plan.graph = input.graph f ∧
      (GroupInput.collect ⟨input.taintInput f, input.settings, plan.graph, taint,
        publicValues⟩).result = .ok plan.collected ∧
      (input.cutFor plan.graph plan.collected.groups).result = .ok plan.cut := by
  unfold PassInput.plan
  simp only [Recorded.bind_result_eq_ok_iff, Logged.emitIf_result, Recorded.lift_result,
    Recorded.pure_result_eq_ok_iff, exists_const, true_and]
  constructor
  · rintro ⟨taint, htaint, publicValues, hpublic, collected, hcollect, cut, hcut, rfl⟩
    exact ⟨taint, publicValues, htaint, hpublic, rfl, hcollect, hcut⟩
  · rintro ⟨taint, publicValues, htaint, hpublic, hgraph, hcollect, hcut⟩
    obtain ⟨graph, collected, cut⟩ := plan
    obtain rfl : graph = input.graph f := hgraph
    exact ⟨taint, htaint, publicValues, hpublic, collected, hcollect, cut, hcut, rfl⟩

theorem run_of_planned (hmitigation : input.settings.mitigation ≠ .none)
    (hplan : (input.plan f).result = .ok plan) :
    (input.run f).function = (input.apply f plan).function ∧
      (input.run f).outcome.result =
        (input.report f.name (statsOf plan (input.apply f plan))).result.map Prod.fst := by
  unfold run
  rw [if_neg hmitigation]
  simp only [hplan, and_self]

theorem run_of_plan (hmitigation : input.settings.mitigation = .fencePerEdge)
    (hplan : (input.plan f).result = .ok plan) :
    (input.run f).function =
        ((Placer.start f .fencePerEdge).place plan.graph plan.cut.toList).function ∧
      (input.run f).outcome.result = (input.report f.name (statsOf plan
        ((Placer.start f .fencePerEdge).place plan.graph plan.cut.toList))).result.map Prod.fst := by
  have happly : input.apply f plan =
      (Placer.start f .fencePerEdge).place plan.graph plan.cut.toList := by
    unfold apply
    rw [if_neg (by rw [hmitigation]; decide), hmitigation]
  rw [← happly]
  exact run_of_planned (by rw [hmitigation]; decide) hplan

theorem exists_plan_of_run (hmitigation : input.settings.mitigation = .fencePerEdge)
    (hok : (input.run f).outcome.result = .ok stats) : ∃ plan, (input.plan f).result = .ok plan := by
  unfold run at hok
  rw [if_neg (by rw [hmitigation]; decide)] at hok
  cases hplan : (input.plan f).result with
  | error e =>
    simp only [hplan] at hok
    cases hok
  | ok plan => exact ⟨plan, rfl⟩

theorem report_result {name : FunctionName} (hfile : input.reporting.fileStats = false) :
    (input.report name stats).result = .ok (stats, none) := by
  unfold report
  rw [Recorded.bind_result_eq_ok_iff]
  refine ⟨(), rfl, ?_⟩
  rw [Recorded.bind_result_eq_ok_iff]
  refine ⟨(), Logged.emitIf_result _ _ _, ?_⟩
  rw [hfile]
  rfl

theorem fst_of_report {name : FunctionName} {x : PassStats × Option String}
    (h : (input.report name stats).result = .ok x) : x.1 = stats := by
  unfold report at h
  obtain ⟨-, -, h⟩ := Recorded.bind_result_eq_ok_iff.mp h
  obtain ⟨-, -, h⟩ := Recorded.bind_result_eq_ok_iff.mp h
  split at h
  · rw [← Recorded.pure_result_eq_ok_iff.mp h]
  · split at h
    · rw [← Recorded.pure_result_eq_ok_iff.mp h]
    · cases h

theorem exists_applied (hmitigation : input.settings.mitigation ≠ .none)
    (hok : (input.run f).outcome.result = .ok stats) : ∃ plan, (input.plan f).result = .ok plan ∧
      (input.run f).function = (input.apply f plan).function ∧
      stats = statsOf plan (input.apply f plan) := by
  cases hplan : (input.plan f).result with
  | error e =>
    unfold run at hok
    simp only [if_neg hmitigation, hplan] at hok
    cases hok
  | ok plan =>
    obtain ⟨hfunction, hresult⟩ := run_of_planned hmitigation hplan
    refine ⟨plan, rfl, hfunction, ?_⟩
    rw [hresult] at hok
    cases hreport : (input.report f.name (statsOf plan (input.apply f plan))).result with
    | error e =>
      rw [hreport] at hok
      cases hok
    | ok x =>
      rw [hreport] at hok
      obtain rfl := Except.ok.inj hok
      exact fst_of_report hreport

theorem separate_of_cutFor {graph : DependenceGraph} {groups : List WaypointGroup}
    (hmitigation : input.settings.mitigation = .fencePerEdge)
    (hcut : (input.cutFor graph groups).result = .ok cut) :
    (separate graph.digraph groups input.settings input.cancelled).result = .ok cut := by
  unfold cutFor at hcut
  rw [if_neg (by rw [hmitigation]; decide)] at hcut
  exact Recorded.mapError_eq_ok_iff.mp hcut

def pointerChase : Function := .build ⟨.numbered 0 0, [], [],
  [⟨[⟨.i64, 1⟩], [⟨.load, [0], .offset 0, some ⟨.i64, 1⟩, [⟨.i64, 1⟩]⟩,
    ⟨.load, [1], .offset 0, some ⟨.i64, 1⟩, [⟨.i64, 1⟩]⟩,
    ⟨.load, [2], .offset 0, some ⟨.i64, 1⟩, [⟨.i64, 1⟩]⟩, ⟨.ret, [], .none, none, []⟩]⟩], none⟩

def plain : PassInput := ⟨.default, .conservative, .empty, ⟨false, false, false, false⟩, false⟩

def pointerChaseTaint : SpeculativeTaint :=
  ⟨.ofList [1, 2, 3], #[.empty, .empty, .singleton 1, .singleton 2]⟩

end PassInput

end SpecFence
