import SpecFence.Cut.Strategy
import SpecFence.Dependence.Dot
import SpecFence.Pass.Groups
import SpecFence.Pass.Stats
import SpecFence.Placement.Placer

/-!
# The pass

The pass first plans, which leaves the function as it is and may fail, and then puts the fences of
the plan into the function, which cannot fail.  Only filing the statistics can fail after that.
-/

set_option autoImplicit false

namespace SpecFence

structure Reporting where
  functionBefore : Bool
  functionAfter : Bool
  drawing : Bool
  fileStats : Bool
deriving DecidableEq, Repr

structure PassInput where
  settings : Settings
  oracle : AliasOracle
  table : IntrinsicTable
  reporting : Reporting
  cancelled : Bool

structure PassPlan where
  graph : DependenceGraph
  collected : CollectedGroups
  cut : Cut

structure PassRun where
  outcome : Logged PassError PassStats
  function : Function
  filed : Option String

namespace PassInput

variable (input : PassInput)

def cutFor (graph : DependenceGraph) (groups : List WaypointGroup) : Logged PassError Cut :=
  if input.settings.mitigation = .fenceAfterSource then pure .empty
  else (separate graph.digraph groups input.settings input.cancelled).mapError .cut

def marks (plan : PassPlan) : DotMarks where
  sources := .ofList (plan.collected.sources.toList.filterMap plan.graph.instNode?)
  sinks := .ofList (plan.collected.sinks.toList.filterMap plan.graph.instNode?)
  cut := plan.cut

def publicValues? (taintInput : TaintInput) : Except PassError (Option PublicValues) :=
  if input.settings.prunePublic then (PublicValues.compute taintInput).map some else .ok none

def plan (f : Function) : Logged PassError PassPlan := do
  Logged.emitIf input.reporting.functionBefore .info "function before blade:"
  let taintInput : TaintInput := ⟨f, input.table, .ofFunction f false, input.oracle⟩
  let taint ← SpeculativeTaint.compute taintInput
  let publicValues ← input.publicValues? taintInput
  let graph := DependenceGraph.ofFunction f (.frequency input.settings.baseWeight)
  let collected ← GroupInput.collect ⟨taintInput, input.settings, graph, taint, publicValues⟩
  let cut ← input.cutFor graph collected.groups
  let plan : PassPlan := ⟨graph, collected, cut⟩
  Logged.emitIf input.reporting.drawing .info (graph.dotText f (marks plan))
  return plan

def apply (f : Function) (plan : PassPlan) : Placer :=
  let start := Placer.start f input.settings.mitigation
  if input.settings.mitigation = .fenceAfterSource then
    plan.collected.sources.toList.foldl Placer.fenceAfter start
  else start.place plan.graph plan.cut.toList

def statsOf (plan : PassPlan) (placer : Placer) : PassStats where
  fencesInserted := placer.placed.length
  edgesSplit := placer.edgesSplit
  sources := plan.collected.sources.size
  sinks := plan.collected.sinks.size
  groups := plan.collected.groups.length
  cutWeight := cutWeight plan.graph.digraph plan.cut.toList

def summary (name : FunctionName) (s : PassStats) : String :=
  let fences := s.fencesInserted
  let sources := s.sources
  let sinks := s.sinks
  let groups := s.groups
  "function " ++ name.display ++
    s!": inserted {fences} (static) fences, {sources} sources, {sinks} sinks, {groups} groups"

def report (name : FunctionName) (stats : PassStats) :
    Logged PassError (PassStats × Option String) := do
  Logged.emit .debug (summary name stats)
  Logged.emitIf input.reporting.functionAfter .info "function after blade:"
  if !input.reporting.fileStats then
    return (stats, none)
  else if PassStats.canFile name.display then
    return (stats, some stats.filed)
  else
    (Except.error .statsNotWritten : Except PassError _)

def run (f : Function) : PassRun :=
  if input.settings.mitigation = .none then ⟨pure .zero, f, none⟩
  else
    let planned := input.plan f
    match planned.result with
    | .error e => ⟨⟨.error e, planned.log⟩, f, none⟩
    | .ok plan =>
      let placer := input.apply f plan
      let reported := input.report f.name (statsOf plan placer)
      ⟨⟨reported.result.map Prod.fst, planned.log ++ placer.log ++ reported.log⟩, placer.function,
        (reported.result.toOption.map Prod.snd).join⟩

end PassInput

end SpecFence
