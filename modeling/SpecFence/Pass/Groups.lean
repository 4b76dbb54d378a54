import SpecFence.Dependence
import SpecFence.Leak
import SpecFence.Settings
import SpecFence.Taint.Public
import SpecFence.Waypoint

/-!
# Collecting waypoint groups

Every transmitted operand with speculative origins gives a group: from the origins to the
transmitting instruction, and on request past a conditional branch first.
-/

set_option autoImplicit false

namespace SpecFence

structure CollectedGroups where
  groups : List WaypointGroup
  sources : AscSet InstId
  sinks : AscSet InstId

structure GroupInput where
  taintInput : TaintInput
  settings : Settings
  graph : DependenceGraph
  taint : SpeculativeTaint
  publicValues : Option PublicValues

namespace GroupInput

variable (input : GroupInput)

def function : Function := input.taintInput.function

/-- Is an operand left out?  Pseudo transmissions are, when they are switched off or the value is
public. -/
def leavesOut (v : ValueId) (kind : Transmission) : Bool :=
  kind == .pseudo &&
    (!input.settings.pseudoTransmitters || input.publicValues.any fun p => p.isPublic v)

/-- Is what an origin loads already kept from being transmitted?  Only what is always transmitted is
visible along uses. -/
def isStopped (kind : Transmission) (origin : InstId) : Bool :=
  match kind, input.function.firstResult? origin with
  | .always, some r =>
    !input.function.mayLeak input.taintInput.table input.taintInput.defUse r
  | _, _ => false

def originsOf (v : ValueId) (kind : Transmission) : List (InstId × Node) :=
  (input.taint.originsOf v).toList.filterMap fun origin =>
    if input.isStopped kind origin then none
    else (input.graph.instNode? origin).map (origin, ·)

/-- The source stage for a sink: the nodes of the origins.  An origin that is the sink itself
feeds it from what follows it. -/
def sourceStage (sink : Node) (origins : List (InstId × Node)) : NodeSet :=
  let nodes := origins.flatMap fun (_, n) => if n = sink then input.graph.digraph.next n else [n]
  (AscSet.ofList nodes).filter (· != sink)

def branchNodes : NodeSet :=
  if input.settings.branchWaypoints then
    .ofList ((List.range input.graph.size).filter fun n =>
      (input.graph.inst? n).any fun i =>
        input.function.opcode i == .brif || input.function.opcode i == .brTable)
  else .empty

/-- The stages of a group: branches that are no sources, if there are any, then the sources and the
sink. -/
def stagesOf (branches sources : NodeSet) (sink : Node) : List NodeSet :=
  let waypoints := branches.difference sources
  (if waypoints.isEmpty then [] else [waypoints]) ++ [sources, .singleton sink]

/-- Adds the group of one operand, if it makes one.  Its origins count as sources also if not. -/
def addOperand (branches : NodeSet) (i : InstId) (sink : Node) (out : CollectedGroups)
    (operand : ValueId × Transmission) : CollectedGroups :=
  let (v, kind) := operand
  if input.leavesOut v kind then out
  else
    let origins := input.originsOf v kind
    let sources := input.sourceStage sink origins
    let out := { out with sources := out.sources.insertAll (origins.map Prod.fst) }
    if sources.isEmpty then out
    else { out with
      groups := out.groups ++ [⟨stagesOf branches sources sink⟩], sinks := out.sinks.insert i }

def addInst (branches : NodeSet) (state : LeakClassifier × CollectedGroups) (i : InstId) :
    Logged PassError (LeakClassifier × CollectedGroups) :=
  match input.graph.instNode? i with
  | none => pure state
  | some sink => do
    let (classifier, operands) := state.1.classify input.function input.taintInput.table i
    let operands ← operands
    return (classifier, operands.foldl (input.addOperand branches i sink) state.2)

def collect : Logged PassError CollectedGroups := do
  let branches := input.branchNodes
  let (_, out) ← input.function.layoutInsts.foldlM (input.addInst branches)
    (.initial, ⟨[], .empty, .empty⟩)
  return out

end GroupInput

end SpecFence
