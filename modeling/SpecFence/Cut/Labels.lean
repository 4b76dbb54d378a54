import SpecFence.Cut.Basic
import SpecFence.Fixpoint
import SpecFence.Graph.Discovery

/-!
# The label problem

All groups at once are one problem of labels.  Every stage of a group but the last has a label.  A
node emits the label of a first stage it is in, and the label of a later stage it is in once it
has received the label of the stage before; labels travel along edges that are not cut.  A set of
edges is valid when no node of a last stage receives the label of the stage before it.  The same
is said by `witness?`, which finds a shortest walk through the stages of a group that avoids a set
of edges.
-/

set_option autoImplicit false

namespace SpecFence

/-- A list of groups over the edges that matter to them. -/
structure LabelProblem where
  size : Nat
  groups : List WaypointGroup
  /-- The edges on walks from a first stage to a last stage, with their weights. -/
  edges : Array (Edge × Nat)
  leaving : Array (List Nat)

abbrev EdgeSet := AscSet Nat

namespace LabelProblem

/-- Adds the last stage of a group to those of the groups that agree with it on all other stages. -/
def mergeInto (m : AscMap (List NodeSet) NodeSet) (g : WaypointGroup) :
    AscMap (List NodeSet) NodeSet :=
  match g.stages.getLast? with
  | none => m
  | some last => m.insert g.stages.dropLast ((m.get? g.stages.dropLast).getD .empty ∪ last)

/-- Groups that agree on all stages but the last become one group, whose last stage has the last
stages of all of them; groups come in ascending order of the stages they agree on. -/
def collapse (groups : List WaypointGroup) : List WaypointGroup :=
  (groups.foldl mergeInto .empty).toList.map fun (stages, last) => ⟨stages ++ [last]⟩

def relevantEdges (graph : Digraph) (groups : List WaypointGroup) : List (Edge × Nat) :=
  let forward := graph.reachableFrom (groups.flatMap fun g => (g.sources?.getD .empty).toList)
  let backward := graph.reaching (groups.flatMap fun g => (g.sinks?.getD .empty).toList)
  graph.edges.filter fun (e, _) => forward.has e.src && backward.has e.dst

def leavingOf (edges : Array (Edge × Nat)) (v : Node) : List Nat :=
  (List.range edges.size).filter fun i => (edges[i]?.map fun e => e.1.src) == some v

def encode (graph : Digraph) (groups : List WaypointGroup) : LabelProblem :=
  let collapsed := collapse groups
  let edges := (relevantEdges graph collapsed).toArray
  { size := graph.size
    groups := collapsed
    edges
    leaving := (Array.range graph.size).map (leavingOf edges) }

variable (p : LabelProblem)

/-- The number of labels of a group: one for each stage but the last. -/
def labelsOf (g : WaypointGroup) : Nat := g.stages.length - 1

def labelsBefore (group : Nat) : Nat := (p.groups.take group).foldl (fun n g => n + labelsOf g) 0

def labelCount : Nat := p.labelsBefore p.groups.length

def label (group stage : Nat) : Nat := p.labelsBefore group + stage

def outgoing (v : Node) : List Nat := p.leaving[v]?.getD []

def edgeWeight (i : Nat) : Nat := (p.edges[i]?.map Prod.snd).getD 0

def edgeIndex? (e : Edge) : Option Nat :=
  (p.outgoing e.src).find? fun i => (p.edges[i]?.map fun x => x.1.dst) == some e.dst

def weight (cut : EdgeSet) : Nat := Weight.total (cut.toList.map p.edgeWeight)

def cutEdges (cut : EdgeSet) : Cut :=
  .ofList (cut.toList.filterMap fun i => p.edges[i]?.map Prod.fst)

/-- The stages that a walk has visited after entering a node, when it had visited those up to the
given one: entering the next stage is noted at once. -/
def enter (stages : Array NodeSet) (stage : Nat) (v : Node) : Nat :=
  match stages[stage + 1]? with
  | some next => if v ∈ next then stage + 1 else stage
  | none => stage

/-- The states that uncut edges lead to.  A state is a node at which a walk stands, together with
the last stage that it has visited in order; the two are coded into one number. -/
def advance (stages : Array NodeSet) (cut : EdgeSet) (state : Nat) : List (Nat × Nat) :=
  let stage := state / p.size
  (p.outgoing (state % p.size)).filterMap fun i =>
    if i ∈ cut then none
    else p.edges[i]?.map fun (e, _) => (i, e.dst + p.size * enter stages stage e.dst)

def starts (group : WaypointGroup) : List Nat :=
  (group.sources?.getD .empty).toList.filter (· < p.size)

/-- A shortest walk over uncut edges that satisfies a group, as edge numbers.  A group of fewer than
two stages has nothing to separate, so there is no walk to find. -/
def groupWitness? (group : WaypointGroup) (cut : EdgeSet) : Option (List Nat) :=
  let stages := group.stages.toArray
  if stages.size < 2 then none
  else
    Search.firstNoted? (p.advance stages cut) (fun state => state / p.size == stages.size - 1)
      (p.size * stages.size) (p.starts group)

def witness? (cut : EdgeSet) : Option (List Nat) :=
  p.groups.findSome? fun g => p.groupWitness? g cut

/-- The labels that the stages of one group make a node emit, given the labels it receives.  The
first label of the group is `base`, and `stage` counts the stages. -/
def emittedBy (v : Node) (received : AscSet Nat) (base stage : Nat) : List NodeSet → List Nat
  | s :: t :: rest =>
    let here := v ∈ s ∧ (stage = 0 ∨ base + (stage - 1) ∈ received)
    (if here then [base + stage] else []) ++ emittedBy v received base (stage + 1) (t :: rest)
  | _ => []

/-- The labels that a node emits, given the labels it receives: these themselves, and those of the
stages it is in. -/
def emitted (v : Node) (received : AscSet Nat) : AscSet Nat :=
  (p.groups.zipIdx.foldl (fun out (g, i) =>
    out.insertAll (emittedBy v received (p.label i 0) 0 g.stages)) received)

def round (cut : EdgeSet) (received : List (AscSet Nat)) : List (AscSet Nat) :=
  let out := (received.zipIdx.map fun (r, v) => p.emitted v r).toArray
  let uncut := p.edges.toList.zipIdx.filterMap fun ((e, _), i) => if i ∈ cut then none else some e
  (List.range p.size).map fun v =>
    uncut.foldl (fun acc e => if e.dst = v then acc ∪ out[e.src]?.getD .empty else acc)
      (.empty : AscSet Nat)

/-- The labels that each node receives: the least solution of the label equations.  Each round
before the last adds a label to a node, which bounds their number. -/
def evaluate (cut : EdgeSet) : List (AscSet Nat) :=
  fixpoint (p.round cut) (p.size * p.labelCount + 1) (List.replicate p.size .empty)

/-- Does no node of a last stage receive the label of the stage before it?  A group without labels
asks for nothing. -/
def isValid (cut : EdgeSet) : Bool :=
  let received := (p.evaluate cut).toArray
  p.groups.zipIdx.all fun (g, i) =>
    labelsOf g == 0 || (g.sinks?.getD .empty).toList.all fun v =>
      !decide (p.label i (labelsOf g - 1) ∈ received[v]?.getD .empty)

end LabelProblem

end SpecFence
