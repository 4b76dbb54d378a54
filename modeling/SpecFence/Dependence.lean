import SpecFence.BlockWeight
import SpecFence.Graph.Weighted

/-!
# Dependence graphs

The nodes are the program points of a function's layout: block parameters and instructions.  Control
edges follow the order of execution; a control edge weighs what a fence at its destination costs.
Data edges lead from the point that defines a value to the points that use it.
-/

set_option autoImplicit false

namespace SpecFence

/-- What a node of a dependence graph stands for. -/
inductive ProgramPoint where
  | inst (inst : InstId)
  | param (value : ValueId)
deriving DecidableEq, Repr

/-- The program points of a function with the control edges and the data edges between them. -/
structure DependenceGraph where
  points : Array ProgramPoint
  instNodes : Array (Option Node)
  valueNodes : Array (Option Node)
  control : WeightedGraph
  data : WeightedGraph

namespace DependenceGraph

def pointsOf (f : Function) : List ProgramPoint :=
  f.layout.flatMap fun l => (f.blockParams l.block).map .param ++ l.insts.map .inst

/-- The program point that defines a value: a block parameter, or the instruction whose first result
it is. -/
def definingPoint? (f : Function) (v : ValueId) : Option ProgramPoint :=
  match f.definition? v with
  | some (.param _) => some (.param v)
  | some (.result i) => if f.firstResult? i = some v then some (.inst i) else none
  | none => none

def stepsWithin : List InstId → List (InstId × InstId)
  | i :: j :: rest => (i, j) :: stepsWithin (j :: rest)
  | _ => []

/-- The steps of control that a laid out block makes, with the block each of them enters: those
within the block, and those from its last instruction to the first of each successor. -/
def stepsOf (f : Function) (l : LaidBlock) : List ((InstId × InstId) × BlockId) :=
  (stepsWithin l.insts).map (·, l.block) ++
    match l.insts.getLast? with
    | none => []
    | some last => (f.flowSuccs l.block).toList.filterMap fun b =>
        (f.firstInst? b).map fun first => ((last, first), b)

/-- The flow of values into an instruction and along its branches, as pairs of a value and the point
that takes it. -/
def flowsOf (f : Function) (i : InstId) : List (ValueId × ProgramPoint) :=
  (f.args i).map (·, .inst i) ++ (f.targets i).flatMap fun call =>
    ((f.blockParams call.block).zip call.args).flatMap fun (param, v) =>
      [(v, .inst i), (v, .param param)]

def ofWeights (f : Function) (weight : BlockId → Nat) : DependenceGraph :=
  let points := pointsOf f
  let nodeOf (p : ProgramPoint) : Option Node := points.idxOf? p
  let instNodes := (Array.range f.insts.size).map fun i => nodeOf (.inst i)
  let valueNodes := (Array.range f.values.size).map fun v => (definingPoint? f v).bind nodeOf
  let instNode (i : InstId) : Option Node := instNodes[i]?.join
  let weights := (Array.range f.params.size).map weight
  let control := f.layout.foldl (fun g l => (stepsOf f l).foldl (fun g ((i, j), b) =>
    match instNode i, instNode j with
    | some u, some v => g.put u v (weights[b]?.getD 1)
    | _, _ => g) g) (WeightedGraph.withNodes points.length)
  let data := f.layoutInsts.foldl (fun g i => (flowsOf f i).foldl (fun g (v, p) =>
    match valueNodes[v]?.join, nodeOf p with
    | some u, some w => g.put u w 1
    | _, _ => g) g) (WeightedGraph.withNodes points.length)
  { points := points.toArray, instNodes, valueNodes, control, data }

def ofFunction (f : Function) (weighting : BlockWeighting) : DependenceGraph :=
  ofWeights f (weighting.weight f)

variable (g : DependenceGraph)

def size : Nat := g.points.size

def instNode? (i : InstId) : Option Node := g.instNodes[i]?.join

def valueNode? (v : ValueId) : Option Node := g.valueNodes[v]?.join

def inst? (n : Node) : Option InstId :=
  match g.points[n]? with
  | some (.inst i) => some i
  | _ => none

def digraph : Digraph := g.control.digraph

end DependenceGraph

end SpecFence
