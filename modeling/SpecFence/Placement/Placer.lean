import SpecFence.Dependence
import SpecFence.Log
import SpecFence.Placement.SplitEdge
import SpecFence.Settings

/-!
# Placing fences

A placer turns edges of the control flow between instructions into fences, at most one at each
place.  An edge into the middle of a block, or the only edge between two blocks, is stopped by a
fence before its destination; any other edge between blocks is split, and the fence goes into the
new block.
-/

set_option autoImplicit false

namespace SpecFence

inductive InsertionPoint where
  | before (inst : InstId)
  /-- At the start of a new block that splits the edge between two blocks. -/
  | onEdge (block source target : BlockId)
deriving DecidableEq, Repr

structure PlacedFence where
  fence : InstId
  point : InsertionPoint
deriving DecidableEq, Repr

def PlacedFence.display (p : PlacedFence) : String :=
  match p.point with
  | .before i => p.fence.display ++ " before " ++ i.display
  | .onEdge block source target =>
    p.fence.display ++ " in " ++ block.display ++ " on " ++ source.display ++ " -> "
      ++ target.display

structure SplitEdge where
  source : BlockId
  target : BlockId
  block : BlockId
deriving DecidableEq, Repr

/-- A function into which fences are being put. -/
structure Placer where
  function : Function
  mitigation : Mitigation
  split : List SplitEdge
  placed : List PlacedFence
  log : List LogRecord

namespace Function

variable (f : Function)

/-- Does a linear block end after an instruction?  It does after calls and branches. -/
def endsLinear (i : InstId) : Bool := (f.opcode i).isCall || (f.opcode i).isBranch

/-- Walks back from an instruction over those before it, the nearest one first, to the start of its
linear block. -/
def walkBack (i : InstId) : List InstId → InstId
  | [] => i
  | prev :: before => if f.endsLinear prev then i else walkBack prev before

def linearTop (i : InstId) : InstId :=
  match f.layout.find? fun l => l.insts.contains i with
  | some l => f.walkBack i (l.insts.takeWhile (· != i)).reverse
  | none => i

def predBlockCount (b : BlockId) : Nat := ((f.flowPreds b).map FlowPred.block).eraseDups.length

/-- Was the edge between two blocks split and fenced before?  A successor of the first starts with a
fence, leads to the second alone, and is entered from the first alone. -/
def alreadySplit (source target : BlockId) : Bool :=
  (f.flowSuccs source).toList.any fun mid =>
    mid != target && f.startsWithFence mid && (f.flowSuccs mid).toList == [target] &&
      f.predBlockCount mid == 1

def fenceSpec : InstSpec := ⟨.fence, [], .none, none, []⟩

end Function

namespace Placer

/-- A placer that has done nothing yet.  Only fences per linear block go elsewhere than at the
edge. -/
def start (f : Function) (mitigation : Mitigation) : Placer := ⟨f, mitigation, [], [], []⟩

/-- Puts a fence directly before an instruction, unless one is there or the instruction is one. -/
def fenceBefore (p : Placer) (i : InstId) : Placer :=
  if p.function.isFence i || p.function.hasFenceBefore i || (p.function.blockOf? i).isNone then p
  else
    let (fence, f) := p.function.addInst Function.fenceSpec
    { p with function := f.layBefore fence i, placed := p.placed ++ [⟨fence, .before i⟩] }

def fenceAfter (p : Placer) (i : InstId) : Placer :=
  match p.function.nextInst? i with
  | some next => p.fenceBefore next
  | none => p

/-- Splits the edge between two blocks and puts a fence at the start of the new block, unless that
has been done. -/
def fenceOnEdge (p : Placer) (source target : BlockId) : Placer :=
  if (p.split.any fun e => e.source == source && e.target == target) ||
      p.function.alreadySplit source target then p
  else if target ∉ p.function.flowSuccs source then
    let text := p.function.name.display ++ ": no control flow edge " ++ source.display ++ " -> "
      ++ target.display
    { p with log := p.log ++ [⟨.warn, text⟩] }
  else match p.function.splitEdge? source target with
    | none => p
    | some (block, f) =>
      let (fence, f') := f.addInst Function.fenceSpec
      let jump := (f'.firstInst? block).getD fence
      { p with
        function := f'.layBefore fence jump
        split := p.split ++ [⟨source, target, block⟩]
        placed := p.placed ++ [⟨fence, .onEdge block source target⟩] }

def cutBetween (p : Placer) (src dst : InstId) : Placer :=
  if p.mitigation = .fencePerBlock then p.fenceBefore (p.function.linearTop dst)
  else match p.function.blockOf? src, p.function.blockOf? dst with
    | some source, some target =>
      let f := p.function
      let betweenBlocks := f.terminator? source == some src && f.firstInst? target == some dst
      let solePath := (f.flowSuccs source).size == 1 && f.predBlockCount target == 1
      if !betweenBlocks || solePath then p.fenceBefore dst else p.fenceOnEdge source target
    | _, _ => p

def cutEdge (graph : DependenceGraph) (p : Placer) (e : Edge) : Placer :=
  match graph.inst? e.src, graph.inst? e.dst with
  | some src, some dst => p.cutBetween src dst
  | _, _ =>
    let text := p.function.name.display ++ ": cut edge " ++ e.display
      ++ " does not join two instructions"
    { p with log := p.log ++ [⟨.warn, text⟩] }

/-- Stops what flows along the edges of a cut of a dependence graph, which was made of the function
before any fence was put into it. -/
def place (p : Placer) (graph : DependenceGraph) (cut : List Edge) : Placer :=
  cut.foldl (cutEdge graph) p

def edgesSplit (p : Placer) : Nat := p.split.length

end Placer

end SpecFence
