import SpecFence.Ir.Function
import SpecFence.Graph.Search

/-!
# Control flow

Blocks follow each other along the branch at the end of a block; branches elsewhere in a block do
not count.  The first block of the layout is the entry.  Dominance is stated by what can be reached
when a block is avoided.
-/

set_option autoImplicit false

namespace SpecFence

/-- An edge of the control flow as seen from its destination: the block it leaves and the branch. -/
structure FlowPred where
  block : BlockId
  inst : InstId
deriving DecidableEq, Repr

namespace Function

variable (f : Function)

/-- The blocks that the branch at the end of a block goes to, with the values passed; none if the
block does not end with a branch. -/
def flowTargets (b : BlockId) : List BlockCall :=
  match f.lastInst? b with
  | some i => if (f.opcode i).isBranch then f.targets i else []
  | none => []

def flowSuccs (b : BlockId) : AscSet BlockId := .ofList ((f.flowTargets b).map BlockCall.block)

def flowPreds (b : BlockId) : List FlowPred :=
  (f.layout.filterMap fun l =>
    if (f.flowTargets l.block).any (·.block == b) then l.insts.getLast?.map (⟨l.block, ·⟩)
    else none).mergeSort
    fun p q => p.inst ≤ q.inst

def entry? : Option BlockId := f.blocks.head?

def reachableThrough (through : BlockId → Bool) : Marks :=
  Search.spread (fun b => (f.flowSuccs b).toList.filter through)
    (Array.replicate f.params.size false)
    (f.entry?.toList.filter through)

def reachable : Marks := f.reachableThrough fun _ => true

/-- Does every way from the entry to a block pass another? -/
def dominates (a b : BlockId) : Bool := a == b || !(f.reachableThrough (· != a)).has b

def strictDominators (b : BlockId) : List BlockId :=
  let reachable := f.reachable
  f.blocks.filter fun a => reachable.has a && a != b && f.dominates a b

end Function

end SpecFence
