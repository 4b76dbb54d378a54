import SpecFence.Ir.Flow

/-!
# Loops

A block that is entered from blocks it dominates is the header of a loop; these blocks are its
latches.  The loop has its header and everything that leads to a latch without passing the header.
Loops are gathered one after the other, and a loop that was gathered before is one thing from then
on: a loop that has one of its blocks has all of them, and is also entered from wherever its header
is entered.  So any two loops are disjoint, or one has all blocks of the other, even if blocks that
are never reached lead into both.
-/

set_option autoImplicit false

namespace SpecFence

structure FlowLoop where
  header : BlockId
  body : Marks
deriving DecidableEq

/-- The loops around a block among loops in the order in which they were found: the innermost one,
which is the first with the block in it, then its parent, which is the first after it that has its
header, and so on. -/
def FlowLoop.around (b : BlockId) : List FlowLoop → List FlowLoop
  | [] => []
  | l :: later => if l.body.has b then l :: around l.header later else around b later

namespace Function

variable (f : Function)

def predBlocks (b : BlockId) : List BlockId := (f.flowPreds b).map FlowPred.block

def latches (header : BlockId) : List BlockId :=
  let reachable := f.reachable
  let around := f.reachableThrough (· != header)
  (f.predBlocks header).filter fun b => reachable.has b && (b == header || !around.has b)

/-- The headers of loops in the order in which a depth-first walk from the entry leaves them, so
that a header comes before those that dominate it.  The walk takes the destinations of a branch in
order. -/
def headers : List BlockId :=
  (Search.postorder (fun b => (f.flowTargets b).map BlockCall.block) f.params.size
    f.entry?.toList).filter fun b => !(f.latches b).isEmpty

/-- What belongs to the loop of a header together with one of its blocks: the outermost loop around
the block, if one was found before, and what leads there.  The latest of the found loops comes
first. -/
def joining (found : List FlowLoop) (header b : BlockId) : List BlockId :=
  if b = header then []
  else match found.find? (·.body.has b) with
    | some inner => inner.body.members ++ f.predBlocks inner.header
    | none => f.predBlocks b

def loopOf (found : List FlowLoop) (header : BlockId) : FlowLoop where
  header
  body := Search.spread (f.joining found header) (Array.replicate f.params.size false)
    (header :: f.latches header)

def loops : List FlowLoop := f.headers.foldl (fun found h => f.loopOf found h :: found) []

def loopDepth (b : BlockId) : Nat := (FlowLoop.around b f.loops.reverse).length

end Function

end SpecFence
