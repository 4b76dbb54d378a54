import SpecFence.Ir.Flow

/-!
# Splitting edges of the control flow

An edge from a block to another is split by a new block that only jumps on.  All destinations of the
branch that name the old block name the new one afterwards, and bind the parameters of the old block
to the same values.
-/

set_option autoImplicit false

namespace SpecFence.Function

variable (f : Function)

def insertBeforeIn (new anchor : InstId) : List InstId → List InstId
  | [] => []
  | i :: rest => if i = anchor then new :: i :: rest else i :: insertBeforeIn new anchor rest

def layBefore (new anchor : InstId) : Function :=
  { f with layout := f.layout.map fun l => { l with insts := insertBeforeIn new anchor l.insts } }

def insertAfterIn (new : LaidBlock) (anchor : BlockId) : List LaidBlock → List LaidBlock
  | [] => []
  | l :: rest => if l.block = anchor then l :: new :: rest else l :: insertAfterIn new anchor rest

def layAfter (new : LaidBlock) (anchor : BlockId) : Function :=
  { f with layout := insertAfterIn new anchor f.layout }

def setTargets (i : InstId) (calls : List BlockCall) : Function :=
  { f with insts := f.insts.modify i fun d => { d with extra := .targets calls } }

/-- A destination after a split: one that named the old block names the new one; the values go along
unless the new block knows them. -/
def retarget (target new : BlockId) (uniform : Bool) (call : BlockCall) : BlockCall :=
  if call.block = target then ⟨new, if uniform then [] else call.args⟩ else call

def jumpSpec (target : BlockId) (args : List ValueId) : InstSpec :=
  ⟨.jump, [], .targets [⟨target, args⟩], none, []⟩

/-- Splits the edge between two blocks; gives the new block.  If all destinations that name the
second block pass the same values, the new block's jump passes them; otherwise the new block has
parameters like the second block's and passes them on.  None if the first block does not end with
an instruction that can go to the second. -/
def splitEdge? (source target : BlockId) : Option (BlockId × Function) := do
  let branch ← f.terminator? source
  let naming := (f.targets branch).filter fun call => call.block == target
  let first ← naming.head?
  let uniform := naming.all fun call => call.args == first.args
  let (new, f₁) := f.addBlock (if uniform then [] else (f.blockParams target).map f.typeOf)
  let passed := if uniform then first.args else f₁.blockParams new
  let f₂ := f₁.setTargets branch ((f.targets branch).map (retarget target new uniform))
  let (jump, f₃) := f₂.addInst (jumpSpec target passed)
  return (new, f₃.layAfter ⟨new, [jump]⟩ source)

end SpecFence.Function
