import SpecFence.Ir.Flow

/-!
# Uses and dependencies

The uses of a value are the instructions that have it as an operand and the block parameters that a
branch passes it to.  The dependencies of a value are the values that it is computed from.
-/

set_option autoImplicit false

namespace SpecFence

inductive ValueUse where
  | inst (inst : InstId)
  | param (param : ValueId)
deriving DecidableEq, Repr

structure DefUse where
  uses : Array (List ValueUse)
  dependencies : Array (List ValueId)

namespace DefUse

def push {α : Type} (table : Array (List α)) (i : Nat) (a : α) : Array (List α) :=
  table.modify i (· ++ [a])

def addUse (d : DefUse) (i : InstId) (v : ValueId) : DefUse :=
  { d with uses := d.uses.modify v fun us => if .inst i ∈ us then us else us ++ [.inst i] }

def addDependency (d : DefUse) (result v : ValueId) : DefUse :=
  { d with dependencies := push d.dependencies result v }

def addPassed (d : DefUse) (param v : ValueId) : DefUse :=
  { uses := push d.uses v (.param param), dependencies := push d.dependencies param v }

/-- Records the operands of an instruction; the results of calls depend on them only if
`throughCalls` is set. -/
def addInst (f : Function) (throughCalls : Bool) (d : DefUse) (i : InstId) : DefUse :=
  let results := if !throughCalls && (f.opcode i).isCall then [] else f.results i
  (f.args i).foldl (fun d v => results.foldl (fun d r => d.addDependency r v) (d.addUse i v)) d

def addParams (f : Function) (d : DefUse) (b : BlockId) : DefUse :=
  (f.flowPreds b).foldl (fun d p =>
    (f.targets p.inst).foldl (fun d call =>
      if call.block = b then
        ((f.blockParams b).zip call.args).foldl (fun d (param, v) => d.addPassed param v) d
      else d) d) d

def ofFunction (f : Function) (throughCalls : Bool) : DefUse :=
  f.layout.foldl (fun d l => (l.insts.foldl (addInst f throughCalls) d).addParams f l.block)
    ⟨Array.replicate f.values.size [], Array.replicate f.values.size []⟩

def usesOf (d : DefUse) (v : ValueId) : List ValueUse := d.uses[v]?.getD []

def dependenciesOf (d : DefUse) (v : ValueId) : List ValueId := d.dependencies[v]?.getD []

/-- The value that a use makes depend on the used value, if it does: the first result of an
instruction, or the parameter. -/
def dependent? (d : DefUse) (f : Function) (v : ValueId) : ValueUse → Option ValueId
  | .inst i => (f.firstResult? i).filter fun r => v ∈ d.dependenciesOf r
  | .param p => some p

def dependentsOf (d : DefUse) (f : Function) (v : ValueId) : List ValueId :=
  (d.usesOf v).filterMap (d.dependent? f v)

end DefUse

end SpecFence
