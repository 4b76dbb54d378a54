import SpecFence.Ir.Opcode
import SpecFence.Ir.Type

/-!
# Functions

A function has numbered blocks, instructions and values.  Its layout lists the blocks in order
with their instructions; what is not in the layout exists but is never executed.  `Function.build`
numbers the parts of a described function.
-/

set_option autoImplicit false

namespace SpecFence

abbrev ValueId := Nat

abbrev InstId := Nat

abbrev BlockId := Nat

def ValueId.display (v : ValueId) : String := s!"v{v}"

def InstId.display (i : InstId) : String := s!"inst{i}"

def BlockId.display (b : BlockId) : String := s!"block{b}"

structure BlockCall where
  block : BlockId
  args : List ValueId
deriving DecidableEq, Repr, Inhabited

/-- What belongs to an instruction apart from its operands.  A branch table is kept with the one
instruction that branches through it: it is assumed that no two instructions share a table, so that
a change of one instruction's targets is a change of no other's. -/
inductive Extra where
  | none
  | immediate (value : Int)
  | condition (code : String)
  | conditionImmediate (code : String) (value : Int)
  | trapCode (code : String)
  | offset (offset : Int)
  | slot (slot : Nat) (offset : Int)
  | globalName (number : Nat)
  | callee (function : Nat)
  | signature (number : Nat)
  | memoryOp (name : String)
  | targets (calls : List BlockCall)
deriving DecidableEq, Repr, Inhabited

structure InstData where
  opcode : Opcode
  args : List ValueId
  extra : Extra
  controlType : Option Ty
  results : List ValueId
deriving DecidableEq, Repr

instance : Inhabited InstData := ⟨⟨.nop, [], .none, none, []⟩⟩

inductive Definition where
  | param (block : BlockId)
  | result (inst : InstId)
deriving DecidableEq, Repr, Inhabited

structure ValueData where
  type : Ty
  definition : Definition
deriving DecidableEq, Repr, Inhabited

structure LaidBlock where
  block : BlockId
  insts : List InstId
deriving DecidableEq, Repr, Inhabited

inductive FunctionName where
  | named (name : String)
  | numbered (space index : Nat)
deriving DecidableEq, Repr, Inhabited

def FunctionName.display : FunctionName → String
  | named name => "%" ++ name
  | numbered space index => s!"u{space}:{index}"

structure Function where
  name : FunctionName
  slots : List Nat
  globals : List String
  params : Array (List ValueId)
  insts : Array InstData
  values : Array ValueData
  layout : List LaidBlock
deriving DecidableEq, Repr

namespace Function

variable (f : Function)

def inst (i : InstId) : InstData := f.insts[i]?.getD default

def opcode (i : InstId) : Opcode := (f.inst i).opcode

def args (i : InstId) : List ValueId := (f.inst i).args

def results (i : InstId) : List ValueId := (f.inst i).results

def firstResult? (i : InstId) : Option ValueId := (f.results i).head?

def targets (i : InstId) : List BlockCall :=
  match (f.inst i).extra with
  | .targets calls => calls
  | _ => []

def blockParams (b : BlockId) : List ValueId := f.params[b]?.getD []

def typeOf (v : ValueId) : Ty := (f.values[v]?.map ValueData.type).getD default

def definition? (v : ValueId) : Option Definition := f.values[v]?.map ValueData.definition

theorem lt_of_definition? {f : Function} {v : ValueId} {d : Definition}
    (h : f.definition? v = some d) : v < f.values.size := by
  unfold definition? at h
  obtain ⟨x, hx, -⟩ := Option.map_eq_some_iff.mp h
  exact (Array.getElem?_eq_some_iff.mp hx).1

def constant? (v : ValueId) : Option Int :=
  match f.definition? v with
  | some (.result i) =>
    match (f.inst i).opcode, (f.inst i).extra with
    | .iconst, .immediate n => some n
    | _, _ => none
  | _ => none

def blocks : List BlockId := f.layout.map LaidBlock.block

def blockInsts (b : BlockId) : List InstId :=
  ((f.layout.find? fun l => l.block == b).map LaidBlock.insts).getD []

def layoutInsts : List InstId := f.layout.flatMap LaidBlock.insts

def blockOf? (i : InstId) : Option BlockId :=
  (f.layout.find? fun l => l.insts.contains i).map LaidBlock.block

def firstInst? (b : BlockId) : Option InstId := (f.blockInsts b).head?

def lastInst? (b : BlockId) : Option InstId := (f.blockInsts b).getLast?

def before? (i : InstId) : List InstId → Option InstId
  | a :: b :: rest => if b = i then some a else before? i (b :: rest)
  | _ => none

def after? (i : InstId) : List InstId → Option InstId
  | a :: b :: rest => if a = i then some b else after? i (b :: rest)
  | _ => none

def prevInst? (i : InstId) : Option InstId := f.layout.findSome? fun l => before? i l.insts

def nextInst? (i : InstId) : Option InstId := f.layout.findSome? fun l => after? i l.insts

def isFence (i : InstId) : Bool := f.opcode i == .fence

def hasFenceBefore (i : InstId) : Bool := (f.prevInst? i).any f.isFence

def startsWithFence (b : BlockId) : Bool := (f.firstInst? b).any f.isFence

def terminator? (b : BlockId) : Option InstId :=
  (f.lastInst? b).filter fun i => (f.opcode i).isTerminator

end Function

structure InstSpec where
  opcode : Opcode
  args : List ValueId
  extra : Extra
  controlType : Option Ty
  results : List Ty

structure BlockSpec where
  params : List Ty
  insts : List InstSpec

/-- A described function; without a layout its blocks are laid out as they are listed. -/
structure FunctionSpec where
  name : FunctionName
  slots : List Nat
  globals : List String
  blocks : List BlockSpec
  layout : Option (List BlockId)

namespace Function

def addValues (f : Function) (types : List Ty) (origin : Definition) : List ValueId × Function :=
  ((List.range types.length).map (f.values.size + ·),
    { f with values := f.values ++ (types.map (⟨·, origin⟩)).toArray })

def addBlock (f : Function) (types : List Ty) : BlockId × Function :=
  let (params, f') := f.addValues types (.param f.params.size)
  (f.params.size, { f' with params := f.params.push params })

def addInst (f : Function) (spec : InstSpec) : InstId × Function :=
  let (results, f') := f.addValues spec.results (.result f.insts.size)
  (f.insts.size, { f' with
    insts := f.insts.push ⟨spec.opcode, spec.args, spec.extra, spec.controlType, results⟩ })

def addInsts (f : Function) : List InstSpec → List InstId × Function
  | [] => ([], f)
  | spec :: rest =>
    let (i, f') := f.addInst spec
    let (is, f'') := f'.addInsts rest
    (i :: is, f'')

def addBodies (f : Function) : List BlockSpec → List (List InstId) × Function
  | [] => ([], f)
  | spec :: rest =>
    let (is, f') := f.addInsts spec.insts
    let (bodies, f'') := f'.addBodies rest
    (is :: bodies, f'')

/-- Numbers the parts of a described function: first the blocks with their parameters, then the
instructions with their results, block after block. -/
def build (spec : FunctionSpec) : Function :=
  let start : Function := ⟨spec.name, spec.slots, spec.globals, #[], #[], #[], []⟩
  let withBlocks := spec.blocks.foldl (fun f b => (f.addBlock b.params).2) start
  let (bodies, f) := withBlocks.addBodies spec.blocks
  let order := spec.layout.getD (List.range spec.blocks.length)
  { f with layout := order.map fun b => ⟨b, bodies[b]?.getD []⟩ }

end Function

end SpecFence
