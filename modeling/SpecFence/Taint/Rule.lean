import SpecFence.Error
import SpecFence.Policy

/-!
# Taint rules

The rule by which both taint analyses treat an instruction.  Atomic read-modify-write operations and
some intrinsics have none; the first of them in the layout makes an analysis fail.
-/

set_option autoImplicit false

namespace SpecFence

/-- The rule of an instruction: by its operation, or by the intrinsic that it calls. -/
inductive TaintRule where
  | policy (policy : ValuePolicy)
  | intrinsic (taint : IntrinsicTaint)
deriving DecidableEq, Repr

namespace TaintRule

def isOperator : TaintRule → Bool
  | policy .pure => true
  | intrinsic .passthrough => true
  | _ => false

def of (f : Function) (table : IntrinsicTable) (i : InstId) : Except TaintSubject TaintRule :=
  match (f.opcode i).valuePolicy with
  | .unsupported => .error (.opcode (f.opcode i))
  | .call =>
    match table.calledBy? f i with
    | none => .ok (.policy .call)
    | some called =>
      if called.taint = .invalid then .error (.intrinsic called) else .ok (.intrinsic called.taint)
  | p => .ok (.policy p)

end TaintRule

/-- The rules of the instructions of the layout in order; the first one without a rule is an
error. -/
def taintRules (f : Function) (table : IntrinsicTable) :
    Except PassError (List (InstId × TaintRule)) :=
  f.layoutInsts.mapM fun i =>
    match TaintRule.of f table i with
    | .ok rule => .ok (i, rule)
    | .error subject => .error (.noTaintRule f.name i subject)

def Function.layoutParams (f : Function) : List ValueId :=
  f.blocks.flatMap f.blockParams

end SpecFence
