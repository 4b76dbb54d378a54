import SpecFence.Cut.Basic
import SpecFence.Intrinsic

/-!
# Errors of the pass

Why the pass gives up on a function.
-/

set_option autoImplicit false

namespace SpecFence

inductive TaintSubject where
  | opcode (op : Opcode)
  | intrinsic (i : Intrinsic)
deriving DecidableEq, Repr

def TaintSubject.display : TaintSubject → String
  | opcode op => "opcode " ++ op.name
  | intrinsic i => "intrinsic " ++ i.display

inductive PassError where
  | noTaintRule (function : FunctionName) (inst : InstId) (subject : TaintSubject)
  | noLeakRule (function : FunctionName) (inst : InstId) (intrinsic : Intrinsic)
  | cut (error : CutError)
  | statsNotWritten
deriving DecidableEq

namespace PassError

def message : PassError → String
  | noTaintRule name i subject =>
    name.display ++ ": unhandled instruction " ++ i.display ++ " in taint analysis: "
      ++ subject.display
  | noLeakRule name i intrinsic =>
    name.display ++ ": unhandled intrinsic " ++ intrinsic.display ++ " at " ++ i.display
  | cut e => e.message
  | statsNotWritten => "I/O error"

end PassError

end SpecFence
