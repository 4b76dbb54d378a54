import SpecFence.Intrinsic

/-!
# Policies

What the analyses do with an instruction is decided by its operation, and for a call of an intrinsic
by the intrinsic.
-/

set_option autoImplicit false

namespace SpecFence

/-- How the taint analyses treat the results of an instruction. -/
inductive ValuePolicy where
  /-- Constants and addresses: never tainted, always public. -/
  | constant
  | pure
  | load
  | store
  | call
  | noValue
  /-- Atomic read-modify-write operations, for which there is no rule. -/
  | unsupported
deriving DecidableEq, Repr

/-- What a public result says about the operands. -/
inductive InversePolicy where
  | invertible
  /-- Each operand is a function of the result and the other operand. -/
  | invertibleGivenOther
  | notInvertible
deriving DecidableEq, Repr

/-- How the taint analyses treat a call of an intrinsic. -/
inductive IntrinsicTaint where
  | passthrough
  /-- Memory is copied: destination, source, length. -/
  | memoryCopy
  /-- Memory is filled: destination, value, length. -/
  | memoryFill
  | inert
  | invalid
deriving DecidableEq, Repr

/-- Which arguments an intrinsic transmits. -/
inductive IntrinsicLeak where
  | allArgs
  /-- Destination and length are transmitted, the value only under some circumstances. -/
  | fill
  | address
  | nothing
  | benign
  | unknown
deriving DecidableEq, Repr

namespace Opcode

def valuePolicy (op : Opcode) : ValuePolicy :=
  match op with
  | .iconst | .f32const | .f64const | .vconst | .stackAddr | .dynamicStackAddr | .symbolValue
  | .globalValue | .tlsValue | .funcAddr | .getFramePointer | .getStackPointer
  | .getReturnAddress | .getPinnedReg => .constant
  | .atomicRmw | .atomicCas => .unsupported
  | .fence | .nop => .noValue
  | _ =>
    if op.isCall then .call
    else if op.isBranch || op.isTerminator then .noValue
    else if op.canStore then .store
    else if op.canLoad then .load
    else .pure

def inversePolicy : Opcode → InversePolicy
  | .bitcast | .uextend | .sextend | .ineg | .bnot | .bswap | .bitrev | .iaddImm | .irsubImm
  | .bxorImm => .invertible
  | .iadd | .isub | .bxor => .invertibleGivenOther
  | _ => .notInvertible

end Opcode

namespace Intrinsic

def taint : Intrinsic → IntrinsicTaint
  | memcpy | memmove => .memoryCopy
  | memset => .memoryFill
  | ctpop | ctlz | cttz | bswap | bitreverse | umin | umax | smin | smax | abs | sqrt | fabs | fma
  | expect => .passthrough
  | dbgValue | dbgDeclare | lifetimeStart | lifetimeEnd | assume => .inert
  | prefetch | stackSave | stackRestore | vaStart | vaEnd => .inert
  | setjmp | unknown _ => .invalid

def leak : Intrinsic → IntrinsicLeak
  | memcpy | memmove => .allArgs
  | memset => .fill
  | ctpop | ctlz | cttz | bswap | bitreverse | umin | umax | smin | smax | abs | sqrt | fabs | fma
  | expect => .nothing
  | dbgValue | dbgDeclare | lifetimeStart | lifetimeEnd | assume => .benign
  | prefetch => .address
  | stackSave => .nothing
  | stackRestore | vaStart | vaEnd => .allArgs
  | setjmp => .nothing
  | unknown _ => .unknown

end Intrinsic

end SpecFence
