import SpecFence.Ir.Function
import SpecFence.Ordered.AscMap

/-!
# Intrinsics

A call to an intrinsic is a direct call of a function that a table marks as one.  Calls of other
functions are ordinary calls.
-/

set_option autoImplicit false

namespace SpecFence

/-- The intrinsics; one without an entry is known by its number. -/
inductive Intrinsic where
  | memcpy | memmove | memset
  | ctpop | ctlz | cttz | bswap | bitreverse
  | umin | umax | smin | smax
  | abs | sqrt | fabs | fma
  | expect
  | dbgValue | dbgDeclare | lifetimeStart | lifetimeEnd | assume
  | prefetch | stackSave | stackRestore | vaStart | vaEnd
  | setjmp
  | unknown (number : Nat)
deriving DecidableEq, Repr

namespace Intrinsic

def named : List Intrinsic :=
  [memcpy, memmove, memset, ctpop, ctlz, cttz, bswap, bitreverse, umin, umax, smin, smax, abs, sqrt,
    fabs, fma, expect, dbgValue, dbgDeclare, lifetimeStart, lifetimeEnd, assume, prefetch,
    stackSave, stackRestore, vaStart, vaEnd, setjmp]

def display : Intrinsic → String
  | memcpy => "memcpy"
  | memmove => "memmove"
  | memset => "memset"
  | ctpop => "ctpop"
  | ctlz => "ctlz"
  | cttz => "cttz"
  | bswap => "bswap"
  | bitreverse => "bitreverse"
  | umin => "umin"
  | umax => "umax"
  | smin => "smin"
  | smax => "smax"
  | abs => "abs"
  | sqrt => "sqrt"
  | fabs => "fabs"
  | fma => "fma"
  | expect => "expect"
  | dbgValue => "dbg_value"
  | dbgDeclare => "dbg_declare"
  | lifetimeStart => "lifetime_start"
  | lifetimeEnd => "lifetime_end"
  | assume => "assume"
  | prefetch => "prefetch"
  | stackSave => "stack_save"
  | stackRestore => "stack_restore"
  | vaStart => "va_start"
  | vaEnd => "va_end"
  | setjmp => "setjmp"
  | unknown n => s!"intrinsic#{n}"

def symbol : Intrinsic → String
  | unknown n => s!"intrinsic_{n}"
  | i => i.display

def ofName? (name : String) : Option Intrinsic := named.find? fun i => i.display == name

end Intrinsic

/-- The functions that stand for intrinsics. -/
abbrev IntrinsicTable := AscMap Nat Intrinsic

def IntrinsicTable.calledBy? (table : IntrinsicTable) (f : Function) (i : InstId) :
    Option Intrinsic :=
  match (f.inst i).extra with
  | .callee fn => if (f.opcode i).format = .call then table.get? fn else none
  | _ => none

end SpecFence
