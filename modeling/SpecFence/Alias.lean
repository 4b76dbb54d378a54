import SpecFence.Memory

/-!
# Aliasing

An oracle says whether two accesses touch the same bytes.  The basic oracle resolves addresses
through additions of constants to a base object and an offset; the conservative one knows only
accesses that are written alike.
-/

set_option autoImplicit false

namespace SpecFence

inductive AliasResult where
  | no
  | may
  | must
deriving DecidableEq, Repr

namespace AliasResult

def mayAlias : AliasResult → Bool
  | no => false
  | _ => true

def strongest : AliasResult → AliasResult → AliasResult
  | must, _ => must
  | _, must => must
  | may, _ => may
  | _, may => may
  | no, no => no

end AliasResult

/-- What tells whether two accesses of a function touch the same bytes. -/
abbrev AliasOracle := Function → MemoryLocation → MemoryLocation → AliasResult

namespace AliasOracle

def loadStore (oracle : AliasOracle) (f : Function) (table : IntrinsicTable)
    (reader writer : InstId) : AliasResult :=
  (f.reads table reader).foldl (fun r a =>
    (f.writes table writer).foldl (fun r b => r.strongest (oracle f a b)) r) .no

/-- Accesses that are written alike and have a known size cover the same bytes; all others may share
some. -/
def conservative : AliasOracle := fun _ a b =>
  if a.address = b.address ∧ a.offset = b.offset ∧ a.size.isSome ∧ a.size = b.size then .must
  else .may

def always (r : AliasResult) : AliasOracle := fun _ _ _ => r

inductive Base where
  | slot (slot : Nat)
  | global (number : Nat)
  | value (value : ValueId)
deriving DecidableEq, Repr

def wrap (n : Int) : Int := n.bmod 0x10000000000000000

def addHeld (a b : Int) : Int := min (a + b) 0x7FFFFFFFFFFFFFFF

/-- One step of resolving an address. -/
inductive Step where
  | base (base : Base) (offset : Int)
  | sum (value : ValueId) (constant : Int)

/-- What the definition of a value says about it as an address. -/
def step (f : Function) (v : ValueId) : Step :=
  match f.definition? v with
  | some (.result i) =>
    let d := f.inst i
    match d.opcode, d.extra, d.args with
    | .stackAddr, .slot s n, _ => .base (.slot s) n
    | .symbolValue, .globalName g, _ => .base (.global g) 0
    | .globalValue, .globalName g, _ => .base (.global g) 0
    | .iaddImm, .immediate n, [x] => .sum x n
    | .iadd, _, [x, y] =>
      match f.constant? x, f.constant? y with
      | _, some c => .sum x c
      | some c, none => .sum y c
      | none, none => .base (.value v) 0
    | .isub, _, [x, y] =>
      match f.constant? y with
      | some c => .sum x (-c)
      | none => .base (.value v) 0
    | _, _, _ => .base (.value v) 0
  | _ => .base (.value v) 0

/-- The base and the offset of a value plus an offset, found along at most the given number of
definitions. -/
def resolveValue? (f : Function) (v : ValueId) (offset : Int) : Nat → Option (Base × Int)
  | 0 => none
  | n + 1 =>
    match step f v with
    | .base b c => some (b, wrap (offset + c))
    | .sum x c => resolveValue? f x (wrap (offset + c)) n

/-- The base and the offset of an address.  Definitions that add constants to each other in a circle
have none; any other chain of definitions is no longer than the list of values. -/
def resolve? (f : Function) : Address → Option (Base × Int)
  | .slot s => some (.slot s, 0)
  | .value v => resolveValue? f v 0 (f.values.size + 1)

def knownSize? (a : MemoryLocation) : Option Int :=
  a.size.bind fun n => if n ≤ 0x7FFFFFFFFFFFFFFF then some n else none

def ranges (startA startB : Int) (sizeA sizeB : Option Int) : AliasResult :=
  match sizeA, sizeB with
  | some a, some b =>
    if startA = startB ∧ a = b then .must
    else if addHeld startA a ≤ startB ∨ addHeld startB b ≤ startA then .no
    else .may
  | _, _ => .may

/-- Different slots and globals share no byte; accesses to the same object are compared by their
ranges; an address of unknown origin may point anywhere. -/
def basic : AliasOracle := fun f a b =>
  match resolve? f a.address, resolve? f b.address with
  | some (baseA, offA), some (baseB, offB) =>
    if baseA = baseB then
      ranges (wrap (offA + a.offset)) (wrap (offB + b.offset)) (knownSize? a) (knownSize? b)
    else match baseA, baseB with
      | .value _, _ => .may
      | _, .value _ => .may
      | _, _ => .no
  | _, _ => .may

end AliasOracle

end SpecFence
