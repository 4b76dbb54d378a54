import SpecFence.Intrinsic

/-!
# Memory accesses

Where the instructions of a function read and write memory.  An access starts at an address with a
constant offset; its size is known unless it is the length of a memory intrinsic that is no
constant.
-/

set_option autoImplicit false

namespace SpecFence

inductive Address where
  | value (value : ValueId)
  | slot (slot : Nat)
deriving DecidableEq, Repr

structure MemoryLocation where
  address : Address
  offset : Int
  size : Option Nat
deriving DecidableEq, Repr

def Opcode.accessBytes (op : Opcode) (t : Ty) : Nat :=
  match op with
  | .uload8 | .sload8 | .istore8 => 1
  | .uload16 | .sload16 | .istore16 => 2
  | .uload32 | .sload32 | .istore32 => 4
  | .uload8x8 | .sload8x8 | .uload16x4 | .sload16x4 | .uload32x2 | .sload32x2 => 8
  | _ => t.bytes

def Extra.offsetValue : Extra → Int
  | .offset n => n
  | .slot _ n => n
  | _ => 0

def Extra.slotNumber : Extra → Nat
  | .slot s _ => s
  | _ => 0

namespace Function

variable (f : Function)

def loadAddress? (i : InstId) : Option ValueId :=
  if (f.opcode i).format = .load ∨ f.opcode i = .atomicLoad then (f.args i).head? else none

/-- The data operand and the address operand of a store; a store to a stack slot has no address
operand. -/
def storeOperands? (i : InstId) : Option (ValueId × Option ValueId) :=
  if (f.opcode i).format = .store ∨ f.opcode i = .atomicStore then
    match f.args i with
    | data :: address :: _ => some (data, some address)
    | _ => none
  else if (f.opcode i).format = .stackStore then
    (f.args i).head?.map (·, none)
  else none

/-- The length that a memory intrinsic is called with, if it is a constant that is not negative. -/
def length? (v : ValueId) : Option Nat :=
  match f.constant? v with
  | some n => if 0 ≤ n then some n.toNat else none
  | none => none

def loadedBytes? (i : InstId) : Option Nat :=
  (f.firstResult? i).map fun r => (f.opcode i).accessBytes (f.typeOf r)

def reads (table : IntrinsicTable) (i : InstId) : List MemoryLocation :=
  let d := f.inst i
  match f.loadAddress? i with
  | some a => [⟨.value a, d.extra.offsetValue, f.loadedBytes? i⟩]
  | none =>
    if d.opcode = .stackLoad then
      [⟨.slot d.extra.slotNumber, d.extra.offsetValue, f.loadedBytes? i⟩]
    else match table.calledBy? f i, d.args with
      | some .memcpy, [_, source, len] => [⟨.value source, 0, f.length? len⟩]
      | some .memmove, [_, source, len] => [⟨.value source, 0, f.length? len⟩]
      | _, _ => []

def writes (table : IntrinsicTable) (i : InstId) : List MemoryLocation :=
  let d := f.inst i
  match f.storeOperands? i with
  | some (data, some a) =>
    [⟨.value a, d.extra.offsetValue, some (d.opcode.accessBytes (f.typeOf data))⟩]
  | some (data, none) =>
    [⟨.slot d.extra.slotNumber, d.extra.offsetValue, some (d.opcode.accessBytes (f.typeOf data))⟩]
  | none =>
    match table.calledBy? f i, d.args with
    | some .memcpy, [target, _, len] => [⟨.value target, 0, f.length? len⟩]
    | some .memmove, [target, _, len] => [⟨.value target, 0, f.length? len⟩]
    | some .memset, [target, _, len] => [⟨.value target, 0, f.length? len⟩]
    | _, _ => []

def storedValue? (table : IntrinsicTable) (i : InstId) : Option ValueId :=
  match f.storeOperands? i with
  | some (data, _) => some data
  | none => if table.calledBy? f i = some .memset then (f.args i)[1]? else none

end Function

end SpecFence
