import SpecFence.Ir.Function

/-!
# The text of instructions

An instruction is written as its results, its operation with its type, and its operands in the order
of its format; constants among the operands are explained in a comment at the end.
-/

set_option autoImplicit false

namespace SpecFence

def hexGroups (n : Nat) : String :=
  let digits := Nat.toDigits 16 n
  let padded := List.replicate ((4 - digits.length % 4) % 4) '0' ++ digits
  "0x" ++ "_".intercalate (group padded)
where
  group : List Char → List String
    | a :: b :: c :: d :: rest => String.ofList [a, b, c, d] :: group rest
    | _ => []

def displayImmediate (x : Int) : String :=
  if -10000 < x ∧ x < 10000 then toString x else hexGroups (x % 0x10000000000000000).toNat

def displayOffset (x : Int) : String :=
  if x = 0 then ""
  else
    let size := x.natAbs
    (if x < 0 then "-" else "+") ++ if size < 10000 then toString size else hexGroups size

def displayValues (vs : List ValueId) : String := ", ".intercalate (vs.map ValueId.display)

def BlockCall.display (c : BlockCall) : String :=
  c.block.display ++ if c.args.isEmpty then "" else "(" ++ displayValues c.args ++ ")"

def displayParts (d : InstData) : String :=
  let args := displayValues d.args
  match d.extra, d.opcode.format with
  | .none, .multiary => if d.args.isEmpty then "" else " " ++ args
  | .none, _ => " " ++ args
  | .immediate n, .binaryImm8 => " " ++ args ++ ", " ++ toString n
  | .immediate n, .ternaryImm8 => " " ++ args ++ ", " ++ toString n
  | .immediate n, _ =>
    if d.args.isEmpty then " " ++ displayImmediate n else " " ++ args ++ ", " ++ displayImmediate n
  | .condition cc, _ => " " ++ cc ++ " " ++ args
  | .conditionImmediate cc n, _ => " " ++ cc ++ " " ++ args ++ ", " ++ displayImmediate n
  | .trapCode code, _ => if d.args.isEmpty then " " ++ code else " " ++ args ++ ", " ++ code
  | .offset n, _ => " " ++ args ++ displayOffset n
  | .slot s n, _ =>
    let place := s!"ss{s}" ++ displayOffset n
    if d.args.isEmpty then " " ++ place else " " ++ args ++ ", " ++ place
  | .globalName g, _ => s!" gv{g}"
  | .callee fn, .call => s!" fn{fn}(" ++ args ++ ")"
  | .callee fn, _ => s!" fn{fn}"
  | .signature s, _ =>
    match d.args with
    | [] => s!" sig{s}"
    | callee :: rest => s!" sig{s}, " ++ callee.display ++ "(" ++ displayValues rest ++ ")"
  | .memoryOp name, _ => " " ++ name ++ " " ++ args
  | .targets calls, .branchTable =>
    match calls with
    | [] => " " ++ args
    | default :: table =>
      " " ++ args ++ ", " ++ default.display ++ ", [" ++
        ", ".intercalate (table.map BlockCall.display) ++ "]"
  | .targets calls, _ =>
    let calls := ", ".intercalate (calls.map BlockCall.display)
    if d.args.isEmpty then " " ++ calls else " " ++ args ++ ", " ++ calls

namespace Function

variable (f : Function)

/-- The comment that explains the constants among the operands and the values passed to blocks. -/
def displayConstants (d : InstData) : String :=
  let passed := match d.extra with
    | .targets calls => calls.flatMap BlockCall.args
    | _ => []
  let notes := (d.args ++ passed).filterMap fun v =>
    (f.constant? v).map fun n => v.display ++ " = " ++ displayImmediate n
  if notes.isEmpty then "" else "  ; " ++ ", ".intercalate notes

def displayInst (i : InstId) : String :=
  let d := f.inst i
  let results := if d.results.isEmpty then "" else displayValues d.results ++ " = "
  let type := match d.controlType with
    | some t => "." ++ t.display
    | none => ""
  results ++ d.opcode.name ++ type ++ displayParts d ++ f.displayConstants d

def displayParam (v : ValueId) : String := v.display ++ ": " ++ (f.typeOf v).display

end Function

end SpecFence
