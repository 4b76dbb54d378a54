import SpecFence.DefUse
import SpecFence.Error
import SpecFence.Graph.Traversal
import SpecFence.Log
import SpecFence.Memory
import SpecFence.Policy

/-!
# Transmitters

Which operands an instruction makes observable.  A true transmission is observable whatever the
data; a pseudo transmission only under further conditions.  `mayLeak` asks whether a value reaches
a true transmission along uses that no fence stops.
-/

set_option autoImplicit false

namespace SpecFence

/-- How an operand is transmitted. -/
inductive Transmission where
  | always
  /-- Only under further conditions. -/
  | pseudo
deriving DecidableEq, Repr

namespace Function

variable (f : Function) (table : IntrinsicTable)

def intrinsicTransmitters (i : InstId) (intrinsic : Intrinsic) :
    Except PassError (List (ValueId × Transmission)) :=
  let args := f.args i
  match intrinsic.leak with
  | .allArgs => .ok (args.map (·, .always))
  | .fill => .ok (args.zipIdx.map fun (v, n) => (v, if n = 1 then .pseudo else .always))
  | .address => .ok (args.head?.toList.map (·, .always))
  | .nothing => .ok []
  | .benign => .ok []
  | .unknown => .error (.noLeakRule f.name i intrinsic)

def transmitters (i : InstId) : Except PassError (List (ValueId × Transmission)) :=
  let args := f.args i
  match f.loadAddress? i, f.storeOperands? i with
  | some a, _ => .ok [(a, .always)]
  | none, some (data, address) => .ok ((data, .pseudo) :: address.toList.map (·, .always))
  | none, none =>
    match (f.opcode i).format with
    | .brif | .branchTable | .condTrap => .ok (args.head?.toList.map (·, .always))
    | .callIndirect =>
      .ok (args.head?.toList.map (·, .always) ++ args.tail.map (·, .pseudo))
    | .call =>
      match table.calledBy? f i with
      | some intrinsic => f.intrinsicTransmitters i intrinsic
      | none => .ok (args.map (·, .pseudo))
    | _ => if f.opcode i = .ret then .ok (args.map (·, .pseudo)) else .ok []

/-- Does an instruction always transmit a value?  One without a rule counts as if it did. -/
def alwaysTransmits (i : InstId) (v : ValueId) : Bool :=
  match f.transmitters table i with
  | .ok operands => operands.contains (v, .always)
  | .error _ => true

/-- Goes over uses of a value.  What depends on the value through a use that no fence precedes is
put on the stack; a use that always transmits the value ends the search. -/
def followUses (d : DefUse) (v : ValueId) :
    List ValueUse → Search.Traversal → Search.Traversal × Bool
  | [], t => (t, false)
  | .inst i :: uses, t =>
    if f.hasFenceBefore i then followUses d v uses t
    else if f.alwaysTransmits table i v then (t, true)
    else followUses d v uses (t.pushAll (d.dependent? f v (.inst i)).toList)
  | .param p :: uses, t => followUses d v uses (t.push p)

theorem left_followUses (d : DefUse) (v : ValueId) (uses : List ValueUse) (t : Search.Traversal) :
    (f.followUses table d v uses t).1.left = t.left := by
  induction uses generalizing t with
  | nil => rfl
  | cons u uses ih =>
    cases u with
    | inst i =>
      rw [followUses]
      split
      · exact ih t
      · split
        · rfl
        · rw [ih, Search.Traversal.left_pushAll]
    | param p => rw [followUses, ih, Search.Traversal.left_push]

def leaksFrom (d : DefUse) : Search.Traversal → Bool
  | ⟨_, []⟩ => false
  | ⟨seen, v :: rest⟩ =>
    let turn := f.followUses table d v (d.usesOf v) ⟨seen, rest⟩
    if turn.2 then true else leaksFrom d turn.1
termination_by t => t.left
decreasing_by
  rw [left_followUses]
  simp [Search.Traversal.left]

/-- Can a value reach an operand that is always transmitted without passing an instruction that a
fence precedes? -/
def mayLeak (d : DefUse) (v : ValueId) : Bool :=
  f.leaksFrom table d (.start f.values.size [v])

end Function

/-- Classifies the instructions of one function, and remembers the intrinsics it has warned about.
-/
structure LeakClassifier where
  warned : List Intrinsic

namespace LeakClassifier

def initial : LeakClassifier := ⟨[]⟩

def newBenign? (c : LeakClassifier) (f : Function) (table : IntrinsicTable) (i : InstId) :
    Option Intrinsic :=
  (table.calledBy? f i).filter fun intrinsic =>
    intrinsic.leak == .benign && !c.warned.contains intrinsic

/-- The transmitted operands of an instruction; the first instruction of each kind of intrinsic that
only annotates is worth a warning. -/
def classify (c : LeakClassifier) (f : Function) (table : IntrinsicTable) (i : InstId) :
    LeakClassifier × Logged PassError (List (ValueId × Transmission)) :=
  match c.newBenign? f table i with
  | some intrinsic =>
    let text := f.name.display ++ ": treating intrinsic " ++ intrinsic.display
      ++ " as non-transmitting"
    (⟨intrinsic :: c.warned⟩, ⟨f.transmitters table i, [⟨.warn, text⟩]⟩)
  | none => (c, ⟨f.transmitters table i, []⟩)

end LeakClassifier

end SpecFence
