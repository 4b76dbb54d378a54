import SpecFence.Alias
import SpecFence.DefUse
import SpecFence.Propagation.Channel
import SpecFence.Taint.Rule

/-!
# Speculative taint

A load whose address depends on another load may read anything under misspeculation.  The analysis
finds, for every value, the loads and memory copies of this kind that its data may come from,
through operators, block parameters and memory that may alias.
-/

set_option autoImplicit false

namespace SpecFence

structure TaintInput where
  function : Function
  table : IntrinsicTable
  /-- The uses and dependencies, without those through calls. -/
  defUse : DefUse
  oracle : AliasOracle

structure SpeculativeTaint where
  addressDependent : AscSet ValueId
  origins : Array (AscSet InstId)
deriving DecidableEq

namespace SpeculativeTaint

variable (input : TaintInput)

/-- One round: the values that depend on a load when the known ones do.  Results of loads do in any
case, and no value is kept that the round does not find again. -/
def dependentRound (rules : List (InstId × TaintRule)) (known : AscSet ValueId) : AscSet ValueId :=
  .ofList <|
    (input.function.layoutParams.filter fun p =>
      (input.defUse.dependenciesOf p).any fun v => v ∈ known)
    ++ rules.filterMap fun (i, rule) =>
      if rule = .policy .load ∨
          rule.isOperator ∧ (input.function.args i).any fun v => v ∈ known then
        input.function.firstResult? i
      else none

/-- The values that depend on the result of a load.  Each round before the last adds a value. -/
def dependentValues (rules : List (InstId × TaintRule)) : AscSet ValueId :=
  fixpoint (dependentRound input rules) (input.function.values.size + 1) .empty

def copyPlace (i : InstId) : Nat := input.function.values.size + i

def writtenPlace (i : InstId) : Nat :=
  match input.function.storedValue? input.table i with
  | some v => v
  | none => copyPlace input i

/-- The places of all data that an instruction may read: what other instructions of the layout write
to memory that may alias. -/
def readPlaces (i : InstId) : List Nat :=
  (input.function.layoutInsts.filter fun w =>
    w != i && !(input.function.writes input.table w).isEmpty &&
      (input.oracle.loadStore input.function input.table i w).mayAlias).map (writtenPlace input)

/-- The channel of a reader: with an address that depends on a load it is its own origin and has no
other. -/
def readChannel (dependent : AscSet ValueId) (i : InstId) (target : Nat)
    (address : Option ValueId) : Channel :=
  if address.any fun a => a ∈ dependent then ⟨target, .singleton i, []⟩
  else ⟨target, .empty, readPlaces input i⟩

def instChannel (dependent : AscSet ValueId) (i : InstId) (rule : TaintRule) : Option Channel :=
  match rule with
  | .policy .load => (input.function.firstResult? i).map fun r =>
      readChannel input dependent i r (input.function.loadAddress? i)
  | .intrinsic .memoryCopy =>
      some (readChannel input dependent i (copyPlace input i) (input.function.args i)[1]?)
  | _ =>
    if rule.isOperator then
      (input.function.firstResult? i).map fun r => ⟨r, .empty, input.function.args i⟩
    else none

def channels (dependent : AscSet ValueId) (rules : List (InstId × TaintRule)) : List Channel :=
  (input.function.layoutParams.map fun p => ⟨p, .empty, input.defUse.dependenciesOf p⟩)
  ++ rules.filterMap fun (i, rule) => instChannel input dependent i rule

def compute : Except PassError SpeculativeTaint := do
  let rules ← taintRules input.function input.table
  let dependent := dependentValues input rules
  let insts := input.function.insts.size
  let values := input.function.values.size
  let holding := Channel.spread (channels input dependent rules) (values + insts) insts
  return ⟨dependent, holding.take values⟩

variable (t : SpeculativeTaint)

/-- The origins of a value; a value without origins is not tainted. -/
def originsOf (v : ValueId) : AscSet InstId := t.origins[v]?.getD .empty

def isTainted (v : ValueId) : Bool := !(t.originsOf v).isEmpty

def tainted : List ValueId := (List.range t.origins.size).filter t.isTainted

def allOrigins : AscSet InstId := t.origins.foldl (· ∪ ·) .empty

end SpeculativeTaint

end SpecFence
