import SpecFence.Taint.Public

/-!
# The questions of the taint analyses

The basic oracle resolves an address by following definitions one after the other, and keeps no
account of those that it has followed.  Here it follows so many at most, and has no answer about an
address that takes more.  Which questions a taint analysis asks does not depend on the answers, and it
has a result when every one of them is answered.
-/

set_option autoImplicit false

namespace SpecFence

namespace AliasOracle

def resolveWithin? (n : Nat) (f : Function) : Address → Option (Base × Int)
  | .slot s => some (.slot s, 0)
  | .value v => resolveValue? f v 0 (n + 1)

def basicWithin? (n : Nat) (f : Function) (a b : MemoryLocation) : Option AliasResult :=
  match resolveWithin? n f a.address, resolveWithin? n f b.address with
  | some (baseA, offA), some (baseB, offB) =>
    some <|
      if baseA = baseB then
        ranges (wrap (offA + a.offset)) (wrap (offB + b.offset)) (knownSize? a) (knownSize? b)
      else match baseA, baseB with
        | .value _, _ => .may
        | _, .value _ => .may
        | _, _ => .no
  | _, _ => none

/-- The oracle that answers what the basic one has found so far. -/
def within (n : Nat) : AliasOracle := fun f a b => (basicWithin? n f a b).getD .may

/-- The questions about pairs of a reader and a writer.  Both have one location at most, so no answer
makes another question needless. -/
def questions (f : Function) (table : IntrinsicTable) (pairs : List (InstId × InstId)) :
    List (MemoryLocation × MemoryLocation) :=
  pairs.flatMap fun (reader, writer) =>
    (f.reads table reader).flatMap fun a => (f.writes table writer).map fun b => (a, b)

def ask? {α : Type} (n : Nat) (f : Function) (questions : List (MemoryLocation × MemoryLocation))
    (result : AliasOracle → α) : Option α :=
  if questions.all fun (a, b) => (basicWithin? n f a b).isSome then some (result (within n)) else none

end AliasOracle

section Asked

variable (input : TaintInput)

/-- Does the analysis ask where the data of a reader come from?  It does not if the address depends on
a load. -/
def SpeculativeTaint.asksFor (dependent : AscSet ValueId) (i : InstId) (rule : TaintRule) : Bool :=
  match rule with
  | .policy .load => !(input.function.loadAddress? i).any fun a => a ∈ dependent
  | .intrinsic .memoryCopy => !(input.function.args i)[1]?.any fun a => a ∈ dependent
  | _ => false

def SpeculativeTaint.compared (rules : List (InstId × TaintRule)) : List (InstId × InstId) :=
  let dependent := dependentValues input rules
  let readers := rules.filter fun (i, rule) => asksFor input dependent i rule
  readers.flatMap fun (i, _) =>
    (input.function.layoutInsts.filter fun w =>
      w != i && !(input.function.writes input.table w).isEmpty).map fun w => (i, w)

def PublicValues.compared (rules : List (InstId × TaintRule)) : List (InstId × InstId) :=
  let loads := rules.filter fun (_, rule) => rule = .policy .load
  let stores := rules.filter fun (i, _) => (input.function.storeOperands? i).isSome
  loads.flatMap fun (i, _) => stores.map fun (w, _) => (i, w)

/-- The questions of an analysis that compares readers and writers.  Without rules none is asked. -/
def TaintInput.questions (compared : List (InstId × TaintRule) → List (InstId × InstId)) :
    List (MemoryLocation × MemoryLocation) :=
  match taintRules input.function input.table with
  | .error _ => []
  | .ok rules => AliasOracle.questions input.function input.table (compared rules)

/-- The speculative taint as the basic oracle gives it by following so many definitions of each
address. -/
def SpeculativeTaint.computeWithin? (n : Nat) : Option (Except PassError SpeculativeTaint) :=
  AliasOracle.ask? n input.function (input.questions (compared input))
    fun oracle => compute { input with oracle }

/-- The public values as the basic oracle gives them by following so many definitions of each
address. -/
def PublicValues.computeWithin? (n : Nat) : Option (Except PassError PublicValues) :=
  AliasOracle.ask? n input.function (input.questions (compared input))
    fun oracle => compute { input with oracle }

end Asked

end SpecFence
