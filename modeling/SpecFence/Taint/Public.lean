import SpecFence.Leak
import SpecFence.Propagation.Clause
import SpecFence.Taint.Speculative

/-!
# Public values

A value is public when the program reveals it without any speculation: because it is always
transmitted, is a constant or an address, passes through an ordinary call, or can be computed from
public values, forwards, backwards through operators that can be inverted, or through memory.
-/

set_option autoImplicit false

namespace SpecFence

structure PublicValues where
  values : AscSet ValueId
deriving DecidableEq

namespace PublicValues

variable (input : TaintInput)

def seedsOf (i : InstId) (rule : TaintRule) : Except PassError (List ValueId) := do
  let f := input.function
  let operands ← f.transmitters input.table i
  let transmitted := operands.filterMap fun (v, kind) => if kind = .always then some v else none
  return match rule with
    | .policy .constant => f.results i ++ transmitted
    | .policy .call => f.results i ++ f.args i ++ transmitted
    | _ => transmitted

def determines (values : List ValueId) (v : ValueId) : List Clause :=
  if values.isEmpty then [] else [⟨values, v⟩]

def inverseClauses (op : Opcode) (result : ValueId) (args : List ValueId) : List Clause :=
  match op.inversePolicy, args with
  | .invertible, _ => args.map fun v => ⟨[result], v⟩
  | .invertibleGivenOther, [x, y] => [⟨[result, x], y⟩, ⟨[result, y], x⟩]
  | _, _ => []

def instClauses (i : InstId) (rule : TaintRule) : List Clause :=
  match input.function.firstResult? i with
  | none => []
  | some r =>
    (if rule.isOperator then determines (input.function.args i) r else [])
    ++ (if rule = .policy .pure then
        inverseClauses (input.function.opcode i) r (input.function.args i)
      else [])

def memoryClauses (rules : List (InstId × TaintRule)) : List Clause :=
  let f := input.function
  let loads := rules.filterMap fun (i, rule) => if rule = .policy .load then some i else none
  loads.flatMap fun load => rules.flatMap fun (store, _) =>
    match f.firstResult? load, f.storeOperands? store with
    | some loaded, some (stored, _) =>
      if input.oracle.loadStore f input.table load store = .must then
        [⟨[stored], loaded⟩, ⟨[loaded], stored⟩]
      else []
    | _, _ => []

def clauses (rules : List (InstId × TaintRule)) : List Clause :=
  (input.function.layoutParams.flatMap fun p => determines (input.defUse.dependenciesOf p) p)
  ++ rules.flatMap (fun (i, rule) => instClauses input i rule)
  ++ memoryClauses input rules

def compute : Except PassError PublicValues := do
  let rules ← taintRules input.function input.table
  let seeds ← rules.mapM fun (i, rule) => seedsOf input i rule
  return ⟨Clause.closure (clauses input rules) (.ofList seeds.flatten)⟩

def isPublic (p : PublicValues) (v : ValueId) : Bool := v ∈ p.values

end PublicValues

end SpecFence
