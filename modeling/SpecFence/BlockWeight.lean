import SpecFence.Ir.Loop
import SpecFence.Weight

/-!
# Block weights

What a fence in a block costs: the same everywhere, or an estimate of how often the block runs.  A
block in a loop runs more often, and a block that lies behind many others less often.  Weights are
never zero.
-/

set_option autoImplicit false

namespace SpecFence

/-- How blocks are weighted. -/
inductive BlockWeighting where
  | uniform (weight : Nat)
  | frequency (base : Nat)
deriving DecidableEq, Repr

namespace BlockWeighting

def estimate (f : Function) (base : Nat) (b : BlockId) : Nat :=
  max 1 (Weight.mul base (f.loopDepth b + 1) / ((f.strictDominators b).length + 1))

def weight (w : BlockWeighting) (f : Function) (b : BlockId) : Nat :=
  match w with
  | uniform n => max n 1
  | frequency base => if b ∈ f.blocks ∧ f.reachable.has b then estimate f base b else 1

end BlockWeighting

end SpecFence
