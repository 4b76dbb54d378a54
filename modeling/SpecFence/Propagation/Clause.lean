import SpecFence.Fixpoint
import SpecFence.Ordered.AscSet

/-!
# Deriving facts from clauses

A clause derives its conclusion once all of its premises are known.  The closure of a set of facts
is the least set that contains them and every conclusion derivable from it.
-/

set_option autoImplicit false

namespace SpecFence

/-- Facts are numbered; the conclusion follows from all premises together. -/
structure Clause where
  premises : List Nat
  conclusion : Nat
deriving DecidableEq, Repr

namespace Clause

def fires (known : AscSet Nat) (c : Clause) : Bool := c.premises.all fun p => p ∈ known

def round (clauses : List Clause) (known : AscSet Nat) : AscSet Nat :=
  known.insertAll ((clauses.filter (fires known)).map conclusion)

/-- All facts that follow from given ones.  Each round before the last adds the conclusion of some
clause, which bounds their number. -/
def closure (clauses : List Clause) (facts : AscSet Nat) : AscSet Nat :=
  fixpoint (round clauses) (clauses.length + 1) facts

theorem mem_round {clauses : List Clause} {known : AscSet Nat} {x : Nat} :
    x ∈ round clauses known ↔
      x ∈ known ∨ ∃ c ∈ clauses, fires known c = true ∧ c.conclusion = x := by
  simp [round, and_assoc]

end Clause

end SpecFence
