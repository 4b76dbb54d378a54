import SpecFence.Fixpoint
import SpecFence.Ordered.AscSet

/-!
# Spreading sets along channels

Numbered places hold sets.  A channel gives its target a set of its own and whatever its sources
hold.  The spread is the least holding that all channels agree with.
-/

set_option autoImplicit false

namespace SpecFence

/-- What a place holds: a set of its own and everything that its sources hold. -/
structure Channel where
  target : Nat
  own : AscSet Nat
  sources : List Nat
deriving DecidableEq

namespace Channel

/-- What each place holds. -/
abbrev Holding := Array (AscSet Nat)

def Holding.at (h : Holding) (place : Nat) : AscSet Nat := h[place]?.getD .empty

def output (h : Holding) (c : Channel) : AscSet Nat := c.sources.foldl (fun s p => s ∪ h.at p) c.own

/-- One round: every target holds what its channel gives it, and all other places hold nothing. -/
def round (channels : List Channel) (places : Nat) (h : Holding) : Holding :=
  channels.foldl (fun h' c => h'.setIfInBounds c.target (c.output h))
    (Array.replicate places .empty)

/-- The least holding.  Each round before the last adds one of the members that the channels own to
some place, which bounds their number. -/
def spread (channels : List Channel) (places members : Nat) : Holding :=
  fixpoint (round channels places) (places * members + 1) (Array.replicate places .empty)

end Channel

end SpecFence
