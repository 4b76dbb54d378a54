import SpecFence.Cut.Flow
import SpecFence.Log

/-!
# Cutting the groups in turn

Each group is cut on a graph from which the cuts of all other groups are already taken away, pass
after pass, until a pass changes nothing.  The parts of the groups can undo each other for ever, so
the passes also end when an assignment of parts comes up again or a limit is reached; a last round
then only adds edges, which makes the cut valid for every group.
-/

set_option autoImplicit false

namespace SpecFence

/-- The working state: the graph without the edges cut so far, how many groups hold each of these
edges, and the part of the cut that each group holds. -/
structure CutState where
  overlay : Overlay
  owners : AscMap Edge Nat
  parts : List Cut

/-- What happens while groups are cut in turn. -/
inductive CutEvent where
  | posed (state : CutState) (group : WaypointGroup)
  /-- A group has let go of its part, or has taken edges. -/
  | reached (state : CutState)
  /-- A pass has ended, and leaves the parts or fails. -/
  | passed (parts : Except CutError (List Cut))

abbrev CutRun := Recorded CutEvent CutError

namespace CutState

def start (graph : Digraph) (groups : Nat) : CutState :=
  ⟨Overlay.onto graph, .empty, List.replicate groups .empty⟩

/-- One holder of an edge lets go of it; when no holder is left, the edge is back in the graph. -/
def releaseEdge (s : CutState) (e : Edge) : CutState :=
  match s.owners.get? e with
  | none => s
  | some n =>
    if n = 1 then { s with owners := s.owners.erase e, overlay := s.overlay.restore e }
    else { s with owners := s.owners.insert e (n - 1) }

def claimEdge (s : CutState) (e : Edge) : CutState :=
  match s.owners.get? e with
  | none => { s with owners := s.owners.insert e 1, overlay := s.overlay.remove e }
  | some n => { s with owners := s.owners.insert e (n + 1) }

def part (s : CutState) (i : Nat) : Cut := s.parts[i]?.getD .empty

def release (s : CutState) (i : Nat) : CutState :=
  let s' := (s.part i).toList.foldl releaseEdge s
  { s' with parts := s'.parts.set i .empty }

def claim (s : CutState) (i : Nat) (cut : Cut) : CutState :=
  let s' := cut.toList.foldl claimEdge s
  { s' with parts := s'.parts.set i (s'.part i ∪ cut) }

def reach (s : CutState) : CutRun CutState := ⟨.ok s, [.reached s]⟩

def cutOf (cancelled : Bool) (s : CutState) (group : WaypointGroup) : CutRun Cut :=
  ⟨minCutGroup s.overlay.digraph group cancelled, [.posed s group]⟩

/-- Gives a group the minimum cut on the graph without the parts of the others; tells whether its
part changed. -/
def recut (cancelled : Bool) (s : CutState) (i : Nat) (group : WaypointGroup) :
    CutRun (CutState × Bool) := do
  checkCancelled cancelled
  let free ← (s.release i).reach
  let cut ← free.cutOf cancelled group
  let next ← (free.claim i cut).reach
  return (next, cut != s.part i)

def pass (cancelled : Bool) (s : CutState) (i : Nat) : List WaypointGroup →
    CutRun (CutState × Bool)
  | [] => return (s, false)
  | group :: rest => do
    let (s', changed) ← s.recut cancelled i group
    let (s'', changed') ← pass cancelled s' (i + 1) rest
    return (s'', changed || changed')

/-- The round that only adds: each group, numbered from `i` on, takes what still separates it. -/
def repair (cancelled : Bool) (s : CutState) (i : Nat) : List WaypointGroup → CutRun CutState
  | [] => return s
  | group :: rest => do
    checkCancelled cancelled
    let cut ← s.cutOf cancelled group
    let next ← (s.claim i cut).reach
    repair cancelled next (i + 1) rest

def cut (s : CutState) : Cut := s.owners.keySet

end CutState

inductive PassesEnd where
  | converged
  /-- The parts were the same after an earlier pass. -/
  | repeated
  | limited
deriving DecidableEq, Repr

/-- Passes until one changes nothing, an assignment comes up again, or no pass is left.  Gives the
state, the number of passes made and how they ended. -/
def CutState.passes (cancelled : Bool) (groups : List WaypointGroup) (made : Nat)
    (history : List (List Cut)) (s : CutState) : Nat → CutRun (CutState × Nat × PassesEnd)
  | 0 => return (s, made, .limited)
  | left + 1 => do
    let (s', changed) ← (s.pass cancelled 0 groups).noteEnd fun r => .passed (r.map (·.1.parts))
    if !changed then return (s', made + 1, .converged)
    else if s'.parts ∈ history then return (s', made + 1, .repeated)
    else passes cancelled groups (made + 1) (s'.parts :: history) s' left

structure CutProgress where
  passes : Nat
  converged : Bool
deriving DecidableEq, Repr

def CutProgress.initial : CutProgress := ⟨0, false⟩

/-- A run with its result, its records, what is known about it and what has happened in it. -/
structure IteratedRun where
  outcome : Logged CutError Cut
  progress : CutProgress
  events : List CutEvent

namespace IteratedRun

def warnings (limit groups made : Nat) (ending : PassesEnd) : List LogRecord :=
  (if ending = .repeated then
    [⟨.warn, s!"min-cut assignment repeats after {made} passes over {groups} groups; stopping"⟩]
  else [])
  ++ (if limit ≤ made then
    [⟨.warn, s!"min-cut did not converge within {limit} passes over {groups} groups"⟩]
  else [])

def ofPrepared (limit : Nat) (cancelled : Bool) (graph : Digraph) (groups : List WaypointGroup) :
    IteratedRun :=
  let start := CutState.start graph groups.length
  let passes := start.passes cancelled groups 0 [start.parts] limit
  match passes.result with
  | .error e => ⟨⟨.error e, []⟩, ⟨0, true⟩, passes.log⟩
  | .ok (s, made, .converged) => ⟨⟨.ok s.cut, []⟩, ⟨made, true⟩, passes.log⟩
  | .ok (s, made, ending) =>
    let log := warnings limit groups.length made ending
    let repair := s.repair cancelled 0 groups
    match repair.result with
    | .error e => ⟨⟨.error e, log⟩, ⟨0, true⟩, passes.log ++ repair.log⟩
    | .ok s' => ⟨⟨.ok s'.cut, log⟩, ⟨made, false⟩, passes.log ++ repair.log⟩

end IteratedRun

/-- Cuts the groups in turn within a limit of passes, at least one.  Faulty groups leave what was
known before as it is; an error later on counts as a converged run of no passes. -/
def iteratedCut (limit : Nat) (cancelled : Bool) (before : CutProgress) (graph : Digraph)
    (groups : List WaypointGroup) : IteratedRun :=
  match prepareGroups graph groups with
  | .error e => ⟨⟨.error e, []⟩, before, []⟩
  | .ok [] => ⟨⟨.ok .empty, []⟩, ⟨0, true⟩, []⟩
  | .ok (g :: gs) => .ofPrepared (max limit 1) cancelled graph (g :: gs)

end SpecFence
