import SpecFence.Cut.Labels
import SpecFence.Propagation.Channel

/-!
# Labels spread in place

The least solution of the label equations is computed in two tables, which sweeps change in place.  A
sweep goes through the nodes, where it notes the labels that they emit, and then through the edges
that are not cut, where it passes on what has been noted.  Sweeps go on until one of them finds
nothing to add.
-/

set_option autoImplicit false

namespace SpecFence

namespace Channel

def Holding.add (h : Holding) (place : Nat) (members : AscSet Nat) : Holding × Bool :=
  (h.setIfInBounds place (h.at place ∪ members),
    decide (h.at place ∪ members ≠ h.at place))

end Channel

/-- The labels that each node receives and emits, as far as they have been found, and whether a
sweep has added any. -/
structure LabelTables where
  received : Channel.Holding
  emitted : Channel.Holding
  changed : Bool

namespace LabelTables

def empty (size : Nat) : LabelTables :=
  ⟨Array.replicate size .empty, Array.replicate size .empty, false⟩

def emit (t : LabelTables) (v : Node) (labels : AscSet Nat) : LabelTables :=
  let (emitted, new) := t.emitted.add v labels
  { t with emitted, changed := t.changed || new }

def pass (t : LabelTables) (e : Edge) : LabelTables :=
  let (received, new) := t.received.add e.dst (t.emitted.at e.src)
  { t with received, changed := t.changed || new }

end LabelTables

namespace LabelProblem

variable (p : LabelProblem)

def uncut (cut : EdgeSet) : List Edge :=
  p.edges.toList.zipIdx.filterMap fun ((e, _), i) => if i ∈ cut then none else some e

def noteAll (t : LabelTables) (nodes : List Node) : LabelTables :=
  nodes.foldl (fun t v => t.emit v (p.emitted v (t.received.at v))) t

def sweep (cut : EdgeSet) (t : LabelTables) : LabelTables :=
  (p.uncut cut).foldl LabelTables.pass
    (p.noteAll { t with changed := false } (List.range p.size))

def sweeps (cut : EdgeSet) : Nat → LabelTables → Option LabelTables
  | 0, _ => none
  | fuel + 1, t =>
    let t := p.sweep cut t
    if t.changed then sweeps cut fuel t else some t

end LabelProblem

end SpecFence
