import SpecFence.Graph.Weighted

/-!
# Overlays

An overlay holds written weights over a graph that it leaves untouched.  A pair that was written
has its written weight, every other pair the weight of the graph below, and a pair can be restored
to the weight below.  Overlays read as directed graphs themselves, so they stack.
-/

set_option autoImplicit false

namespace SpecFence

/-- Weights written over a graph. -/
structure Overlay where
  base : Digraph
  /-- The written weights; zero stands for an edge taken away. -/
  written : AscMap Edge Nat

namespace Overlay

def onto (base : Digraph) : Overlay := ⟨base, .empty⟩

def weight (o : Overlay) (u v : Node) : Nat := (o.written.get? ⟨u, v⟩).getD (o.base.weight u v)

def restore (o : Overlay) (e : Edge) : Overlay := { o with written := o.written.erase e }

def put (o : Overlay) (e : Edge) (w : Nat) : Overlay := { o with written := o.written.insert e w }

def remove (o : Overlay) (e : Edge) : Overlay := o.put e 0

def without (base : Digraph) (cut : List Edge) : Overlay := cut.foldl remove (onto base)

def merged (below : List (Node × Nat)) (written : List (Node × Nat)) : List (Node × Nat) :=
  let rows := written.foldl (fun r e => r.insert e.1 e.2) (AscMap.ofList below)
  (rows.filter fun _ w => w != 0).toList

def digraph (o : Overlay) : Digraph where
  size := o.base.size
  weight := o.weight
  succs u := merged (o.base.succs u) <|
    o.written.toList.filterMap fun (e, w) => if e.src = u then some (e.dst, w) else none
  preds v := merged (o.base.preds v) <|
    o.written.toList.filterMap fun (e, w) => if e.dst = v then some (e.src, w) else none

theorem weight_put (o : Overlay) (e : Edge) (w : Nat) (u v : Node) :
    (o.put e w).weight u v = if (⟨u, v⟩ : Edge) = e then w else o.weight u v := by
  simp only [weight, put, AscMap.get?_insert]
  split <;> simp

theorem weight_restore (o : Overlay) (e : Edge) (u v : Node) :
    (o.restore e).weight u v = if (⟨u, v⟩ : Edge) = e then o.base.weight u v else o.weight u v := by
  simp only [weight, restore, AscMap.get?_erase]
  split <;> simp

@[simp] theorem weight_onto (base : Digraph) (u v : Node) :
    (onto base).weight u v = base.weight u v := by
  simp [weight, onto]

end Overlay

end SpecFence
