import SpecFence.Graph.Tabled
import SpecFence.Proofs.Adjacency
import SpecFence.Proofs.Overlay

/-!
# Graphs are edge maps

What a run of operations makes of a graph is described by one finite map from pairs of nodes to
positive weights.  The graph that keeps one row for each node reads like the map, and so does the
one that keeps rows for both directions.
-/

set_option autoImplicit false

namespace SpecFence

/-- A finite map from pairs of nodes of a graph to positive weights. -/
structure EdgeMap where
  size : Nat
  weights : AscMap Edge Nat
  valid : ∀ e w, weights.get? e = some w → 0 < w ∧ e.src < size ∧ e.dst < size

namespace EdgeMap

def weight (m : EdgeMap) (u v : Node) : Nat := (m.weights.get? ⟨u, v⟩).getD 0

def withNodes (n : Nat) : EdgeMap := ⟨n, .empty, fun e w h => by simp at h⟩

def addNode (m : EdgeMap) : EdgeMap where
  size := m.size + 1
  weights := m.weights
  valid e w h := by
    obtain ⟨hw, hsrc, hdst⟩ := m.valid e w h
    exact ⟨hw, Nat.lt_succ_of_lt hsrc, Nat.lt_succ_of_lt hdst⟩

/-- The map with one weight written: zero removes the pair.  Pairs with an end outside the graph are
left out. -/
def put (m : EdgeMap) (e : Edge) (w : Nat) : EdgeMap :=
  if hbound : e.src < m.size ∧ e.dst < m.size then
    { size := m.size
      weights := if w = 0 then m.weights.erase e else m.weights.insert e w
      valid := by
        intro x y h
        split at h
        · rw [AscMap.get?_erase] at h
          split at h
          · cases h
          · exact m.valid x y h
        · rw [AscMap.get?_insert] at h
          split at h
          · rename_i hw hx
            cases h
            subst hx
            exact ⟨Nat.pos_of_ne_zero hw, hbound⟩
          · exact m.valid x y h }
  else m

def digraph (m : EdgeMap) : Digraph where
  size := m.size
  weight := m.weight
  succs u := m.weights.toList.filterMap fun (e, w) => if e.src = u then some (e.dst, w) else none
  preds v := m.weights.toList.filterMap fun (e, w) => if e.dst = v then some (e.src, w) else none

variable {m : EdgeMap}

@[simp] theorem size_addNode : m.addNode.size = m.size + 1 := rfl

@[simp] theorem weight_addNode (u v : Node) : m.addNode.weight u v = m.weight u v := rfl

@[simp] theorem size_put (e : Edge) (w : Nat) : (m.put e w).size = m.size := by
  rw [put]
  split <;> rfl

theorem get?_put {e : Edge} (hsrc : e.src < m.size) (hdst : e.dst < m.size) (w : Nat) (x : Edge) :
    (m.put e w).weights.get? x =
      if x = e then (if w = 0 then none else some w) else m.weights.get? x := by
  rw [put, dif_pos ⟨hsrc, hdst⟩]
  by_cases hw : w = 0
  · simp only [if_pos hw, AscMap.get?_erase]
  · simp only [if_neg hw, AscMap.get?_insert]

theorem weight_put {e : Edge} (hsrc : e.src < m.size) (hdst : e.dst < m.size) (w : Nat)
    (u v : Node) : (m.put e w).weight u v = if (⟨u, v⟩ : Edge) = e then w else m.weight u v := by
  rw [weight, get?_put hsrc hdst]
  by_cases he : (⟨u, v⟩ : Edge) = e
  · by_cases hw : w = 0
    · simp [he, hw]
    · simp [he, hw]
  · rw [if_neg he, if_neg he]
    rfl

theorem get?_eq_some_iff {e : Edge} {w : Nat} :
    m.weights.get? e = some w ↔ 0 < w ∧ m.weight e.src e.dst = w := by
  rw [weight]
  constructor
  · intro h
    exact ⟨(m.valid e w h).1, by rw [h, Option.getD_some]⟩
  · intro ⟨hpos, hw⟩
    cases hget : m.weights.get? ⟨e.src, e.dst⟩ with
    | none =>
      rw [hget, Option.getD_none] at hw
      omega
    | some x =>
      rw [hget, Option.getD_some] at hw
      rw [hw]

theorem bounds_of_weight_pos {u v : Node} (h : 0 < m.weight u v) : u < m.size ∧ v < m.size :=
  (m.valid ⟨u, v⟩ _ (get?_eq_some_iff.mpr ⟨h, rfl⟩)).2

theorem weight_eq_zero {u v : Node} (h : ¬ (u < m.size ∧ v < m.size)) : m.weight u v = 0 := by
  by_contra hne
  exact h (bounds_of_weight_pos (Nat.pos_of_ne_zero hne))

theorem ascending_line (m : EdgeMap) {near far : Edge → Node} {u : Node}
    (h : ∀ a b : Edge, near a = u → near b = u → compare a b = .lt →
      compare (far a) (far b) = .lt) :
    Ascending ((m.weights.toList.filterMap fun (e, w) =>
      if near e = u then some (far e, w) else none).map Prod.fst) := by
  have hasc := List.pairwise_map.mp m.weights.ascending
  refine List.pairwise_map.mpr (List.pairwise_filterMap.mpr (hasc.imp ?_))
  intro a b hab x hx y hy
  obtain ⟨ha, hx⟩ := Option.ite_none_right_eq_some.mp hx
  obtain ⟨hb, hy⟩ := Option.ite_none_right_eq_some.mp hy
  cases hx
  cases hy
  exact h a.1 b.1 ha hb hab

theorem digraph_consistent (m : EdgeMap) : m.digraph.Consistent where
  mem_succs u v w := (Overlay.mem_written_row u v w).trans get?_eq_some_iff
  mem_preds u v w := (Overlay.mem_written_column u v w).trans get?_eq_some_iff
  succs_ascending u := m.ascending_line fun a b ha hb hab => by
    simpa [Edge.compare_eq, ha, hb] using hab
  preds_ascending v := m.ascending_line fun a b ha hb hab => by
    simpa [Edge.compare_eq, ha, hb, Ordering.then_eq_lt] using hab
  src_lt _ _ h := (bounds_of_weight_pos h).1
  dst_lt _ _ h := (bounds_of_weight_pos h).2

/-- A graph that lists the pairs with their weights, in ascending order, and has the size and the
weights of a map, is the graph of the map. -/
theorem eq_digraph {g : Digraph} (hsize : g.size = m.size)
    (hweight : ∀ u v, g.weight u v = m.weight u v)
    (hsuccs : ∀ u v w, (v, w) ∈ g.succs u ↔ 0 < w ∧ g.weight u v = w)
    (hpreds : ∀ u v w, (u, w) ∈ g.preds v ↔ 0 < w ∧ g.weight u v = w)
    (hnext : ∀ u, Ascending (g.next u)) (hprior : ∀ v, Ascending (g.prior v)) : g = m.digraph := by
  have hbounds : ∀ u v, 0 < g.weight u v → u < g.size ∧ v < g.size := by
    intro u v hpos
    rw [hweight] at hpos
    rw [hsize]
    exact bounds_of_weight_pos hpos
  have hconsistent : g.Consistent :=
    ⟨hsuccs, hpreds, hnext, hprior, fun u v h => (hbounds u v h).1, fun u v h => (hbounds u v h).2⟩
  exact hconsistent.ext m.digraph_consistent hsize hweight

theorem edges_digraph (m : EdgeMap) : m.digraph.edges = m.weights.toList := by
  have hasc := Digraph.ascending_edges m.digraph_consistent
  refine congrArg AscMap.toList (AscMap.ext_mem (s := ⟨m.digraph.edges, hasc⟩)
    (t := m.weights) fun e w => ?_)
  rw [Digraph.mem_edges_iff m.digraph_consistent, AscMap.mem_toList_iff, get?_eq_some_iff]
  rfl

end EdgeMap

section Building

inductive GraphOp where
  | addNode
  | put (e : Edge) (w : Nat)

def GraphOp.InRange : Nat → List GraphOp → Prop
  | _, [] => True
  | n, .addNode :: ops => InRange (n + 1) ops
  | n, .put e _ :: ops => (e.src < n ∧ e.dst < n) ∧ InRange n ops

instance GraphOp.decidableInRange : ∀ n ops, Decidable (InRange n ops)
  | _, [] => .isTrue trivial
  | n, .addNode :: ops => decidableInRange (n + 1) ops
  | n, .put e _ :: ops =>
    have := decidableInRange n ops
    inferInstanceAs (Decidable ((e.src < n ∧ e.dst < n) ∧ InRange n ops))

def EdgeMap.step (m : EdgeMap) : GraphOp → EdgeMap
  | .addNode => m.addNode
  | .put e w => m.put e w

def WeightedGraph.step (g : WeightedGraph) : GraphOp → WeightedGraph
  | .addNode => g.addNode
  | .put e w => g.put e.src e.dst w

def TwoWayGraph.step (g : TwoWayGraph) : GraphOp → TwoWayGraph
  | .addNode => g.addNode
  | .put e w => g.put e w

def EdgeMap.built (n : Nat) (ops : List GraphOp) : EdgeMap := ops.foldl step (withNodes n)

def WeightedGraph.built (n : Nat) (ops : List GraphOp) : WeightedGraph :=
  ops.foldl step (withNodes n)

def TwoWayGraph.built (n : Nat) (ops : List GraphOp) : TwoWayGraph := ops.foldl step (withNodes n)

theorem GraphOp.foldl_induction {γ : Type} {step : γ → GraphOp → γ} {R : γ → EdgeMap → Prop}
    (hadd : ∀ g m, R g m → R (step g .addNode) m.addNode)
    (hput : ∀ g m e w, e.src < m.size → e.dst < m.size → R g m → R (step g (.put e w)) (m.put e w))
    {ops : List GraphOp} {g : γ} {m : EdgeMap} (h : R g m) (hops : InRange m.size ops) :
    R (ops.foldl step g) (ops.foldl EdgeMap.step m) := by
  induction ops generalizing g m with
  | nil => exact h
  | cons op ops ih =>
    cases op with
    | addNode => exact ih (hadd g m h) hops
    | put e w =>
      obtain ⟨⟨hsrc, hdst⟩, hops⟩ := hops
      exact ih (hput g m e w hsrc hdst h) (by simpa [EdgeMap.step] using hops)

def GraphOp.puts (edges : List (Edge × Nat)) : List GraphOp :=
  edges.map fun (e, w) => .put e w

theorem GraphOp.inRange_puts {n : Nat} {edges : List (Edge × Nat)}
    (h : ∀ x ∈ edges, x.1.src < n ∧ x.1.dst < n) : InRange n (puts edges) := by
  induction edges with
  | nil => exact trivial
  | cons x edges ih =>
    rw [List.forall_mem_cons] at h
    exact ⟨h.1, ih h.2⟩

structure WeightedGraph.Reads (g : WeightedGraph) (m : EdgeMap) : Prop where
  size : g.size = m.size
  weight : ∀ u v, g.weight u v = m.weight u v

structure TwoWayGraph.Reads (g : TwoWayGraph) (m : EdgeMap) : Prop where
  size_succs : g.succs.size = m.size
  size_preds : g.preds.size = m.size
  succs : ∀ u v, (Row.ofTable g.succs u).get? v = m.weights.get? ⟨u, v⟩
  preds : ∀ u v, (Row.ofTable g.preds v).get? u = m.weights.get? ⟨u, v⟩

namespace WeightedGraph

variable {g : WeightedGraph} {m : EdgeMap}

theorem Reads.addNode (h : g.Reads m) : g.addNode.Reads m.addNode where
  size := by simp [h.size]
  weight u v := by simp [h.weight]

theorem Reads.put (h : g.Reads m) {e : Edge} (hsrc : e.src < m.size) (hdst : e.dst < m.size)
    (w : Nat) : (g.put e.src e.dst w).Reads (m.put e w) where
  size := by simp [h.size]
  weight u v := by
    rw [weight_put (h.size ▸ hsrc) (h.size ▸ hdst), EdgeMap.weight_put hsrc hdst, h.weight]
    cases e
    simp

theorem Reads.digraph_eq (h : g.Reads m) : g.digraph = m.digraph :=
  (digraph_consistent g).ext (EdgeMap.digraph_consistent m) h.size h.weight

theorem digraph_built (n : Nat) {ops : List GraphOp} (hops : GraphOp.InRange n ops) :
    (built n ops).digraph = (EdgeMap.built n ops).digraph := by
  have hreads : (built n ops).Reads (.built n ops) :=
    GraphOp.foldl_induction (fun _ _ h => h.addNode) (fun _ _ _ w hsrc hdst h => h.put hsrc hdst w)
      ⟨size_withNodes n, weight_withNodes n⟩ hops
  exact hreads.digraph_eq

theorem ofDigraph_eq_built (g : Digraph) : ofDigraph g = built g.size (GraphOp.puts g.edges) := by
  rw [built, GraphOp.puts, List.foldl_map]
  rfl

end WeightedGraph

theorem Digraph.Consistent.exists_edgeMap {g : Digraph} (hg : g.Consistent) :
    ∃ m : EdgeMap, m.digraph = g := by
  have hrange : GraphOp.InRange g.size (GraphOp.puts g.edges) :=
    GraphOp.inRange_puts fun x hx => Digraph.bounds_of_mem_edges hg hx
  refine ⟨.built g.size (GraphOp.puts g.edges), ?_⟩
  rw [← WeightedGraph.digraph_built _ hrange, ← WeightedGraph.ofDigraph_eq_built,
    WeightedGraph.digraph_ofDigraph hg]

namespace TwoWayGraph

variable {g : TwoWayGraph} {m : EdgeMap}

theorem ofTable_replicate (n : Nat) (u : Node) :
    Row.ofTable (Array.replicate n .empty) u = .empty := by
  simp only [Row.ofTable, Array.getElem?_replicate]
  split
  · rfl
  · rfl

theorem ofTable_push (rows : Array Row) (u : Node) :
    Row.ofTable (rows.push .empty) u = Row.ofTable rows u := by
  simp only [Row.ofTable, Array.getElem?_push]
  split
  · rename_i h
    simp [h]
  · rfl

theorem get?_ofTable_modify {rows : Array Row} {u v : Node} (hu : u < rows.size) (w : Nat)
    (a b : Node) : (Row.ofTable (rows.modify u (WeightedGraph.writeRow · v w)) a).get? b =
      if a = u ∧ b = v then (if w = 0 then none else some w) else (Row.ofTable rows a).get? b := by
  simp only [Row.ofTable, Array.getElem?_modify]
  by_cases ha : u = a
  · subst ha
    rw [if_pos rfl, Array.getElem?_eq_getElem hu]
    simp only [Option.map_some, Option.getD_some, WeightedGraph.get?_writeRow, true_and]
  · rw [if_neg ha, if_neg fun h => ha h.1.symm]

theorem Reads.addNode (h : g.Reads m) : g.addNode.Reads m.addNode where
  size_succs := by simp [TwoWayGraph.addNode, h.size_succs]
  size_preds := by simp [TwoWayGraph.addNode, h.size_preds]
  succs u v := by
    rw [TwoWayGraph.addNode, ofTable_push]
    exact h.succs u v
  preds u v := by
    rw [TwoWayGraph.addNode, ofTable_push]
    exact h.preds u v

theorem Reads.put (h : g.Reads m) {e : Edge} (hsrc : e.src < m.size) (hdst : e.dst < m.size)
    (w : Nat) : (g.put e w).Reads (m.put e w) where
  size_succs := by simp [TwoWayGraph.put, h.size_succs]
  size_preds := by simp [TwoWayGraph.put, h.size_preds]
  succs u v := by
    rw [TwoWayGraph.put, get?_ofTable_modify (h.size_succs ▸ hsrc), EdgeMap.get?_put hsrc hdst,
      h.succs]
    cases e
    simp
  preds u v := by
    rw [TwoWayGraph.put, get?_ofTable_modify (h.size_preds ▸ hdst), EdgeMap.get?_put hsrc hdst,
      h.preds]
    cases e
    simp [and_comm]

theorem Reads.digraph_eq (h : g.Reads m) : g.digraph = m.digraph := by
  have hweight : ∀ u v, g.digraph.weight u v = m.weight u v :=
    fun u v => congrArg (·.getD 0) (h.succs u v)
  refine EdgeMap.eq_digraph h.size_succs hweight ?_ ?_ (fun u => AscMap.ascending _)
    fun v => AscMap.ascending _
  · intro u v w
    rw [hweight, ← EdgeMap.get?_eq_some_iff (e := ⟨u, v⟩), ← h.succs]
    exact AscMap.mem_toList_iff
  · intro u v w
    rw [hweight, ← EdgeMap.get?_eq_some_iff (e := ⟨u, v⟩), ← h.preds]
    exact AscMap.mem_toList_iff

theorem digraph_built (n : Nat) {ops : List GraphOp} (hops : GraphOp.InRange n ops) :
    (built n ops).digraph = (EdgeMap.built n ops).digraph := by
  have hempty : (withNodes n).Reads (.withNodes n) := by
    constructor
    case size_succs | size_preds => exact Array.size_replicate
    case succs | preds =>
      intro u v
      rw [withNodes, ofTable_replicate]
      rfl
  have hreads : (built n ops).Reads (.built n ops) :=
    GraphOp.foldl_induction (fun _ _ h => h.addNode) (fun _ _ _ w hsrc hdst h => h.put hsrc hdst w)
      hempty hops
  exact hreads.digraph_eq

theorem digraph_ofDigraph {g : Digraph} (hg : g.Consistent) : (ofDigraph g).digraph = g := by
  have hputs : GraphOp.InRange g.size (GraphOp.puts g.edges) :=
    GraphOp.inRange_puts fun x hx => Digraph.bounds_of_mem_edges hg hx
  have htwoWay : ofDigraph g = built g.size (GraphOp.puts g.edges) := by
    rw [built, GraphOp.puts, List.foldl_map]
    rfl
  rw [htwoWay, digraph_built g.size hputs, ← WeightedGraph.digraph_built g.size hputs,
    ← WeightedGraph.ofDigraph_eq_built, WeightedGraph.digraph_ofDigraph hg]

end TwoWayGraph

end Building

end SpecFence
