import SpecFence.Graph.Basic

/-!
# Plain weighted graphs

A weighted graph keeps one ascending row of outgoing edges for each node.  The reading
`WeightedGraph.weight` is the edge map that the operations are stated through: writing an edge
changes the weight of that pair alone.
-/

set_option autoImplicit false

namespace SpecFence

abbrev Row := AscMap Node Nat

def Row.ofTable (rows : Array Row) (u : Node) : Row := rows[u]?.getD .empty

/-- A weighted graph: for each node the row of its outgoing edges, all of them of positive weight
and leading to nodes of the graph. -/
structure WeightedGraph where
  rows : Array Row
  valid : ∀ u v w, (Row.ofTable rows u).get? v = some w → 0 < w ∧ v < rows.size

namespace WeightedGraph

def size (g : WeightedGraph) : Nat := g.rows.size

def row (g : WeightedGraph) (u : Node) : Row := .ofTable g.rows u

def weight (g : WeightedGraph) (u v : Node) : Nat := ((g.row u).get? v).getD 0

def withNodes (n : Nat) : WeightedGraph where
  rows := Array.replicate n .empty
  valid u v w h := by
    simp only [Row.ofTable, Array.getElem?_replicate] at h
    split at h <;> simp at h

def addNode (g : WeightedGraph) : WeightedGraph where
  rows := g.rows.push .empty
  valid u v w h := by
    rw [Row.ofTable, Array.getElem?_push] at h
    split at h
    · simp at h
    · have hw := g.valid u v w h
      rw [Array.size_push]
      exact ⟨hw.1, Nat.lt_succ_of_lt hw.2⟩

def writeRow (r : Row) (v : Node) (w : Nat) : Row :=
  if w = 0 then r.erase v else r.insert v w

theorem get?_writeRow {r : Row} {v x : Node} {w : Nat} :
    (writeRow r v w).get? x = if x = v then (if w = 0 then none else some w) else r.get? x := by
  rw [writeRow]
  split <;> simp [AscMap.get?_erase, AscMap.get?_insert]

/-- The graph with the weight of one pair of its nodes written: zero removes the edge.  Pairs with
an end outside the graph are left out. -/
def put (g : WeightedGraph) (u v : Node) (w : Nat) : WeightedGraph :=
  if hv : v < g.rows.size then
    { rows := g.rows.modify u (writeRow · v w)
      valid := by
        intro a b x h
        rw [Array.size_modify]
        rw [Row.ofTable, Array.getElem?_modify] at h
        split at h
        · rename_i hua
          subst hua
          cases hr : g.rows[u]? with
          | none => simp [hr] at h
          | some r =>
            rw [hr] at h
            simp only [Option.map_some, Option.getD_some] at h
            rw [get?_writeRow] at h
            split at h
            · rename_i hbv
              subst hbv
              split at h
              · cases h
              · cases h
                exact ⟨by omega, hv⟩
            · exact g.valid u b x (by rw [Row.ofTable, hr]; exact h)
        · exact g.valid a b x h }
  else g

def entering (g : WeightedGraph) (v : Node) : List (Node × Nat) :=
  (List.range g.size).filterMap fun u => ((g.row u).get? v).map (u, ·)

def digraph (g : WeightedGraph) : Digraph where
  size := g.size
  weight := g.weight
  succs u := (g.row u).toList
  preds := g.entering

def putAll (g : WeightedGraph) (edges : List (Edge × Nat)) : WeightedGraph :=
  edges.foldl (fun g (e, w) => g.put e.src e.dst w) g

def ofDigraph (g : Digraph) : WeightedGraph := (withNodes g.size).putAll g.edges

@[simp] theorem size_withNodes (n : Nat) : (withNodes n).size = n := by
  simp [size, withNodes]

@[simp] theorem size_addNode (g : WeightedGraph) : g.addNode.size = g.size + 1 := by
  simp [size, addNode]

@[simp] theorem size_put (g : WeightedGraph) (u v : Node) (w : Nat) :
    (g.put u v w).size = g.size := by
  rw [put]
  split <;> simp [size]

@[simp] theorem weight_withNodes (n : Nat) (u v : Node) : (withNodes n).weight u v = 0 := by
  simp only [weight, row, Row.ofTable, withNodes, Array.getElem?_replicate]
  split <;> simp

@[simp] theorem weight_addNode (g : WeightedGraph) (u v : Node) :
    g.addNode.weight u v = g.weight u v := by
  simp only [weight, row, Row.ofTable, addNode, Array.getElem?_push]
  split
  · rename_i h
    simp [h]
  · rfl

theorem lt_of_weight_pos {g : WeightedGraph} {u v : Node} (h : 0 < g.weight u v) :
    u < g.size ∧ v < g.size := by
  rw [weight] at h
  cases hw : (g.row u).get? v with
  | none => simp [hw] at h
  | some w =>
    refine ⟨?_, (g.valid u v w hw).2⟩
    refine Classical.byContradiction fun hu => ?_
    rw [row, Row.ofTable, Array.getElem?_eq_none (by exact Nat.le_of_not_lt hu)] at hw
    simp at hw

theorem weight_put {g : WeightedGraph} {u v : Node} {w : Nat} (hu : u < g.size) (hv : v < g.size)
    (a b : Node) :
    (g.put u v w).weight a b = if a = u ∧ b = v then w else g.weight a b := by
  have hv' : v < g.rows.size := hv
  have hu' : u < g.rows.size := hu
  simp only [weight, row, Row.ofTable, put, dif_pos hv', Array.getElem?_modify]
  by_cases ha : u = a
  · subst ha
    rw [if_pos rfl, Array.getElem?_eq_getElem hu']
    simp only [Option.map_some, Option.getD_some, get?_writeRow, true_and]
    by_cases hb : b = v
    · subst hb
      rw [if_pos rfl, if_pos rfl]
      split <;> simp_all
    · rw [if_neg hb, if_neg hb]
  · rw [if_neg ha, if_neg (fun h => ha h.1.symm)]

theorem mem_row_iff {g : WeightedGraph} {u v : Node} {w : Nat} :
    (v, w) ∈ (g.row u).toList ↔ 0 < w ∧ g.weight u v = w := by
  rw [AscMap.mem_toList_iff, weight]
  constructor
  · intro h
    exact ⟨(g.valid u v w h).1, by simp [h]⟩
  · rintro ⟨hw, h⟩
    cases hr : (g.row u).get? v with
    | none => simp [hr] at h; omega
    | some x => simpa [hr] using h

theorem mem_entering_iff {g : WeightedGraph} {u v : Node} {w : Nat} :
    (u, w) ∈ g.entering v ↔ 0 < w ∧ g.weight u v = w := by
  simp only [entering, List.mem_filterMap, List.mem_range, Option.map_eq_some_iff, Prod.mk.injEq]
  rw [← mem_row_iff, AscMap.mem_toList_iff]
  constructor
  · rintro ⟨a, _, x, hx, rfl, rfl⟩
    exact hx
  · intro h
    have hw := mem_row_iff.mp (AscMap.mem_toList_iff.mpr h)
    have hpos : 0 < g.weight u v := by omega
    exact ⟨u, (lt_of_weight_pos hpos).1, w, h, rfl, rfl⟩

theorem ascending_range (n : Nat) : Ascending (List.range n) := by
  have h : (List.range n).Pairwise (· < ·) := List.pairwise_lt_range
  exact h.imp fun h => Nat.compare_eq_lt.mpr h

theorem digraph_consistent (g : WeightedGraph) : g.digraph.Consistent where
  mem_succs _ _ _ := mem_row_iff
  mem_preds _ _ _ := mem_entering_iff
  succs_ascending u := (g.row u).ascending
  preds_ascending v := by
    have h : (g.entering v).map Prod.fst
        = (List.range g.size).filter fun u => ((g.row u).get? v).isSome := by
      rw [entering, List.map_filterMap, ← List.filterMap_eq_filter]
      congr 1
      funext u
      cases h : (g.row u).get? v <;> simp [Option.guard, h]
    rw [Digraph.prior]
    change Ascending ((g.entering v).map Prod.fst)
    rw [h]
    exact (ascending_range _).filter _
  src_lt _ _ h := (lt_of_weight_pos h).1
  dst_lt _ _ h := (lt_of_weight_pos h).2

end WeightedGraph

end SpecFence
