import Mathlib.Tactic.Common
import SpecFence.Graph.Overlay

/-!
# Overlays describe one edge map

An overlay whose written edges lie within a consistent graph is consistent itself: a merged row has
exactly the pairs with their written weight, or else with the weight below, and none of weight
zero.  Taking edges away leaves the weight of every other pair as it is.
-/

set_option autoImplicit false

namespace SpecFence

namespace AscMap

variable {κ ν : Type} [Ord κ] [Std.LawfulEqOrd κ] [Std.TransOrd κ] [DecidableEq κ]

theorem get?_foldl_insert (l : List (κ × ν)) (m : AscMap κ ν) (k : κ) :
    (∃ v, (k, v) ∈ l ∧ (l.foldl (fun m e => m.insert e.1 e.2) m).get? k = some v) ∨
      ((∀ v, (k, v) ∉ l) ∧ (l.foldl (fun m e => m.insert e.1 e.2) m).get? k = m.get? k) := by
  induction l generalizing m with
  | nil =>
    right
    exact ⟨fun v => List.not_mem_nil, rfl⟩
  | cons e l ih =>
    obtain ⟨a, w⟩ := e
    rw [List.foldl_cons]
    rcases ih (m.insert a w) with ⟨v, hv, hget⟩ | ⟨hnone, hget⟩
    · exact Or.inl ⟨v, List.mem_cons_of_mem _ hv, hget⟩
    · rw [get?_insert] at hget
      by_cases hka : k = a
      · subst hka
        rw [if_pos rfl] at hget
        exact Or.inl ⟨w, List.mem_cons_self, hget⟩
      · rw [if_neg hka] at hget
        refine Or.inr ⟨?_, hget⟩
        intro v hv
        rcases List.mem_cons.mp hv with heq | hv
        · cases heq
          exact hka rfl
        · exact hnone v hv

end AscMap

namespace Overlay

theorem get?_ofList {row : List (Node × Nat)} {weight : Node → Nat}
    (hrow : ∀ v w, (v, w) ∈ row ↔ 0 < w ∧ weight v = w) (v : Node) :
    (AscMap.ofList row).get? v = if weight v = 0 then none else some (weight v) := by
  unfold AscMap.ofList
  rcases AscMap.get?_foldl_insert row .empty v with ⟨w, hw, hget⟩ | ⟨hnone, hget⟩
  · obtain ⟨hpos, rfl⟩ := (hrow v w).mp hw
    rw [hget, if_neg (Nat.ne_of_gt hpos)]
  · have hzero : weight v = 0 := by
      by_contra hne
      exact hnone _ ((hrow v _).mpr ⟨Nat.pos_of_ne_zero hne, rfl⟩)
    rw [hget, if_pos hzero, AscMap.get?_empty]

/-- A merged row lists a node with its written weight, or else with its weight below, unless that is
zero. -/
theorem mem_merged {below written : List (Node × Nat)} {look : Node → Option Nat}
    {weightBelow : Node → Nat} (hwritten : ∀ v w, (v, w) ∈ written ↔ look v = some w)
    (hbelow : ∀ v w, (v, w) ∈ below ↔ 0 < w ∧ weightBelow v = w) (v w : Nat) :
    (v, w) ∈ merged below written ↔ 0 < w ∧ (look v).getD (weightBelow v) = w := by
  have hget : ((written.foldl (fun r e => r.insert e.1 e.2) (AscMap.ofList below)).get? v = some w ∧
      w ≠ 0) ↔ 0 < w ∧ (look v).getD (weightBelow v) = w := by
    rcases AscMap.get?_foldl_insert written (AscMap.ofList below) v with
      ⟨x, hx, hrow⟩ | ⟨hnone, hrow⟩
    · rw [hrow, (hwritten v x).mp hx, Option.getD_some, Option.some_inj]
      omega
    · have hlook : look v = none := by
        rw [Option.eq_none_iff_forall_not_mem]
        intro x hx
        exact hnone x ((hwritten v x).mpr hx)
      rw [hrow, hlook, Option.getD_none, get?_ofList hbelow]
      by_cases hzero : weightBelow v = 0
      · simp only [hzero, if_true, reduceCtorEq, false_and, false_iff]
        omega
      · rw [if_neg hzero, Option.some_inj]
        omega
  unfold merged
  rw [AscMap.mem_toList_iff, AscMap.get?_filter, Option.filter_eq_some_iff, ← hget]
  simp

/-- Every written edge that has a weight joins nodes of the graph below. -/
def InBounds (o : Overlay) : Prop :=
  ∀ e w, o.written.get? e = some w → w ≠ 0 → e.src < o.base.size ∧ e.dst < o.base.size

variable {o : Overlay}

section Written

variable {written : AscMap Edge Nat}

theorem mem_written_row (u v w : Nat) :
    (v, w) ∈ (written.toList.filterMap fun (e, w) => if e.src = u then some (e.dst, w) else none)
      ↔ written.get? ⟨u, v⟩ = some w := by
  rw [List.mem_filterMap, ← AscMap.mem_toList_iff]
  constructor
  · rintro ⟨⟨⟨a, b⟩, x⟩, hmem, hrow⟩
    by_cases hau : a = u
    · simp only [if_pos hau, Option.some.injEq, Prod.mk.injEq] at hrow
      rw [← hau, ← hrow.1, ← hrow.2]
      exact hmem
    · simp [hau] at hrow
  · intro h
    exact ⟨(⟨u, v⟩, w), h, by simp⟩

theorem mem_written_column (u v w : Nat) :
    (u, w) ∈ (written.toList.filterMap fun (e, w) => if e.dst = v then some (e.src, w) else none)
      ↔ written.get? ⟨u, v⟩ = some w := by
  rw [List.mem_filterMap, ← AscMap.mem_toList_iff]
  constructor
  · rintro ⟨⟨⟨a, b⟩, x⟩, hmem, hrow⟩
    by_cases hbv : b = v
    · simp only [if_pos hbv, Option.some.injEq, Prod.mk.injEq] at hrow
      rw [← hbv, ← hrow.1, ← hrow.2]
      exact hmem
    · simp [hbv] at hrow
  · intro h
    exact ⟨(⟨u, v⟩, w), h, by simp⟩

end Written

theorem bounds_of_weight (hbase : o.base.Consistent) (ho : o.InBounds) {u v : Node}
    (h : 0 < o.weight u v) : u < o.base.size ∧ v < o.base.size := by
  unfold weight at h
  cases hw : o.written.get? ⟨u, v⟩ with
  | none =>
    rw [hw, Option.getD_none] at h
    exact ⟨hbase.src_lt u v h, hbase.dst_lt u v h⟩
  | some w =>
    rw [hw, Option.getD_some] at h
    exact ho ⟨u, v⟩ w hw (Nat.ne_of_gt h)

theorem digraph_consistent (hbase : o.base.Consistent) (ho : o.InBounds) :
    o.digraph.Consistent where
  mem_succs u := by
    exact mem_merged (mem_written_row u) (hbase.mem_succs u)
  mem_preds u v w := by
    have hbelow : ∀ a x, (a, x) ∈ o.base.preds v ↔ 0 < x ∧ o.base.weight a v = x := by
      intro a x
      exact hbase.mem_preds a v x
    have hwritten : ∀ a x, (a, x) ∈ (o.written.toList.filterMap fun (e, w) =>
        if e.dst = v then some (e.src, w) else none) ↔ o.written.get? ⟨a, v⟩ = some x := by
      intro a x
      exact mem_written_column a v x
    exact mem_merged hwritten hbelow u w
  succs_ascending _ := AscMap.ascending _
  preds_ascending _ := AscMap.ascending _
  src_lt _ _ h := (bounds_of_weight hbase ho h).1
  dst_lt _ _ h := (bounds_of_weight hbase ho h).2

theorem inBounds_onto (base : Digraph) : (onto base).InBounds := by
  intro e w h
  simp [onto] at h

theorem InBounds.remove (ho : o.InBounds) (e : Edge) : (o.remove e).InBounds := by
  intro x w hw hne
  simp only [Overlay.remove, put, AscMap.get?_insert] at hw
  split at hw
  · cases hw
    exact absurd rfl hne
  · exact ho x w hw hne

theorem foldl_remove (cut : List Edge) (o : Overlay) (ho : o.InBounds) :
    (cut.foldl Overlay.remove o).InBounds ∧ (cut.foldl Overlay.remove o).base = o.base ∧
      ∀ u v, (cut.foldl Overlay.remove o).weight u v =
        if (⟨u, v⟩ : Edge) ∈ cut then 0 else o.weight u v := by
  induction cut generalizing o with
  | nil => exact ⟨ho, rfl, fun u v => by simp⟩
  | cons e cut ih =>
    obtain ⟨hbounds, hbase, hweight⟩ := ih (o.remove e) (ho.remove e)
    rw [List.foldl_cons]
    refine ⟨hbounds, hbase, ?_⟩
    intro u v
    rw [hweight, Overlay.remove, weight_put]
    by_cases hcut : (⟨u, v⟩ : Edge) ∈ cut
    · rw [if_pos hcut, if_pos (List.mem_cons_of_mem e hcut)]
    · rw [if_neg hcut]
      by_cases hu : (⟨u, v⟩ : Edge) = e
      · rw [if_pos hu, hu, if_pos List.mem_cons_self]
      · rw [if_neg hu, if_neg (List.not_mem_cons_of_ne_of_not_mem hu hcut)]

theorem without_consistent {base : Digraph} (hbase : base.Consistent) (cut : List Edge) :
    (without base cut).digraph.Consistent := by
  obtain ⟨hbounds, hsame, -⟩ := foldl_remove cut (onto base) (inBounds_onto base)
  refine digraph_consistent ?_ hbounds
  unfold without
  rw [hsame]
  exact hbase

theorem weight_without (base : Digraph) (cut : List Edge) (u v : Node) :
    (without base cut).weight u v = if (⟨u, v⟩ : Edge) ∈ cut then 0 else base.weight u v := by
  obtain ⟨-, -, hweight⟩ := foldl_remove cut (onto base) (inBounds_onto base)
  unfold without
  rw [hweight, weight_onto]

end Overlay

end SpecFence
