import Mathlib.Data.List.Nodup
import SpecFence.Cut.Labels
import SpecFence.Proofs.Adjacency
import SpecFence.Proofs.Discovery
import SpecFence.Proofs.Walk

/-!
# The label problem asks the same question

Collapsing the groups and leaving out irrelevant edges changes no answer: an uncut walk of the
graph visits the stages of a group exactly when an uncut walk over relevant edges visits the stages
of a collapsed group.  The search for such a walk enters every stage as early as it can, which loses
nothing because consecutive stages are disjoint.
-/

set_option autoImplicit false

namespace SpecFence

open Relation

section Stages

variable {α : Type} {R : α → α → Prop} {isIn : α → NodeSet → Prop}

theorem Threads.of_subset_last {u : α} {front : List NodeSet} {s t : NodeSet}
    (hst : ∀ v, isIn v s → isIn v t) (h : Threads R isIn u (front ++ [s])) :
    Threads R isIn u (front ++ [t]) := by
  induction front generalizing u with
  | nil =>
    obtain ⟨v, huv, hv, -⟩ := h
    exact ⟨v, huv, hst v hv, trivial⟩
  | cons a front ih =>
    obtain ⟨v, huv, hv, hrest⟩ := h
    exact ⟨v, huv, hv, ih hrest⟩

/-- A walk ends in some state of the last stage, and the last stage may be replaced by any one with
that state. -/
theorem Threads.exists_last {u : α} {front : List NodeSet} {s : NodeSet}
    (h : Threads R isIn u (front ++ [s])) :
    ∃ v, isIn v s ∧ ∀ t, isIn v t → Threads R isIn u (front ++ [t]) := by
  induction front generalizing u with
  | nil =>
    obtain ⟨v, huv, hv, -⟩ := h
    exact ⟨v, hv, fun t ht => ⟨v, huv, ht, trivial⟩⟩
  | cons a front ih =>
    obtain ⟨v, huv, hv, hrest⟩ := h
    obtain ⟨w, hw, hall⟩ := ih hrest
    exact ⟨w, hw, fun t ht => ⟨v, huv, hv, hall t ht⟩⟩

/-- The steps of a walk through stages start where the walk can get to from its first state and end
where it can get to a state of the last stage from. -/
theorem Threads.within (begun : α → Prop) {u : α} {front : List NodeSet} {last : NodeSet}
    (hfrom : ∀ a b, begun a → R a b → begun b) (hu : begun u)
    (h : Threads R isIn u (front ++ [last])) :
    (∃ w, isIn w last ∧ ReflTransGen R u w) ∧
      Threads (fun a b => R a b ∧ begun a ∧ ∃ w, isIn w last ∧ ReflTransGen R b w) isIn u
        (front ++ [last]) := by
  have hstretch : ∀ a b : α, begun a → ReflTransGen R a b →
      (∃ w, isIn w last ∧ ReflTransGen R b w) →
      begun b ∧ ReflTransGen (fun a b => R a b ∧ begun a ∧
        ∃ w, isIn w last ∧ ReflTransGen R b w) a b := by
    intro a b ha hab ⟨w, hw, hbw⟩
    induction hab using ReflTransGen.head_induction_on with
    | refl => exact ⟨ha, ReflTransGen.refl⟩
    | @head a c hac hcb ih =>
      obtain ⟨hb, hreach⟩ := ih (hfrom a c ha hac)
      exact ⟨hb, ReflTransGen.head ⟨hac, ha, w, hw, hcb.trans hbw⟩ hreach⟩
  induction front generalizing u with
  | nil =>
    obtain ⟨v, huv, hv, -⟩ := h
    exact ⟨⟨v, hv, huv⟩, v, (hstretch u v hu huv ⟨v, hv, ReflTransGen.refl⟩).2, hv, trivial⟩
  | cons a front ih =>
    obtain ⟨v, huv, hv, hrest⟩ := h
    have hvfrom : begun v := by
      clear ih hrest hv
      induction huv with
      | refl => exact hu
      | tail _ hstep ihv => exact hfrom _ _ ihv hstep
    obtain ⟨⟨w, hw, hvw⟩, hthreads⟩ := ih hvfrom hrest
    exact ⟨⟨w, hw, huv.trans hvw⟩, v, (hstretch u v hu huv ⟨w, hw, hvw⟩).2, hv, hthreads⟩

end Stages

namespace LabelProblem

section Collapse

/-- What is merged: for each list of first stages of some group, the union of the last stages. -/
structure Merged (groups : List WaypointGroup) (m : AscMap (List NodeSet) NodeSet) : Prop where
  key : ∀ front, (m.get? front).isSome = true ↔ ∃ g ∈ groups, ∃ last, g.stages = front ++ [last]
  mem : ∀ front v, v ∈ (m.get? front).getD .empty ↔
    ∃ g ∈ groups, ∃ last, g.stages = front ++ [last] ∧ v ∈ last

theorem Merged.empty : Merged [] .empty := by
  constructor
  · intro front
    simp
  · intro front v
    simp

theorem mergeInto_of_nil {m : AscMap (List NodeSet) NodeSet} {g : WaypointGroup}
    (h : g.stages = []) : mergeInto m g = m := by
  unfold mergeInto
  rw [h]
  rfl

theorem get?_mergeInto {m : AscMap (List NodeSet) NodeSet} {g : WaypointGroup}
    {front : List NodeSet} {last : NodeSet} (h : g.stages = front ++ [last])
    (x : List NodeSet) : (mergeInto m g).get? x =
      if x = front then some ((m.get? front).getD .empty ∪ last) else m.get? x := by
  unfold mergeInto
  rw [h, List.getLast?_concat, List.dropLast_concat]
  exact AscMap.get?_insert

theorem Merged.step {groups : List WaypointGroup} {m : AscMap (List NodeSet) NodeSet}
    (h : Merged groups m) (g : WaypointGroup) : Merged (groups ++ [g]) (mergeInto m g) := by
  have hsplit : ∀ P : WaypointGroup → Prop,
      (∃ x ∈ groups ++ [g], P x) ↔ (∃ x ∈ groups, P x) ∨ P g := by
    intro P
    simp [or_and_right, exists_or]
  rcases List.eq_nil_or_concat g.stages with hnil | ⟨front', t, hstages⟩
  · rw [mergeInto_of_nil hnil]
    constructor
    · intro front
      rw [hsplit, ← h.key]
      simp [hnil]
    · intro front v
      rw [hsplit, ← h.mem]
      simp [hnil]
  · rw [List.concat_eq_append] at hstages
    constructor
    · intro front
      rw [hsplit, ← h.key, get?_mergeInto hstages]
      by_cases hfront : front = front'
      · simp [hfront, hstages]
      · have hother : ∀ last, g.stages ≠ front ++ [last] := fun last heq =>
          hfront (List.append_inj_left' (heq.symm.trans hstages) rfl)
        simp [hfront, hother]
    · intro front v
      rw [hsplit, ← h.mem, get?_mergeInto hstages]
      by_cases hfront : front = front'
      · simp [hfront, hstages, AscSet.mem_union]
      · have hother : ∀ last, g.stages ≠ front ++ [last] := fun last heq =>
          hfront (List.append_inj_left' (heq.symm.trans hstages) rfl)
        simp [hfront, hother]

theorem merged_foldl (groups done : List WaypointGroup) {m : AscMap (List NodeSet) NodeSet}
    (h : Merged done m) : Merged (done ++ groups) (groups.foldl mergeInto m) := by
  induction groups generalizing done m with
  | nil =>
    rw [List.append_nil]
    exact h
  | cons g groups ih =>
    have hnext := ih (done ++ [g]) (h.step g)
    rwa [List.append_assoc] at hnext

theorem exists_merged (groups : List WaypointGroup) :
    ∃ m, Merged groups m ∧ collapse groups = m.toList.map fun (front, last) => ⟨front ++ [last]⟩ :=
  ⟨groups.foldl mergeInto .empty, merged_foldl groups [] Merged.empty, rfl⟩

theorem exists_collapsed {groups : List WaypointGroup} {g : WaypointGroup} (hg : g ∈ groups)
    {front : List NodeSet} {last : NodeSet} (hstages : g.stages = front ++ [last]) :
    ∃ s, (⟨front ++ [s]⟩ : WaypointGroup) ∈ collapse groups ∧ ∀ v ∈ last, v ∈ s := by
  obtain ⟨m, hm, hcollapse⟩ := exists_merged groups
  obtain ⟨s, hs⟩ := Option.isSome_iff_exists.mp ((hm.key front).mpr ⟨g, hg, last, hstages⟩)
  refine ⟨s, ?_, ?_⟩
  · rw [hcollapse]
    exact List.mem_map.mpr ⟨(front, s), AscMap.mem_toList_iff.mpr hs, rfl⟩
  · intro v hv
    have hmem := (hm.mem front v).mpr ⟨g, hg, last, hstages, hv⟩
    rwa [hs] at hmem

/-- A collapsed group has the first stages of some group, whose last stage is part of its own, and
each node of its last stage is in the last stage of such a group. -/
theorem of_mem_collapse {groups : List WaypointGroup} {c : WaypointGroup}
    (hc : c ∈ collapse groups) :
    ∃ front s, c.stages = front ++ [s] ∧
      (∃ g ∈ groups, ∃ last, g.stages = front ++ [last] ∧ ∀ v ∈ last, v ∈ s) ∧
      ∀ v ∈ s, ∃ g ∈ groups, ∃ last, g.stages = front ++ [last] ∧ v ∈ last := by
  obtain ⟨m, hm, hcollapse⟩ := exists_merged groups
  rw [hcollapse] at hc
  obtain ⟨⟨front, s⟩, hmem, rfl⟩ := List.mem_map.mp hc
  have hget : m.get? front = some s := AscMap.mem_toList_iff.mp hmem
  obtain ⟨g, hg, last, hstages⟩ := (hm.key front).mp (by rw [hget]; rfl)
  have hmem := hm.mem front
  rw [hget] at hmem
  refine ⟨front, s, rfl, ⟨g, hg, last, hstages, ?_⟩, fun v hv => (hmem v).mp hv⟩
  intro v hv
  exact (hmem v).mpr ⟨g, hg, last, hstages, hv⟩

theorem wellPosed_of_mem_collapse {groups : List WaypointGroup} {size : Nat}
    (hgroups : ∀ g ∈ groups, g.WellPosed size) {c : WaypointGroup} (hc : c ∈ collapse groups) :
    c.WellPosed size := by
  obtain ⟨front, s, hstages, ⟨g, hg, last, hfront, hsub⟩, hall⟩ := of_mem_collapse hc
  have hwell := hgroups g hg
  have hlong := hwell.long
  have hinhabited := hwell.inhabited
  have hbound := hwell.bound
  have hdisjoint := hwell.disjoint
  rw [hfront] at hlong hinhabited hbound hdisjoint
  constructor
  · rw [hstages]
    simpa using hlong
  · rw [hstages]
    intro t ht
    rcases List.mem_append.mp ht with ht | ht
    · exact hinhabited t (List.mem_append_left _ ht)
    · obtain ⟨v, hv⟩ := hinhabited last (by simp)
      rw [List.mem_singleton.mp ht]
      exact ⟨v, hsub v hv⟩
  · rw [hstages]
    intro t ht v hv
    rcases List.mem_append.mp ht with ht | ht
    · exact hbound t (List.mem_append_left _ ht) v hv
    · rw [List.mem_singleton.mp ht] at hv
      obtain ⟨x, hx, l, hl, hvl⟩ := hall v hv
      refine (hgroups x hx).bound l ?_ v hvl
      rw [hl]
      simp
  · rw [hstages, List.isChain_append]
    refine ⟨(List.isChain_append.mp hdisjoint).1, .singleton s, ?_⟩
    intro t ht y hy v hv hvs
    cases hy
    obtain ⟨x, hx, l, hl, hvl⟩ := hall v hvs
    have hchain := (hgroups x hx).disjoint
    rw [hl] at hchain
    exact (List.isChain_append.mp hchain).2.2 t ht l rfl v hv hvl

theorem exists_front {g : WaypointGroup} {size : Nat} (h : g.WellPosed size) :
    ∃ first front last, g.stages = first :: (front ++ [last]) := by
  have hlong := h.long
  cases hstages : g.stages with
  | nil =>
    rw [hstages] at hlong
    simp at hlong
  | cons first rest =>
    rw [hstages] at hlong
    have hne : rest ≠ [] := by
      rintro rfl
      simp at hlong
    exact ⟨first, rest.dropLast, rest.getLast hne, by rw [List.dropLast_concat_getLast]⟩

theorem exists_ends {g : WaypointGroup} {size : Nat} (h : g.WellPosed size) :
    ∃ first front last, g.stages = first :: (front ++ [last]) ∧ g.sources? = some first ∧
      g.sinks? = some last := by
  obtain ⟨first, front, last, hstages⟩ := exists_front h
  refine ⟨first, front, last, hstages, ?_, ?_⟩
  · unfold WaypointGroup.sources?
    rw [hstages]
    rfl
  · unfold WaypointGroup.sinks?
    rw [hstages, ← List.cons_append, List.getLast?_concat]

/-- Collapsing keeps the question: a walk visits the stages of some group exactly when it visits the
stages of a collapsed group. -/
theorem exists_satisfiable_collapse {groups : List WaypointGroup} {size : Nat}
    (hgroups : ∀ g ∈ groups, g.WellPosed size) {R : Node → Node → Prop} :
    (∃ c ∈ collapse groups, c.Satisfiable R) ↔ ∃ g ∈ groups, g.Satisfiable R := by
  constructor
  · rintro ⟨c, hc, first, rest, u, hstages, hu, hthreads⟩
    obtain ⟨first', front, last, hfront⟩ := exists_front (wellPosed_of_mem_collapse hgroups hc)
    obtain ⟨front', s, hstages', -, hall⟩ := of_mem_collapse hc
    rw [hfront] at hstages
    cases hstages
    have hsplit : front' = first :: front ∧ s = last := by
      rw [hfront, ← List.cons_append] at hstages'
      have hinj := List.append_inj' hstages' rfl
      exact ⟨hinj.1.symm, (List.cons.inj hinj.2).1.symm⟩
    obtain ⟨rfl, rfl⟩ := hsplit
    obtain ⟨v, hv, hreplace⟩ := hthreads.exists_last
    obtain ⟨g, hg, l, hl, hvl⟩ := hall v hv
    exact ⟨g, hg, first, front ++ [l], u, hl, hu, hreplace l hvl⟩
  · rintro ⟨g, hg, first, rest, u, hstages, hu, hthreads⟩
    obtain ⟨first', front, last, hfront⟩ := exists_front (hgroups g hg)
    rw [hfront] at hstages
    cases hstages
    have hstages' : g.stages = (first :: front) ++ [last] := hfront
    obtain ⟨s, hs, hsub⟩ := exists_collapsed hg hstages'
    exact ⟨_, hs, first, front ++ [s], u, rfl, hu, hthreads.of_subset_last hsub⟩

end Collapse

end LabelProblem

namespace LabelProblem

structure WellFormed (p : LabelProblem) : Prop where
  groups : ∀ c ∈ p.groups, c.WellPosed p.size
  leaving : ∀ v, v < p.size → p.leaving[v]? = some (leavingOf p.edges v)
  bound : ∀ (i : Nat) (e : Edge) (w : Nat), p.edges[i]? = some (e, w) →
    e.src < p.size ∧ e.dst < p.size
  nodup : (p.edges.toList.map Prod.fst).Nodup

variable {p : LabelProblem}

def Passable (p : LabelProblem) (cut : EdgeSet) (u v : Node) : Prop :=
  ∃ i w, p.edges[i]? = some (⟨u, v⟩, w) ∧ i ∉ cut

theorem encode_wellFormed {graph : Digraph} (hg : graph.Consistent) {groups : List WaypointGroup}
    (hgroups : ∀ g ∈ groups, g.WellPosed graph.size) : (encode graph groups).WellFormed := by
  constructor
  · intro c hc
    exact wellPosed_of_mem_collapse hgroups hc
  · intro v hv
    change v < graph.size at hv
    change ((Array.range graph.size).map _)[v]? = _
    rw [Array.getElem?_map, Array.getElem?_range, if_pos hv]
    rfl
  · intro i e w h
    have hmem : (e, w) ∈ relevantEdges graph (collapse groups) := by
      have hlist : (relevantEdges graph (collapse groups))[i]? = some (e, w) := by
        simpa [encode] using h
      exact List.mem_of_getElem? hlist
    obtain ⟨hpos, hw⟩ := (Digraph.mem_edges_iff hg).mp (List.mem_filter.mp hmem).1
    exact ⟨hg.src_lt e.src e.dst (by omega), hg.dst_lt e.src e.dst (by omega)⟩
  · have hsub : (relevantEdges graph (collapse groups)).Sublist graph.edges :=
      List.filter_sublist
    exact (Digraph.nodup_edges hg).sublist (hsub.map Prod.fst)

theorem mem_outgoing (h : p.WellFormed) {v : Node} (hv : v < p.size) {i : Nat} :
    i ∈ p.outgoing v ↔ ∃ dst w, p.edges[i]? = some (⟨v, dst⟩, w) := by
  unfold outgoing
  rw [h.leaving v hv, Option.getD_some]
  unfold leavingOf
  rw [List.mem_filter, List.mem_range]
  constructor
  · rintro ⟨-, hsrc⟩
    cases hedge : p.edges[i]? with
    | none => simp [hedge] at hsrc
    | some x =>
      obtain ⟨⟨src, dst⟩, w⟩ := x
      have hsrc : src = v := by simpa [hedge] using hsrc
      rw [hsrc]
      exact ⟨dst, w, rfl⟩
  · rintro ⟨dst, w, hedge⟩
    refine ⟨?_, by simp [hedge]⟩
    exact (Array.getElem?_eq_some_iff.mp hedge).1

theorem edgeIndex?_eq_some_iff (h : p.WellFormed) {e : Edge} (he : e.src < p.size) {i : Nat} :
    p.edgeIndex? e = some i ↔ ∃ w, p.edges[i]? = some (e, w) := by
  have hunique : ∀ (i j w x : Nat), p.edges[i]? = some (e, w) → p.edges[j]? = some (e, x) → i = j := by
    intro i j w x hi hj
    have hlt : i < (p.edges.toList.map Prod.fst).length := by
      rw [List.length_map, Array.length_toList]
      exact (Array.getElem?_eq_some_iff.mp hi).1
    refine (List.getElem?_inj hlt h.nodup).mp ?_
    simp [hi, hj]
  unfold edgeIndex?
  constructor
  · intro hfind
    have hmem := List.mem_of_find?_eq_some hfind
    have hdst := List.find?_some hfind
    obtain ⟨dst, w, hedge⟩ := (mem_outgoing h he).mp hmem
    have hsame : dst = e.dst := by simpa [hedge] using hdst
    exact ⟨w, by rw [hedge, hsame]⟩
  · rintro ⟨w, hedge⟩
    have hmem : i ∈ p.outgoing e.src := (mem_outgoing h he).mpr ⟨e.dst, w, hedge⟩
    cases hfind : (p.outgoing e.src).find? fun i => (p.edges[i]?.map fun x => x.1.dst) == some e.dst
    with
    | none =>
      have hnot := List.find?_eq_none.mp hfind i hmem
      simp [hedge] at hnot
    | some j =>
      obtain ⟨dst, x, hj⟩ := (mem_outgoing h he).mp (List.mem_of_find?_eq_some hfind)
      have hdst := List.find?_some hfind
      have hsame : dst = e.dst := by simpa [hj] using hdst
      rw [hsame] at hj
      rw [hunique i j w x hedge hj]

theorem mem_cutEdges {cut : EdgeSet} {e : Edge} :
    e ∈ p.cutEdges cut ↔ ∃ i ∈ cut, ∃ w, p.edges[i]? = some (e, w) := by
  unfold cutEdges
  rw [AscSet.mem_ofList, List.mem_filterMap]
  constructor
  · rintro ⟨i, hi, hmap⟩
    obtain ⟨⟨x, w⟩, hedge, rfl⟩ := Option.map_eq_some_iff.mp hmap
    exact ⟨i, hi, w, hedge⟩
  · rintro ⟨i, hi, w, hedge⟩
    exact ⟨i, hi, by simp [hedge]⟩

section Witness

variable {stages : Array NodeSet}

theorem enter_lt {k : Nat} (hk : k < stages.size) (v : Node) : enter stages k v < stages.size := by
  unfold enter
  split
  · rename_i next hnext
    have hlt := (Array.getElem?_eq_some_iff.mp hnext).1
    split <;> omega
  · exact hk

theorem le_enter (stages : Array NodeSet) (k : Nat) (v : Node) : k ≤ enter stages k v := by
  unfold enter
  split
  · split <;> omega
  · exact Nat.le_refl k

theorem enter_eq {k : Nat} {s : NodeSet} {v : Node} (hs : stages[k + 1]? = some s) (hv : v ∈ s) :
    enter stages k v = k + 1 := by
  unfold enter
  rw [hs]
  exact if_pos hv

theorem div_state {size v k : Nat} (hv : v < size) : (v + size * k) / size = k := by
  rw [Nat.add_mul_div_left v k (by omega), Nat.div_eq_of_lt hv, Nat.zero_add]

theorem mod_state {size v k : Nat} (hv : v < size) : (v + size * k) % size = v := by
  rw [Nat.add_mul_mod_self_left, Nat.mod_eq_of_lt hv]

theorem state_lt {size v k n : Nat} (hv : v < size) (hk : k < n) : v + size * k < size * n := by
  have hle : size * (k + 1) ≤ size * n := Nat.mul_le_mul_left size hk
  rw [Nat.mul_add, Nat.mul_one] at hle
  omega

theorem mem_advance (h : p.WellFormed) (stages : Array NodeSet) {cut : EdgeSet} {u v : Nat}
    (k : Nat) (huv : p.Passable cut u v) :
    u < p.size ∧ v < p.size ∧
      ∃ i, (i, v + p.size * enter stages k v) ∈ p.advance stages cut (u + p.size * k) := by
  obtain ⟨i, w, hedge, hfree⟩ := huv
  obtain ⟨hu, hv⟩ := h.bound i _ w hedge
  refine ⟨hu, hv, i, ?_⟩
  unfold advance
  rw [div_state hu, mod_state hu]
  refine List.mem_filterMap.mpr ⟨i, (mem_outgoing h hu).mpr ⟨v, w, hedge⟩, ?_⟩
  rw [if_neg hfree, hedge]
  rfl

/-- The states that a search without a result has visited: they are closed under uncut edges and
none of them has visited all stages. -/
structure Stuck (p : LabelProblem) (stages : Array NodeSet) (cut : EdgeSet) (R : Nat → Prop) :
    Prop where
  step : ∀ u v k, k < stages.size → R (u + p.size * k) → p.Passable cut u v →
    R (v + p.size * enter stages k v)
  noGoal : ∀ v, v < p.size → ¬ R (v + p.size * (stages.size - 1))

theorem Stuck.reach_next {cut : EdgeSet} {R : Nat → Prop} (h : Stuck p stages cut R)
    {u v j k : Nat} {s t : NodeSet} (hu : u ∈ s) (hst : ∀ x ∈ s, x ∉ t)
    (ht : stages[j + 1]? = some t) (hjk : j ≤ k) (hk : k < stages.size)
    (hR : R (u + p.size * k)) (huv : ReflTransGen (p.Passable cut) u v) (hv : v ∈ t) :
    ∃ k', j + 1 ≤ k' ∧ k' < stages.size ∧ R (v + p.size * k') := by
  have hall : ∃ k', j ≤ k' ∧ k' < stages.size ∧ R (v + p.size * k') ∧ (v ∈ t → j + 1 ≤ k') := by
    clear hv
    induction huv with
    | refl => exact ⟨k, hjk, hk, hR, fun ht => absurd ht (hst u hu)⟩
    | @tail a b _ hab ih =>
      obtain ⟨k', hjk', hk', hRa, -⟩ := ih
      refine ⟨enter stages k' b, hjk'.trans (le_enter stages k' b), enter_lt hk' b,
        h.step a b k' hk' hRa hab, ?_⟩
      intro hb
      by_cases heq : k' = j
      · rw [heq, enter_eq ht hb]
      · have hle := le_enter stages k' b
        omega
  obtain ⟨k', -, hk', hRv, hnoted⟩ := hall
  exact ⟨k', hnoted hv, hk', hRv⟩

theorem Stuck.not_threads {cut : EdgeSet} {R : Nat → Prop} (h : Stuck p stages cut R)
    (hdisjoint : stages.toList.IsChain fun s t => ∀ v ∈ s, v ∉ t) {rest : List NodeSet}
    {u j k : Nat} {s : NodeSet} (hrest : stages.toList.drop j = s :: rest) (hu : u ∈ s)
    (hlt : u < p.size) (hbound : ∀ t ∈ stages.toList, ∀ v ∈ t, v < p.size) (hjk : j ≤ k)
    (hk : k < stages.size) (hR : R (u + p.size * k)) :
    ¬ Threads (p.Passable cut) (· ∈ ·) u rest := by
  induction rest generalizing u j k s with
  | nil =>
    intro _
    have hlength := congrArg List.length hrest
    rw [List.length_drop, Array.length_toList, List.length_singleton] at hlength
    have hkj : k = stages.size - 1 := by omega
    rw [hkj] at hR
    exact h.noGoal u hlt hR
  | cons t rest ih =>
    rintro ⟨v, huv, hv, hnext⟩
    have hdrop : stages.toList.drop (j + 1) = t :: rest := by
      rw [← List.drop_drop, hrest, List.drop_one, List.tail_cons]
    have ht : stages[j + 1]? = some t := by
      rw [← Array.getElem?_toList, ← List.head?_drop, hdrop, List.head?_cons]
    have hst : ∀ x ∈ s, x ∉ t := by
      have hchain := hdisjoint.drop j
      rw [hrest] at hchain
      exact (List.isChain_cons_cons.mp hchain).1
    obtain ⟨k', hjk', hk', hRv⟩ := h.reach_next hu hst ht hjk hk hR huv hv
    have htmem : t ∈ stages.toList := by
      have hmem : t ∈ stages.toList.drop (j + 1) := by
        rw [hdrop]
        exact List.mem_cons_self
      exact List.mem_of_mem_drop hmem
    exact ih hdrop hv (hbound t htmem v hv) hjk' hk' hRv hnext

theorem starts_valid (p : LabelProblem) {c : WaypointGroup} (hlong : 2 ≤ c.stages.length) :
    (p.starts c).Nodup ∧ (∀ v ∈ p.starts c, v < p.size * c.stages.length) ∧
      ∀ v ∈ p.starts c, (v / p.size == c.stages.length - 1) = false := by
  have hlt : ∀ v ∈ p.starts c, v < p.size := fun v hv =>
    of_decide_eq_true (List.mem_filter.mp hv).2
  refine ⟨(AscSet.nodup_toList _).filter _, fun v hv => ?_, fun v hv => ?_⟩
  · exact Nat.lt_of_lt_of_le (hlt v hv) (Nat.le_mul_of_pos_right _ (by omega))
  · rw [Nat.div_eq_of_lt (hlt v hv), beq_eq_false_iff_ne]
    omega

theorem groupWitness?_eq {c : WaypointGroup} (hlong : 2 ≤ c.stages.length) (cut : EdgeSet) :
    p.groupWitness? c cut = Search.shortest (p.advance c.stages.toArray cut)
      (fun state => state / p.size == c.stages.length - 1)
      (Array.replicate (p.size * c.stages.length) false) ((p.starts c).map fun v => (v, [])) := by
  obtain ⟨hnodup, hlt, hgoal⟩ := p.starts_valid hlong
  unfold groupWitness?
  simp only [List.size_toArray]
  rw [if_neg (by omega), Search.firstNoted?_eq_shortest hnodup hlt hgoal]

theorem groupWitness?_none (h : p.WellFormed) {c : WaypointGroup} (hc : c ∈ p.groups)
    {cut : EdgeSet} (hnone : p.groupWitness? c cut = none) :
    ¬ c.Satisfiable (p.Passable cut) := by
  have hwell := h.groups c hc
  have hlong := hwell.long
  rw [groupWitness?_eq hlong] at hnone
  obtain ⟨R, hstart, hstep, hgoal⟩ := Search.shortest_replicate_none hnone
  have hstuck : Stuck p c.stages.toArray cut R := by
    constructor
    · intro u v k hk hR huv
      obtain ⟨hu, hv, i, hmem⟩ := mem_advance h c.stages.toArray k huv
      refine hstep _ i _ hR hmem (state_lt hv ?_)
      simpa using enter_lt hk v
    · intro v hv hR
      have hnot := hgoal _ hR
      rw [div_state hv] at hnot
      simp at hnot
  rintro ⟨first, rest, u, hstages, hu, hthreads⟩
  have hfirst : c.sources? = some first := by
    unfold WaypointGroup.sources?
    rw [hstages]
    rfl
  have hlt : u < p.size := by
    refine hwell.bound first ?_ u hu
    rw [hstages]
    exact List.mem_cons_self
  have hpos : 0 < c.stages.length := by omega
  have hR : R (u + p.size * 0) := by
    rw [Nat.mul_zero, Nat.add_zero]
    apply hstart
    · rw [List.map_map, starts, hfirst, Option.getD_some]
      exact List.mem_map.mpr ⟨u, List.mem_filter.mpr ⟨hu, decide_eq_true hlt⟩, rfl⟩
    · have hbound := state_lt (k := 0) hlt hpos
      rwa [Nat.mul_zero, Nat.add_zero] at hbound
  exact hstuck.not_threads hwell.disjoint (j := 0) hstages hu hlt hwell.bound (Nat.le_refl 0)
    (by simpa using hpos) hR hthreads

theorem witness?_none (h : p.WellFormed) {cut : EdgeSet} (hnone : p.witness? cut = none) :
    ∀ c ∈ p.groups, ¬ c.Satisfiable (p.Passable cut) := by
  intro c hc
  exact groupWitness?_none h hc (List.findSome?_eq_none_iff.mp hnone c hc)

end Witness

section Relevance

variable {graph : Digraph} {groups : List WaypointGroup}

theorem getElem?_encode {i : Nat} {e : Edge} {w : Nat} :
    (encode graph groups).edges[i]? = some (e, w) ↔
      (relevantEdges graph (collapse groups))[i]? = some (e, w) := by
  simp [encode]

theorem weight_of_encode (hg : graph.Consistent) {i : Nat} {e : Edge} {w : Nat}
    (h : (encode graph groups).edges[i]? = some (e, w)) :
    0 < w ∧ graph.weight e.src e.dst = w := by
  have hmem := List.mem_of_getElem? (getElem?_encode.mp h)
  exact (Digraph.mem_edges_iff hg).mp (List.mem_filter.mp hmem).1

/-- A walk that avoids the cut edges and visits the stages of a collapsed group uses encoded edges
only. -/
theorem satisfiable_passable (hg : graph.Consistent) (hgroups : ∀ g ∈ groups, g.WellPosed graph.size)
    {cut : EdgeSet} {c : WaypointGroup} (hc : c ∈ collapse groups)
    (h : c.Satisfiable (graph.Uncut (· ∈ (encode graph groups).cutEdges cut))) :
    c.Satisfiable ((encode graph groups).Passable cut) := by
  have hwell := wellPosed_of_mem_collapse hgroups hc
  obtain ⟨first, front, last, hstages, hfirst, hlast⟩ := exists_ends hwell
  obtain ⟨first', rest, u, hstages', hu, hthreads⟩ := h
  rw [hstages] at hstages'
  cases hstages'
  have hbound := hwell.bound
  rw [hstages] at hbound
  -- the two marks that make an edge relevant: reached from a first stage, reaching a last stage
  let starts := (collapse groups).flatMap fun g => (g.sources?.getD .empty).toList
  let ends := (collapse groups).flatMap fun g => (g.sinks?.getD .empty).toList
  have hbegun : ∃ s ∈ starts, s < graph.size ∧ ReflTransGen graph.Joins s u := by
    refine ⟨u, List.mem_flatMap.mpr ⟨c, hc, ?_⟩, hbound first List.mem_cons_self u hu,
      ReflTransGen.refl⟩
    rw [hfirst]
    exact hu
  obtain ⟨-, hwithin⟩ := Threads.within
    (fun a => ∃ s ∈ starts, s < graph.size ∧ ReflTransGen graph.Joins s a)
    (fun a b ⟨s, hs, hlt, hreach⟩ hab => ⟨s, hs, hlt, hreach.tail hab.1⟩) hbegun hthreads
  refine ⟨first, front ++ [last], u, hstages, hu, hwithin.mono ?_⟩
  rintro a b ⟨⟨hjoin, huncut⟩, hstart, w, hw, hreach⟩
  have hforward : (graph.reachableFrom starts).has a = true :=
    (Digraph.has_reachableFrom hg).mpr hstart
  have hbackward : (graph.reaching ends).has b = true := by
    refine (Digraph.has_reaching hg).mpr ⟨w, List.mem_flatMap.mpr ⟨c, hc, ?_⟩, ?_, ?_⟩
    · rw [hlast]
      exact hw
    · exact hbound last (by simp) w hw
    · exact ReflTransGen.mono (fun _ _ hxy => hxy.1) _ _ hreach
  have hrelevant : ((⟨a, b⟩ : Edge), graph.weight a b) ∈ relevantEdges graph (collapse groups) := by
    refine List.mem_filter.mpr ⟨(Digraph.mem_edges_iff hg).mpr ⟨hjoin, rfl⟩, ?_⟩
    simp only [Bool.and_eq_true]
    exact ⟨hforward, hbackward⟩
  obtain ⟨i, hi⟩ := List.mem_iff_getElem?.mp hrelevant
  refine ⟨i, graph.weight a b, getElem?_encode.mpr hi, ?_⟩
  intro hmem
  exact huncut (mem_cutEdges.mpr ⟨i, hmem, graph.weight a b, getElem?_encode.mpr hi⟩)

theorem uncut_of_passable (hg : graph.Consistent) (hgroups : ∀ g ∈ groups, g.WellPosed graph.size)
    {cut : EdgeSet} {u v : Node} (h : (encode graph groups).Passable cut u v) :
    graph.Uncut (· ∈ (encode graph groups).cutEdges cut) u v := by
  obtain ⟨i, w, hedge, hfree⟩ := h
  have hp := encode_wellFormed hg hgroups
  obtain ⟨hpos, hw⟩ := weight_of_encode hg hedge
  refine ⟨?_, ?_⟩
  · unfold Digraph.Joins
    rw [hw]
    exact hpos
  · intro hmem
    obtain ⟨j, hj, x, hedge'⟩ := mem_cutEdges.mp hmem
    have hu := (hp.bound i _ w hedge).1
    have hi := (edgeIndex?_eq_some_iff hp hu).mpr ⟨w, hedge⟩
    have hj' := (edgeIndex?_eq_some_iff hp hu).mpr ⟨x, hedge'⟩
    rw [hi] at hj'
    cases hj'
    exact hfree hj

/-- A set of edge numbers leaves no walk for the collapsed groups exactly when its edges leave none
for the groups. -/
theorem separates_iff (hg : graph.Consistent) (hgroups : ∀ g ∈ groups, g.WellPosed graph.size)
    {cut : EdgeSet} :
    (∀ c ∈ collapse groups, ¬ c.Satisfiable ((encode graph groups).Passable cut)) ↔
      ∀ g ∈ groups, ¬ g.Satisfiable (graph.Uncut (· ∈ (encode graph groups).cutEdges cut)) := by
  constructor
  · intro h g hmem hsatisfiable
    obtain ⟨c, hc, hcollapsed⟩ :=
      (exists_satisfiable_collapse hgroups).mpr ⟨g, hmem, hsatisfiable⟩
    exact h c hc (satisfiable_passable hg hgroups hc hcollapsed)
  · intro h c hc hsatisfiable
    obtain ⟨g, hmem, horiginal⟩ := (exists_satisfiable_collapse hgroups).mp ⟨c, hc, hsatisfiable⟩
    exact h g hmem (horiginal.mono fun u v huv => uncut_of_passable hg hgroups huv)

end Relevance

end LabelProblem

end SpecFence
