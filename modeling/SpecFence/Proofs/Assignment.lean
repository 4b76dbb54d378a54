import SpecFence.Proofs.GroupCut

/-!
# Passes over assignments

An assignment gives each group its part of the cut.  The working state of a pass is determined by
its assignment, and recutting a group changes the assignment at that group alone: the group gets its
cut on what the other groups leave of the graph.  So a pass is a sweep over assignments, and the
passes converge exactly when the sweeps run through different assignments to one that a sweep
leaves as it is.  There every group has its own cut on what the others leave.
-/

set_option autoImplicit false

namespace SpecFence

open Relation

abbrev Assignment := WaypointGroup → Cut

namespace Assignment

def empty : Assignment := fun _ => .empty

def remaining (g : Digraph) (groups : List WaypointGroup) (part : Assignment)
    (group : WaypointGroup) : Digraph :=
  (Overlay.without g ((groups.filter (· ≠ group)).flatMap fun x => (part x).toList)).digraph

def sweep (g : Digraph) (groups : List WaypointGroup) (part : Assignment) :
    List WaypointGroup → Except CutError Assignment
  | [] => .ok part
  | group :: rest => do
    let cut ← minCutGroup (part.remaining g groups group) group false
    sweep g groups (Function.update part group cut) rest

def Within (groups : List WaypointGroup) (part : Assignment) : Prop :=
  ∀ group, group ∉ groups → part group = .empty

variable {g : Digraph} {groups rest : List WaypointGroup} {part next : Assignment}
  {group : WaypointGroup}

section Remaining

theorem remaining_consistent (hg : g.Consistent) (groups : List WaypointGroup) (part : Assignment)
    (group : WaypointGroup) : (part.remaining g groups group).Consistent :=
  Overlay.without_consistent hg _

theorem size_remaining (g : Digraph) (groups : List WaypointGroup) (part : Assignment)
    (group : WaypointGroup) : (part.remaining g groups group).size = g.size := by
  unfold remaining
  change (Overlay.without g _).base.size = g.size
  rw [Overlay.base_without]

/-- Another group holds an edge. -/
def HeldByOther (groups : List WaypointGroup) (part : Assignment) (group : WaypointGroup)
    (e : Edge) : Prop :=
  ∃ x ∈ groups, x ≠ group ∧ e ∈ part x

theorem mem_heldByOthers {e : Edge} :
    e ∈ (groups.filter (· ≠ group)).flatMap (fun x => (part x).toList) ↔
      HeldByOther groups part group e := by
  unfold HeldByOther
  rw [List.mem_flatMap]
  refine exists_congr fun x => ?_
  rw [List.mem_filter, decide_eq_true_eq, and_assoc]
  exact Iff.rfl

theorem weight_remaining_of_held {u v : Node} (h : HeldByOther groups part group ⟨u, v⟩) :
    (part.remaining g groups group).weight u v = 0 :=
  (Overlay.weight_without g _ u v).trans (if_pos (mem_heldByOthers.mpr h))

theorem weight_remaining_of_free {u v : Node} (h : ¬ HeldByOther groups part group ⟨u, v⟩) :
    (part.remaining g groups group).weight u v = g.weight u v :=
  (Overlay.weight_without g _ u v).trans (if_neg fun hmem => h (mem_heldByOthers.mp hmem))

theorem weight_remaining (g : Digraph) (groups : List WaypointGroup) (part : Assignment)
    (group : WaypointGroup) (u v : Node) :
    (part.remaining g groups group).weight u v = 0 ∨
      (part.remaining g groups group).weight u v = g.weight u v := by
  by_cases h : HeldByOther groups part group ⟨u, v⟩
  · exact Or.inl (weight_remaining_of_held h)
  · exact Or.inr (weight_remaining_of_free h)

theorem joins_remaining {u v : Node} (h : (part.remaining g groups group).Joins u v) :
    g.Joins u v ∧ ¬ HeldByOther groups part group ⟨u, v⟩ := by
  unfold Digraph.Joins at h ⊢
  by_cases hheld : HeldByOther groups part group ⟨u, v⟩
  · rw [weight_remaining_of_held hheld] at h
    exact absurd h (Nat.lt_irrefl 0)
  · rw [weight_remaining_of_free hheld] at h
    exact ⟨h, hheld⟩

end Remaining

section Sweep

theorem Within.update (h : part.Within groups) (hgroup : group ∈ groups) (cut : Cut) :
    Within groups (Function.update part group cut) := by
  intro x hx
  have hne : x ≠ group := by
    rintro rfl
    exact hx hgroup
  rw [Function.update_of_ne hne]
  exact h x hx

theorem sweep_cons_eq_ok_iff :
    sweep g groups part (group :: rest) = .ok next ↔
      ∃ cut, minCutGroup (part.remaining g groups group) group false = .ok cut ∧
        sweep g groups (Function.update part group cut) rest = .ok next :=
  Except.bind_eq_ok_iff

theorem sweep_of_not_mem (h : sweep g groups part rest = .ok next) (hgroup : group ∉ rest) :
    next group = part group := by
  induction rest generalizing part with
  | nil =>
    cases h
    rfl
  | cons x rest ih =>
    obtain ⟨cut, -, hrest⟩ := sweep_cons_eq_ok_iff.mp h
    rw [List.mem_cons, not_or] at hgroup
    rw [ih hrest hgroup.2, Function.update_of_ne hgroup.1]

theorem Within.sweep (h : part.Within groups) (hsub : ∀ x ∈ rest, x ∈ groups)
    (hsweep : sweep g groups part rest = .ok next) : next.Within groups := by
  intro group hgroup
  rw [sweep_of_not_mem hsweep fun hmem => hgroup (hsub group hmem)]
  exact h group hgroup

/-- When a sweep changes nothing, each group that it came to has its own cut on what the others
leave. -/
theorem minCutGroup_of_sweep_eq (hnodup : rest.Nodup) (h : sweep g groups part rest = .ok part) :
    ∀ x ∈ rest, minCutGroup (part.remaining g groups x) x false = .ok (part x) := by
  induction rest with
  | nil => simp
  | cons x rest ih =>
    obtain ⟨cut, hcut, hrest⟩ := sweep_cons_eq_ok_iff.mp h
    rw [List.nodup_cons] at hnodup
    have hsame : cut = part x := by
      have hkept := sweep_of_not_mem hrest hnodup.1
      rw [Function.update_self] at hkept
      exact hkept.symm
    rw [hsame, Function.update_eq_self] at hrest
    intro y hy
    rcases List.mem_cons.mp hy with rfl | hy
    · rw [← hsame]
      exact hcut
    · exact ih hnodup.2 hrest y hy

end Sweep

end Assignment

namespace CutState

variable {g : Digraph} {groups rest : List WaypointGroup} {s : CutState} {part : Assignment}
  {group : WaypointGroup} {i : Nat}

structure Assigned (g : Digraph) (groups : List WaypointGroup) (s : CutState) (part : Assignment) :
    Prop extends Valid g s where
  parts : s.parts = groups.map part
  within : part.Within groups

theorem Assigned.start (g : Digraph) (groups : List WaypointGroup) :
    Assigned g groups (start g groups.length) .empty := by
  refine ⟨Valid.start g groups.length, ?_, fun _ _ => rfl⟩
  change List.replicate groups.length (.empty : Cut) = groups.map fun _ => .empty
  rw [List.map_const']

theorem set_part (hnodup : groups.Nodup) (hi : groups[i]? = some group) (part : Assignment)
    (cut : Cut) : (groups.map part).set i cut = groups.map (Function.update part group cut) := by
  obtain ⟨hlt, rfl⟩ := List.getElem?_eq_some_iff.mp hi
  rw [hnodup.map_update, if_pos (List.getElem_mem hlt), hnodup.idxOf_getElem]

theorem Assigned.part_eq (h : Assigned g groups s part) (hi : groups[i]? = some group) :
    s.part i = part group := by
  unfold CutState.part
  rw [h.parts, List.getElem?_map, hi]
  rfl

theorem Assigned.lt (h : Assigned g groups s part) (hi : groups[i]? = some group) :
    i < s.parts.length := by
  rw [h.parts, List.length_map]
  exact (List.getElem?_eq_some_iff.mp hi).1

theorem Assigned.release (h : Assigned g groups s part) (hnodup : groups.Nodup)
    (hi : groups[i]? = some group) :
    Assigned g groups (s.release i) (Function.update part group .empty) := by
  obtain ⟨hvalid, hparts⟩ := h.toValid.release (h.lt hi)
  refine ⟨hvalid, ?_, h.within.update (List.mem_of_getElem? hi) _⟩
  rw [hparts, h.parts, set_part hnodup hi]

theorem Assigned.free_eq (h : Assigned g groups s part) (hg : g.Consistent)
    (hnodup : groups.Nodup) (hi : groups[i]? = some group) :
    (s.release i).overlay.digraph = part.remaining g groups group := by
  have hfree := h.release hnodup hi
  have hheld : ∀ e, (s.release i).held e = 0 ↔ ¬ part.HeldByOther groups group e := by
    intro e
    rw [hfree.balanced, List.countP_eq_zero, hfree.parts, List.forall_mem_map]
    unfold Assignment.HeldByOther
    simp only [decide_eq_true_eq, not_exists, not_and]
    refine forall₂_congr fun x _ => ?_
    by_cases hx : x = group
    · rw [hx, Function.update_self]
      exact iff_of_true (AscSet.not_mem_empty e) fun hne => absurd rfl hne
    · rw [Function.update_of_ne hx]
      exact ⟨fun hout _ => hout, fun hout => hout hx⟩
  refine (hfree.toTidy.consistent hg).ext
    (Assignment.remaining_consistent hg groups part group) ?_ ?_
  · rw [hfree.toTidy.size, Assignment.size_remaining]
  · intro u v
    refine (hfree.toTidy.weight u v).trans ?_
    by_cases hother : part.HeldByOther groups group ⟨u, v⟩
    · rw [if_neg fun hzero => (hheld _).mp hzero hother,
        Assignment.weight_remaining_of_held hother]
    · rw [if_pos ((hheld _).mpr hother), Assignment.weight_remaining_of_free hother]

theorem Assigned.recut (h : Assigned g groups s part) (hg : g.Consistent) (hnodup : groups.Nodup)
    (hwell : group.WellPosed g.size) (hi : groups[i]? = some group) :
    (∃ e, minCutGroup (part.remaining g groups group) group false = .error e ∧
      (s.recut false i group).result = .error e) ∨
    ∃ cut t, minCutGroup (part.remaining g groups group) group false = .ok cut ∧
      (s.recut false i group).result = .ok (t, cut != part group) ∧
      Assigned g groups t (Function.update part group cut) := by
  have hfree := h.release hnodup hi
  rw [← h.free_eq hg hnodup hi]
  cases hcut : minCutGroup (s.release i).overlay.digraph group false with
  | error e => exact Or.inl ⟨e, rfl, by rw [recut_of_error hcut]⟩
  | ok cut =>
    refine Or.inr ⟨cut, (s.release i).claim i cut, rfl, ?_, ?_⟩
    · rw [recut_of_ok hcut, h.part_eq hi]
    · have hsep := hfree.toValid.cut_separates hg hwell hcut
      obtain ⟨hvalid, hparts⟩ := hfree.toValid.claim (hfree.lt hi) hsep.finite
      refine ⟨hvalid, ?_, h.within.update (List.mem_of_getElem? hi) cut⟩
      have hunion : (AscSet.empty : Cut) ∪ cut = cut := by
        ext e
        rw [AscSet.mem_union]
        simp
      rw [hparts, hfree.part_eq hi, hfree.parts, Function.update_self, hunion, set_part hnodup hi,
        Function.update_idem]

theorem Assigned.pass (h : Assigned g groups s part) (hg : g.Consistent) (hnodup : groups.Nodup)
    (hwell : ∀ x ∈ groups, x.WellPosed g.size) (hrest : groups.drop i = rest) :
    (∃ e, part.sweep g groups rest = .error e ∧ (s.pass false i rest).result = .error e) ∨
    ∃ next t changed, part.sweep g groups rest = .ok next ∧
      (s.pass false i rest).result = .ok (t, changed) ∧ Assigned g groups t next ∧
      (changed = false ↔ next = part) := by
  induction rest generalizing s part i with
  | nil => exact Or.inr ⟨part, s, false, rfl, rfl, h, by simp⟩
  | cons group rest ih =>
    have hi : groups[i]? = some group := by
      rw [← List.head?_drop, hrest]
      rfl
    have hdrop : groups.drop (i + 1) = rest := by
      rw [← List.tail_drop, hrest]
      rfl
    have hnot : group ∉ rest := by
      have hsuffix : (group :: rest).Nodup := hrest ▸ hnodup.sublist (List.drop_sublist i groups)
      exact (List.nodup_cons.mp hsuffix).1
    rw [pass_result_cons, Assignment.sweep]
    rcases h.recut hg hnodup (hwell group (List.mem_of_getElem? hi)) hi with
      ⟨e, hcut, hrecut⟩ | ⟨cut, t, hcut, hrecut, hassigned⟩
    · rw [hcut, hrecut]
      exact Or.inl ⟨e, rfl, rfl⟩
    · rw [hcut, hrecut]
      change (∃ e, Assignment.sweep g groups _ rest = _ ∧ ((t.pass false (i + 1) rest).result >>= _) = _) ∨
        ∃ next u changed, Assignment.sweep g groups _ rest = _ ∧
          ((t.pass false (i + 1) rest).result >>= _) = _ ∧ _
      rcases ih hassigned hdrop with
        ⟨e, hsweep, hpass⟩ | ⟨next, u, changed, hsweep, hpass, hu, hsame⟩
      · rw [hsweep, hpass]
        exact Or.inl ⟨e, rfl, rfl⟩
      · rw [hsweep, hpass]
        refine Or.inr ⟨next, u, (cut != part group) || changed, rfl, rfl, hu, ?_⟩
        have hgroup : next group = cut := by
          rw [Assignment.sweep_of_not_mem hsweep hnot, Function.update_self]
        rw [Bool.or_eq_false_iff, hsame, bne_eq_false_iff_eq]
        constructor
        · rintro ⟨rfl, rfl⟩
          exact Function.update_eq_self group part
        · rintro rfl
          rw [← hgroup]
          exact ⟨rfl, (Function.update_eq_self group next).symm⟩

theorem Assigned.pass_all (h : Assigned g groups s part) (hg : g.Consistent)
    (hnodup : groups.Nodup) (hwell : ∀ x ∈ groups, x.WellPosed g.size) :
    (∃ e, part.sweep g groups groups = .error e ∧ (s.pass false 0 groups).result = .error e) ∨
    ∃ next t changed, part.sweep g groups groups = .ok next ∧
      (s.pass false 0 groups).result = .ok (t, changed) ∧ Assigned g groups t next ∧
      (changed = false ↔ next = part) :=
  h.pass hg hnodup hwell List.drop_zero

end CutState

end SpecFence
