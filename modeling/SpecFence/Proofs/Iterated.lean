import SpecFence.Cut.Iterated
import SpecFence.Proofs.Flow
import SpecFence.Proofs.Overlay

/-!
# Cutting in turn separates every group

The state of the passes is governed by one invariant: the graph is without exactly the edges that
some group holds, and an edge is held once for each part that it is in.  Each group is separated
when it is cut, a pass that changes no part leaves all of them separated, and the last round only
takes edges away.
-/

set_option autoImplicit false

namespace SpecFence

namespace CutState

variable {g : Digraph} {s : CutState}

def held (s : CutState) (e : Edge) : Nat := (s.owners.get? e).getD 0

structure Tidy (g : Digraph) (s : CutState) : Prop where
  base : s.overlay.base = g
  owned : ∀ e n, s.owners.get? e = some n → 0 < n
  written : ∀ e, s.overlay.written.get? e = if s.held e = 0 then none else some 0

/-- An edge is held once for each part that it is in, and all parts have positive finite edges. -/
structure Valid (g : Digraph) (s : CutState) : Prop extends Tidy g s where
  balanced : ∀ e, s.held e = s.parts.countP fun part => decide (e ∈ part)
  finite : ∀ part ∈ s.parts, ∀ e ∈ part,
    0 < g.weight e.src e.dst ∧ g.weight e.src e.dst < Weight.infinite

namespace Tidy

theorem get?_eq_none (h : Tidy g s) {e : Edge} (he : s.held e = 0) : s.owners.get? e = none := by
  unfold held at he
  cases hget : s.owners.get? e with
  | none => rfl
  | some n =>
    have hpos := h.owned e n hget
    rw [hget, Option.getD_some] at he
    omega

theorem weight (h : Tidy g s) (u v : Node) :
    s.overlay.weight u v = if s.held ⟨u, v⟩ = 0 then g.weight u v else 0 := by
  unfold Overlay.weight
  rw [h.written, h.base]
  by_cases hheld : s.held ⟨u, v⟩ = 0
  · simp [hheld]
  · simp [hheld]

theorem inBounds (h : Tidy g s) : s.overlay.InBounds := by
  intro e w hw hne
  rw [h.written] at hw
  split at hw
  · cases hw
  · cases hw
    exact absurd rfl hne

theorem consistent (h : Tidy g s) (hg : g.Consistent) : s.overlay.digraph.Consistent := by
  refine Overlay.digraph_consistent ?_ h.inBounds
  rw [h.base]
  exact hg

theorem size (h : Tidy g s) : s.overlay.digraph.size = g.size := by
  change s.overlay.base.size = g.size
  rw [h.base]

theorem joins_iff (h : Tidy g s) {u v : Node} :
    s.overlay.digraph.Joins u v ↔ g.Joins u v ∧ s.held ⟨u, v⟩ = 0 := by
  unfold Digraph.Joins
  change 0 < s.overlay.weight u v ↔ _
  rw [h.weight]
  split
  · rename_i hheld
    simp [hheld]
  · rename_i hheld
    simp [hheld]

end Tidy

section Edges

theorem held_of_get? {e : Edge} {n : Nat} (h : s.owners.get? e = some n) : s.held e = n := by
  unfold held
  rw [h, Option.getD_some]

theorem held_insert (s : CutState) (o : Overlay) (e : Edge) (n : Nat) (x : Edge) :
    ({ s with owners := s.owners.insert e n, overlay := o } : CutState).held x =
      if x = e then n else s.held x := by
  unfold held
  simp only [AscMap.get?_insert]
  split <;> rfl

theorem held_erase (s : CutState) (o : Overlay) (e x : Edge) :
    ({ s with owners := s.owners.erase e, overlay := o } : CutState).held x =
      if x = e then 0 else s.held x := by
  unfold held
  simp only [AscMap.get?_erase]
  split <;> rfl

theorem Tidy.recount (h : Tidy g s) {e : Edge} {n : Nat} (he : s.held e ≠ 0) (hn : 0 < n) :
    Tidy g { s with owners := s.owners.insert e n } := by
  refine ⟨h.base, ?_, ?_⟩
  · intro x m hm
    simp only [AscMap.get?_insert] at hm
    split at hm
    · cases hm
      exact hn
    · exact h.owned x m hm
  · intro x
    rw [held_insert s s.overlay, h.written]
    by_cases hx : x = e
    · rw [if_pos hx, hx, if_neg he, if_neg (Nat.ne_of_gt hn)]
    · rw [if_neg hx]

theorem Tidy.takeOut (h : Tidy g s) (e : Edge) :
    Tidy g { s with owners := s.owners.insert e 1, overlay := s.overlay.remove e } := by
  refine ⟨h.base, ?_, ?_⟩
  · intro x m hm
    simp only [AscMap.get?_insert] at hm
    split at hm
    · cases hm
      exact Nat.one_pos
    · exact h.owned x m hm
  · intro x
    rw [held_insert]
    simp only [Overlay.remove, Overlay.put, AscMap.get?_insert]
    by_cases hx : x = e
    · simp [hx]
    · simp [hx, h.written x]

theorem Tidy.putBack (h : Tidy g s) (e : Edge) :
    Tidy g { s with owners := s.owners.erase e, overlay := s.overlay.restore e } := by
  refine ⟨h.base, ?_, ?_⟩
  · intro x m hm
    simp only [AscMap.get?_erase] at hm
    split at hm
    · cases hm
    · exact h.owned x m hm
  · intro x
    rw [held_erase]
    simp only [Overlay.restore, AscMap.get?_erase]
    by_cases hx : x = e
    · simp [hx]
    · simp [hx, h.written x]

theorem Tidy.releaseEdge (h : Tidy g s) (e : Edge) :
    Tidy g (s.releaseEdge e) ∧ (s.releaseEdge e).parts = s.parts ∧
      ∀ x, (s.releaseEdge e).held x = if x = e then s.held e - 1 else s.held x := by
  unfold CutState.releaseEdge
  cases hget : s.owners.get? e with
  | none =>
    have hzero : s.held e = 0 := by
      unfold held
      rw [hget]
      rfl
    refine ⟨h, rfl, fun x => ?_⟩
    change s.held x = _
    by_cases hx : x = e
    · rw [if_pos hx, hx, hzero]
    · rw [if_neg hx]
  | some n =>
    have hpos := h.owned e n hget
    have hn := held_of_get? hget
    simp only
    split
    · refine ⟨h.putBack e, rfl, ?_⟩
      intro x
      rw [held_erase, hn]
      split <;> omega
    · refine ⟨h.recount (by omega) (by omega), rfl, ?_⟩
      intro x
      rw [held_insert s s.overlay, hn]

theorem Tidy.claimEdge (h : Tidy g s) (e : Edge) :
    Tidy g (s.claimEdge e) ∧ (s.claimEdge e).parts = s.parts ∧
      ∀ x, (s.claimEdge e).held x = if x = e then s.held e + 1 else s.held x := by
  unfold CutState.claimEdge
  cases hget : s.owners.get? e with
  | none =>
    have hzero : s.held e = 0 := by
      unfold held
      rw [hget]
      rfl
    refine ⟨h.takeOut e, rfl, ?_⟩
    intro x
    rw [held_insert, hzero]
  | some n =>
    have hpos := h.owned e n hget
    have hn := held_of_get? hget
    refine ⟨h.recount (by omega) (Nat.succ_pos n), rfl, ?_⟩
    intro x
    rw [held_insert s s.overlay, hn]

theorem foldl_releaseEdge (edges : List Edge) (hnodup : edges.Nodup) (h : Tidy g s) :
    Tidy g (edges.foldl CutState.releaseEdge s) ∧
      (edges.foldl CutState.releaseEdge s).parts = s.parts ∧
      ∀ x, (edges.foldl CutState.releaseEdge s).held x =
        if x ∈ edges then s.held x - 1 else s.held x := by
  induction edges generalizing s with
  | nil => exact ⟨h, rfl, fun x => by simp⟩
  | cons e edges ih =>
    rw [List.nodup_cons] at hnodup
    obtain ⟨hstep, hsame, hone⟩ := h.releaseEdge e
    obtain ⟨htidy, hparts, hheld⟩ := ih hnodup.2 hstep
    rw [List.foldl_cons]
    refine ⟨htidy, hparts.trans hsame, ?_⟩
    intro x
    rw [hheld, hone]
    by_cases hx : x = e
    · subst hx
      simp [hnodup.1]
    · simp [hx]

theorem foldl_claimEdge (edges : List Edge) (hnodup : edges.Nodup) (h : Tidy g s) :
    Tidy g (edges.foldl CutState.claimEdge s) ∧
      (edges.foldl CutState.claimEdge s).parts = s.parts ∧
      ∀ x, (edges.foldl CutState.claimEdge s).held x =
        if x ∈ edges then s.held x + 1 else s.held x := by
  induction edges generalizing s with
  | nil => exact ⟨h, rfl, fun x => by simp⟩
  | cons e edges ih =>
    rw [List.nodup_cons] at hnodup
    obtain ⟨hstep, hsame, hone⟩ := h.claimEdge e
    obtain ⟨htidy, hparts, hheld⟩ := ih hnodup.2 hstep
    rw [List.foldl_cons]
    refine ⟨htidy, hparts.trans hsame, ?_⟩
    intro x
    rw [hheld, hone]
    by_cases hx : x = e
    · subst hx
      simp [hnodup.1]
    · simp [hx]

end Edges

section Groups

theorem Valid.start (g : Digraph) (groups : Nat) : Valid g (start g groups) := by
  refine ⟨⟨rfl, ?_, ?_⟩, ?_, ?_⟩
  · intro e n h
    cases h
  · intro e
    rfl
  · intro e
    change 0 = _
    symm
    rw [List.countP_eq_zero]
    intro part hpart
    rw [(List.mem_replicate.mp hpart).2]
    simp
  · intro part hpart e he
    rw [(List.mem_replicate.mp hpart).2] at he
    exact absurd he (AscSet.not_mem_empty e)

theorem part_eq {i : Nat} (hi : i < s.parts.length) : s.part i = s.parts[i] := by
  unfold part
  rw [List.getElem?_eq_getElem hi, Option.getD_some]

theorem Valid.held_pos (h : Valid g s) {part : Cut} {e : Edge} (hpart : part ∈ s.parts)
    (he : e ∈ part) : 0 < s.held e := by
  rw [h.balanced, List.countP_pos_iff]
  exact ⟨part, hpart, by simpa using he⟩

theorem Valid.joins_iff (h : Valid g s) {u v : Node} :
    s.overlay.digraph.Joins u v ↔ g.Joins u v ∧ ∀ part ∈ s.parts, (⟨u, v⟩ : Edge) ∉ part := by
  rw [h.toTidy.joins_iff, h.balanced, List.countP_eq_zero]
  simp

theorem Valid.release (h : Valid g s) {i : Nat} (hi : i < s.parts.length) :
    Valid g (s.release i) ∧ (s.release i).parts = s.parts.set i .empty := by
  obtain ⟨htidy, hparts, hheld⟩ := foldl_releaseEdge (s.part i).toList (AscSet.nodup_toList _) h.toTidy
  have hset : (s.release i).parts = s.parts.set i .empty := by
    unfold CutState.release
    simp only
    rw [hparts]
  refine ⟨⟨⟨htidy.base, htidy.owned, htidy.written⟩, ?_, ?_⟩, hset⟩
  · intro e
    change ((s.part i).toList.foldl CutState.releaseEdge s).held e = _
    rw [hset, List.countP_set hi, hheld, h.balanced, part_eq hi]
    by_cases he : e ∈ s.parts[i]
    · have hmem : e ∈ s.parts[i].toList := he
      simp [he, hmem]
    · have hmem : e ∉ s.parts[i].toList := he
      simp [he, hmem]
  · intro part hpart e he
    rw [hset] at hpart
    rcases List.mem_or_eq_of_mem_set hpart with hold | hempty
    · exact h.finite part hold e he
    · rw [hempty] at he
      exact absurd he (AscSet.not_mem_empty e)

theorem Valid.claim (h : Valid g s) {i : Nat} (hi : i < s.parts.length) {cut : Cut}
    (hcut : ∀ e ∈ cut, 0 < s.overlay.weight e.src e.dst ∧
      s.overlay.weight e.src e.dst < Weight.infinite) :
    Valid g (s.claim i cut) ∧ (s.claim i cut).parts = s.parts.set i (s.part i ∪ cut) := by
  obtain ⟨htidy, hparts, hheld⟩ := foldl_claimEdge cut.toList (AscSet.nodup_toList _) h.toTidy
  have hset : (s.claim i cut).parts = s.parts.set i (s.part i ∪ cut) := by
    unfold CutState.claim part
    simp only
    rw [hparts]
  have hfree : ∀ e ∈ cut, s.held e = 0 ∧ s.overlay.weight e.src e.dst = g.weight e.src e.dst := by
    intro e he
    have hpos := (hcut e he).1
    rw [h.toTidy.weight] at hpos ⊢
    by_cases hzero : s.held ⟨e.src, e.dst⟩ = 0
    · rw [if_pos hzero]
      exact ⟨hzero, rfl⟩
    · rw [if_neg hzero] at hpos
      exact absurd hpos (Nat.lt_irrefl 0)
  refine ⟨⟨⟨htidy.base, htidy.owned, htidy.written⟩, ?_, ?_⟩, hset⟩
  · intro e
    change (cut.toList.foldl CutState.claimEdge s).held e = _
    rw [hset, List.countP_set hi, hheld, h.balanced, part_eq hi]
    by_cases he : e ∈ cut
    · have hmem : e ∈ cut.toList := he
      -- a claimed edge was free, so it is in no part yet
      have hnone : e ∉ s.parts[i] := by
        intro hold
        have hpos := h.held_pos (List.getElem_mem hi) hold
        rw [(hfree e he).1] at hpos
        exact Nat.lt_irrefl 0 hpos
      simp [he, hmem, hnone]
    · have hmem : e ∉ cut.toList := he
      by_cases hold : e ∈ s.parts[i]
      · have hpos := h.held_pos (List.getElem_mem hi) hold
        rw [h.balanced] at hpos
        simp only [hmem, if_false, hold, decide_true, if_true, AscSet.mem_union, true_or]
        omega
      · simp [he, hmem, hold]
  · intro part hpart e he
    rw [hset] at hpart
    rcases List.mem_or_eq_of_mem_set hpart with hold | hnew
    · exact h.finite part hold e he
    · rw [hnew, AscSet.mem_union, part_eq hi] at he
      rcases he with hold | hclaimed
      · exact h.finite _ (List.getElem_mem hi) e hold
      · rw [← (hfree e hclaimed).2]
        exact hcut e hclaimed

end Groups

section Results

variable {cancelled : Bool} {i : Nat} {group : WaypointGroup} {rest groups : List WaypointGroup}
  {t : CutState} {changed : Bool} {cut : Cut} {e : CutError}

theorem recut_cancelled : s.recut true i group = ⟨.error .cancelled, []⟩ := rfl

theorem recut_of_ok (h : minCutGroup (s.release i).overlay.digraph group false = .ok cut) :
    s.recut false i group = ⟨.ok ((s.release i).claim i cut, cut != s.part i),
      [.reached (s.release i), .posed (s.release i) group,
        .reached ((s.release i).claim i cut)]⟩ := by
  have hfree : (s.release i).reach.result = .ok (s.release i) := rfl
  have hcut : ((s.release i).cutOf false group).result = .ok cut := h
  change ((s.release i).reach >>= fun free => free.cutOf false group >>= _) = _
  rw [Recorded.bind_eq_of_ok hfree, Recorded.bind_eq_of_ok hcut]
  rfl

theorem recut_of_error (h : minCutGroup (s.release i).overlay.digraph group false = .error e) :
    s.recut false i group = ⟨.error e, [.reached (s.release i), .posed (s.release i) group]⟩ := by
  have hfree : (s.release i).reach.result = .ok (s.release i) := rfl
  have hcut : ((s.release i).cutOf false group).result = .error e := h
  change ((s.release i).reach >>= fun free => free.cutOf false group >>= _) = _
  rw [Recorded.bind_eq_of_ok hfree, Recorded.bind_eq_of_error hcut]
  rfl

theorem recut_eq_ok_iff :
    (s.recut cancelled i group).result = .ok (t, changed) ↔
      cancelled = false ∧ ∃ cut,
        minCutGroup (s.release i).overlay.digraph group cancelled = .ok cut ∧
          t = (s.release i).claim i cut ∧ changed = (cut != s.part i) := by
  cases cancelled with
  | true => simp [recut_cancelled]
  | false =>
    cases h : minCutGroup (s.release i).overlay.digraph group false with
    | error e => simp [recut_of_error h]
    | ok cut => simp [recut_of_ok h, eq_comm]

theorem pass_result_cons : (s.pass cancelled i (group :: rest)).result = do
    let (s', changed) ← (s.recut cancelled i group).result
    let (s'', changed') ← (s'.pass cancelled (i + 1) rest).result
    return (s'', changed || changed') := by
  rw [CutState.pass]
  simp only [Recorded.bind_result]
  rfl

theorem repair_of_ok (h : minCutGroup s.overlay.digraph group false = .ok cut) :
    s.repair false i (group :: rest) =
      ⟨((s.claim i cut).repair false (i + 1) rest).result,
        .posed s group :: .reached (s.claim i cut) ::
          ((s.claim i cut).repair false (i + 1) rest).log⟩ := by
  have hcut : (s.cutOf false group).result = .ok cut := h
  change (s.cutOf false group >>= _) = _
  rw [Recorded.bind_eq_of_ok hcut]
  rfl

theorem repair_of_error (h : minCutGroup s.overlay.digraph group false = .error e) :
    s.repair false i (group :: rest) = ⟨.error e, [.posed s group]⟩ := by
  have hcut : (s.cutOf false group).result = .error e := h
  change (s.cutOf false group >>= _) = _
  rw [Recorded.bind_eq_of_error hcut]
  rfl

theorem repair_cons_eq_ok_iff :
    (s.repair cancelled i (group :: rest)).result = .ok t ↔
      cancelled = false ∧ ∃ cut, minCutGroup s.overlay.digraph group cancelled = .ok cut ∧
        ((s.claim i cut).repair cancelled (i + 1) rest).result = .ok t := by
  cases cancelled with
  | true => exact iff_of_false (fun hrun => by cases hrun) (fun hrun => by cases hrun.1)
  | false =>
    cases h : minCutGroup s.overlay.digraph group false with
    | error e => simp [repair_of_error h]
    | ok cut => simp [repair_of_ok h]

variable {made left : Nat} {history : List (List Cut)}

theorem passes_eq (hpass : (s.pass cancelled 0 groups).result = .ok (t, changed)) :
    s.passes cancelled groups made history (left + 1) =
      let next := if !changed then pure (t, made + 1, .converged)
        else if t.parts ∈ history then pure (t, made + 1, .repeated)
        else t.passes cancelled groups (made + 1) (t.parts :: history) left
      ⟨next.result, (s.pass cancelled 0 groups).log ++ [.passed (.ok t.parts)] ++ next.log⟩ := by
  rw [CutState.passes, Recorded.bind_eq_of_ok ((Recorded.noteEnd_result _ _).trans hpass),
    Recorded.noteEnd_log, hpass]
  rfl

theorem passes_eq_of_error {e : CutError} (hpass : (s.pass cancelled 0 groups).result = .error e) :
    s.passes cancelled groups made history (left + 1) =
      ⟨.error e, (s.pass cancelled 0 groups).log ++ [.passed (.error e)]⟩ := by
  rw [CutState.passes, Recorded.bind_eq_of_error ((Recorded.noteEnd_result _ _).trans hpass),
    Recorded.noteEnd_log, hpass]
  rfl

theorem passes_result_eq (hpass : (s.pass cancelled 0 groups).result = .ok (t, changed)) :
    (s.passes cancelled groups made history (left + 1)).result =
      if !changed then .ok (t, made + 1, .converged)
      else if t.parts ∈ history then .ok (t, made + 1, .repeated)
      else (t.passes cancelled groups (made + 1) (t.parts :: history) left).result := by
  rw [passes_eq hpass]
  simp only
  split
  · rfl
  · split <;> rfl

end Results

section Passes

variable {cancelled : Bool}

def SeparatesGroup (s : CutState) (group : WaypointGroup) : Prop :=
  ¬ group.Satisfiable s.overlay.digraph.Joins

theorem SeparatesGroup.of_subset {t : CutState} {group : WaypointGroup} (h : s.SeparatesGroup group)
    (hsub : ∀ u v, t.overlay.digraph.Joins u v → s.overlay.digraph.Joins u v) :
    t.SeparatesGroup group := by
  intro hsatisfiable
  exact h (hsatisfiable.mono hsub)

theorem Valid.cut_separates (h : Valid g s) (hg : g.Consistent) {group : WaypointGroup}
    (hwell : group.WellPosed g.size) {cut : Cut}
    (hcut : minCutGroup s.overlay.digraph group cancelled = .ok cut) :
    Separates s.overlay.digraph group cut := by
  refine minCutGroup_separates (h.toTidy.consistent hg) ?_ hcut
  rw [h.toTidy.size]
  exact hwell

theorem Valid.claim_joins (h : Valid g s) {i : Nat} (hi : i < s.parts.length) {cut : Cut}
    (hcut : ∀ e ∈ cut, 0 < s.overlay.weight e.src e.dst ∧
      s.overlay.weight e.src e.dst < Weight.infinite) {u v : Node}
    (huv : (s.claim i cut).overlay.digraph.Joins u v) :
    s.overlay.digraph.Uncut (· ∈ cut) u v := by
  obtain ⟨hvalid, hparts⟩ := h.claim hi hcut
  rw [hvalid.joins_iff, hparts] at huv
  obtain ⟨hjoin, hnone⟩ := huv
  have hnew : (⟨u, v⟩ : Edge) ∉ s.part i ∪ cut := hnone _ (List.mem_set hi _)
  rw [AscSet.mem_union, not_or, part_eq hi] at hnew
  refine ⟨h.joins_iff.mpr ⟨hjoin, ?_⟩, hnew.2⟩
  intro part hpart hmem
  obtain ⟨j, hj, hpartj⟩ := List.getElem_of_mem hpart
  by_cases hij : i = j
  · subst hij
    rw [hpartj] at hnew
    exact hnew.1 hmem
  · refine hnone part ?_ hmem
    have hsame : (s.parts.set i (s.part i ∪ cut))[j]? = some part := by
      rw [List.getElem?_set_ne hij, List.getElem?_eq_getElem hj, hpartj]
    exact List.mem_of_getElem? hsame

theorem Valid.claim_separates (h : Valid g s) {i : Nat} (hi : i < s.parts.length)
    {group : WaypointGroup} {cut : Cut} (hcut : Separates s.overlay.digraph group cut) :
    (s.claim i cut).SeparatesGroup group := by
  intro hsatisfiable
  exact hcut.separated (hsatisfiable.mono fun u v huv => h.claim_joins hi hcut.finite huv)

/-- What recutting a group gives: a valid state that separates the group, and the same parts if the
group's part did not change. -/
theorem Valid.recut (h : Valid g s) (hg : g.Consistent) {i : Nat} (hi : i < s.parts.length)
    {group : WaypointGroup} (hwell : group.WellPosed g.size) {t : CutState} {changed : Bool}
    (hrun : (s.recut cancelled i group).result = .ok (t, changed)) :
    Valid g t ∧ t.parts.length = s.parts.length ∧ t.SeparatesGroup group ∧
      (changed = false → t.parts = s.parts) := by
  obtain ⟨-, cut, hcut, rfl, rfl⟩ := recut_eq_ok_iff.mp hrun
  obtain ⟨hfree, hempty⟩ := h.release hi
  have hlength : (s.release i).parts.length = s.parts.length := by
    rw [hempty, List.length_set]
  have hi' : i < (s.release i).parts.length := by
    rw [hlength]
    exact hi
  have hsep := hfree.cut_separates hg hwell hcut
  obtain ⟨hvalid, hparts⟩ := hfree.claim hi' hsep.finite
  refine ⟨hvalid, ?_, hfree.claim_separates hi' hsep, ?_⟩
  · rw [hparts, List.length_set, hlength]
  · intro hchanged
    have hsame : cut = s.part i := by simpa using hchanged
    have hnone : (s.release i).part i = .empty := by
      rw [part_eq hi']
      simp [hempty]
    have hunion : (AscSet.empty : Cut) ∪ cut = s.parts[i] := by
      rw [← part_eq hi, ← hsame]
      ext e
      rw [AscSet.mem_union]
      simp
    rw [hparts, hempty, hnone, hunion, List.set_set, List.set_getElem_self]

theorem Valid.pass (h : Valid g s) (hg : g.Consistent) {i : Nat} {groups : List WaypointGroup}
    (hi : i + groups.length ≤ s.parts.length) (hwell : ∀ group ∈ groups, group.WellPosed g.size)
    {t : CutState} {changed : Bool}
    (hrun : (s.pass cancelled i groups).result = .ok (t, changed)) :
    Valid g t ∧ t.parts.length = s.parts.length ∧
      (changed = false → t.parts = s.parts ∧ ∀ group ∈ groups, t.SeparatesGroup group) := by
  induction groups generalizing s i t changed with
  | nil =>
    cases hrun
    exact ⟨h, rfl, fun _ => ⟨rfl, by simp⟩⟩
  | cons group rest ih =>
    rw [pass_result_cons] at hrun
    obtain ⟨⟨s', changed'⟩, hrecut, hrun⟩ := Except.bind_eq_ok_iff.mp hrun
    obtain ⟨⟨s'', changed''⟩, hpass, hrun⟩ := Except.bind_eq_ok_iff.mp hrun
    cases Except.pure_eq_ok_iff.mp hrun
    rw [List.length_cons] at hi
    obtain ⟨hvalid, hlength, hsep, hsame⟩ :=
      h.recut hg (by omega) (hwell group List.mem_cons_self) hrecut
    obtain ⟨hvalid', hlength', hrest⟩ := ih hvalid (by omega)
      (fun x hx => hwell x (List.mem_cons_of_mem group hx)) hpass
    refine ⟨hvalid', hlength'.trans hlength, ?_⟩
    intro hchanged
    obtain ⟨hfirst, hlater⟩ := Bool.or_eq_false_iff.mp hchanged
    obtain ⟨hparts, hall⟩ := hrest hlater
    refine ⟨hparts.trans (hsame hfirst), ?_⟩
    intro x hx
    rcases List.mem_cons.mp hx with rfl | hx
    · -- the later groups left all parts alone, so the same edges are left
      apply hsep.of_subset
      intro u v huv
      rw [hvalid'.joins_iff, hparts] at huv
      exact hvalid.joins_iff.mpr huv
    · exact hall x hx

theorem Valid.repair (h : Valid g s) (hg : g.Consistent) {i : Nat} {groups : List WaypointGroup}
    (hi : i + groups.length ≤ s.parts.length) (hwell : ∀ group ∈ groups, group.WellPosed g.size)
    {t : CutState} (hrun : (s.repair cancelled i groups).result = .ok t) :
    Valid g t ∧ (∀ u v, t.overlay.digraph.Joins u v → s.overlay.digraph.Joins u v) ∧
      ∀ group ∈ groups, t.SeparatesGroup group := by
  induction groups generalizing s i t with
  | nil =>
    cases hrun
    exact ⟨h, fun u v huv => huv, by simp⟩
  | cons group rest ih =>
    obtain ⟨-, cut, hcut, hrun⟩ := repair_cons_eq_ok_iff.mp hrun
    rw [List.length_cons] at hi
    have hlt : i < s.parts.length := by omega
    have hsep := h.cut_separates hg (hwell group List.mem_cons_self) hcut
    obtain ⟨hvalid, hparts⟩ := h.claim hlt hsep.finite
    have hlength : (s.claim i cut).parts.length = s.parts.length := by
      rw [hparts, List.length_set]
    obtain ⟨hvalid', hsub, hall⟩ := ih hvalid (by omega)
      (fun x hx => hwell x (List.mem_cons_of_mem group hx)) hrun
    refine ⟨hvalid', fun u v huv => (h.claim_joins hlt hsep.finite (hsub u v huv)).1, ?_⟩
    intro x hx
    rcases List.mem_cons.mp hx with rfl | hx
    · exact (h.claim_separates hlt hsep).of_subset hsub
    · exact hall x hx

/-- The passes end in a valid state, and in one that separates all groups if the last pass changed
nothing. -/
theorem Valid.passes (h : Valid g s) (hg : g.Consistent) {groups : List WaypointGroup}
    (hlength : s.parts.length = groups.length) (hwell : ∀ group ∈ groups, group.WellPosed g.size)
    {made made' left : Nat} {history : List (List Cut)} {t : CutState} {ending : PassesEnd}
    (hrun : (s.passes cancelled groups made history left).result = .ok (t, made', ending)) :
    Valid g t ∧ t.parts.length = groups.length ∧
      (ending = .converged → ∀ group ∈ groups, t.SeparatesGroup group) := by
  induction left generalizing s made history with
  | zero =>
    cases hrun
    exact ⟨h, hlength, by simp⟩
  | succ left ih =>
    obtain ⟨⟨s', changed⟩, hpass, -⟩ := Recorded.bind_result_eq_ok_iff.mp hrun
    obtain ⟨hvalid, hlength', hall⟩ := h.pass hg (by omega) hwell hpass
    rw [passes_result_eq hpass] at hrun
    split at hrun
    · rename_i hchanged
      cases hrun
      have hunchanged : changed = false := by simpa using hchanged
      exact ⟨hvalid, hlength'.trans hlength, fun _ => (hall hunchanged).2⟩
    · split at hrun
      · cases hrun
        exact ⟨hvalid, hlength'.trans hlength, by simp⟩
      · exact ih hvalid (hlength'.trans hlength) hrun

theorem mem_cut {e : Edge} : e ∈ s.cut ↔ (s.owners.get? e).isSome :=
  AscMap.mem_keys_iff

theorem Valid.mem_cut (h : Valid g s) {e : Edge} : e ∈ s.cut ↔ s.held e ≠ 0 := by
  rw [CutState.mem_cut]
  constructor
  · intro hsome hzero
    rw [h.toTidy.get?_eq_none hzero] at hsome
    cases hsome
  · intro hheld
    unfold held at hheld
    cases hget : s.owners.get? e with
    | none =>
      rw [hget] at hheld
      exact absurd rfl hheld
    | some n => rfl

end Passes

end CutState

/-- The passes, with the round that only adds unless they converge. -/
def CutState.rounds (limit : Nat) (cancelled : Bool) (groups : List WaypointGroup)
    (s : CutState) : CutRun CutState := do
  let (t, _, ending) ← s.passes cancelled groups 0 [s.parts] limit
  if ending = .converged then return t
  else t.repair cancelled 0 groups

theorem IteratedRun.ofPrepared_rounds (limit : Nat) (cancelled : Bool) (g : Digraph)
    (groups : List WaypointGroup) :
    (ofPrepared limit cancelled g groups).outcome.result =
        ((CutState.start g groups.length).rounds limit cancelled groups).result.map CutState.cut ∧
      (ofPrepared limit cancelled g groups).events =
        ((CutState.start g groups.length).rounds limit cancelled groups).log := by
  unfold ofPrepared CutState.rounds
  dsimp only
  cases hrun : ((CutState.start g groups.length).passes cancelled groups 0
      [(CutState.start g groups.length).parts] limit).result with
  | error e =>
    rw [Recorded.bind_eq_of_error hrun]
    exact ⟨rfl, rfl⟩
  | ok found =>
    obtain ⟨t, made, ending⟩ := found
    rw [Recorded.bind_eq_of_ok hrun]
    cases ending with
    | converged => exact ⟨rfl, (List.append_nil _).symm⟩
    | repeated | limited =>
      simp only [reduceCtorEq, if_false]
      cases (t.repair cancelled 0 groups).result with
      | error e => exact ⟨rfl, rfl⟩
      | ok u => exact ⟨rfl, rfl⟩

/-- Edges of positive finite weight without which no walk visits the stages of any of the groups. -/
structure SeparatesAll (g : Digraph) (groups : List WaypointGroup) (cut : Cut) : Prop where
  finite : ∀ e ∈ cut, 0 < g.weight e.src e.dst ∧ g.weight e.src e.dst < Weight.infinite
  separated : ∀ group ∈ groups, ¬ group.Satisfiable (g.Uncut (· ∈ cut))

theorem CutState.Valid.separatesAll {g : Digraph} {s : CutState} {groups : List WaypointGroup}
    (h : s.Valid g) (hsep : ∀ group ∈ groups, s.SeparatesGroup group) :
    SeparatesAll g groups s.cut := by
  constructor
  · intro e he
    have hheld := h.mem_cut.mp he
    rw [h.balanced] at hheld
    obtain ⟨part, hpart, hmem⟩ := List.countP_pos_iff.mp (Nat.pos_of_ne_zero hheld)
    exact h.finite part hpart e (by simpa using hmem)
  · intro group hgroup hsatisfiable
    refine hsep group hgroup (hsatisfiable.mono ?_)
    rintro u v ⟨hjoin, hfree⟩
    refine h.toTidy.joins_iff.mpr ⟨hjoin, ?_⟩
    by_contra hheld
    exact hfree (h.mem_cut.mpr hheld)

theorem prepareGroups_eq_ok_iff {g : Digraph} {groups prepared : List WaypointGroup} :
    prepareGroups g groups = .ok prepared ↔
      (∀ x ∈ groups, x.fault? g.size = none) ∧ (AscSet.ofList groups).toList = prepared := by
  unfold prepareGroups
  split
  · rename_i x fault hfind
    obtain ⟨y, hy, hfault⟩ := List.exists_of_findSome?_eq_some hfind
    refine iff_of_false (by simp) fun hall => ?_
    rw [hall.1 y hy] at hfault
    cases hfault
  · rename_i hfind
    have hnone : ∀ x ∈ groups, x.fault? g.size = none := fun x hx =>
      Option.map_eq_none_iff.mp (List.findSome?_eq_none_iff.mp hfind x hx)
    rw [Except.ok.injEq, and_iff_right hnone]

theorem prepareGroups_eq_ok {g : Digraph} {groups prepared : List WaypointGroup}
    (h : prepareGroups g groups = .ok prepared) :
    (∀ group ∈ groups, group.WellPosed g.size) ∧ ∀ group, group ∈ prepared ↔ group ∈ groups := by
  obtain ⟨hvalid, rfl⟩ := prepareGroups_eq_ok_iff.mp h
  exact ⟨fun group hgroup => WaypointGroup.wellPosed_of_fault? (hvalid group hgroup),
    fun group => AscSet.mem_ofList⟩

theorem IteratedRun.ofPrepared_separatesAll {g : Digraph} (hg : g.Consistent)
    {groups : List WaypointGroup} (hwell : ∀ group ∈ groups, group.WellPosed g.size)
    {limit : Nat} {cancelled : Bool} {cut : Cut}
    (h : (IteratedRun.ofPrepared limit cancelled g groups).outcome.result = .ok cut) :
    SeparatesAll g groups cut := by
  have hstart := CutState.Valid.start g groups.length
  have hlength : (CutState.start g groups.length).parts.length = groups.length :=
    List.length_replicate
  unfold IteratedRun.ofPrepared at h
  simp only at h
  split at h
  · cases h
  · rename_i s made hpasses
    cases h
    obtain ⟨hvalid, -, hall⟩ := hstart.passes hg hlength hwell hpasses
    exact hvalid.separatesAll (hall rfl)
  · rename_i s made ending hending hpasses
    obtain ⟨hvalid, hparts, -⟩ := hstart.passes hg hlength hwell hpasses
    split at h
    · cases h
    · rename_i t hrepair
      cases h
      obtain ⟨hvalid', -, hall⟩ := hvalid.repair hg (by omega) hwell hrepair
      exact hvalid'.separatesAll hall

theorem iteratedCut_separatesAll {g : Digraph} (hg : g.Consistent) {limit : Nat}
    {cancelled : Bool} {before : CutProgress} {groups : List WaypointGroup} {cut : Cut}
    (h : (iteratedCut limit cancelled before g groups).outcome.result = .ok cut) :
    SeparatesAll g groups cut := by
  unfold iteratedCut at h
  split at h
  · cases h
  · rename_i hprepare
    obtain ⟨-, hsame⟩ := prepareGroups_eq_ok hprepare
    cases h
    constructor
    · intro e he
      exact absurd he (AscSet.not_mem_empty e)
    · intro group hgroup
      exact absurd ((hsame group).mpr hgroup) List.not_mem_nil
  · rename_i group rest hprepare
    obtain ⟨hwell, hsame⟩ := prepareGroups_eq_ok hprepare
    have hprepared : ∀ x ∈ group :: rest, x.WellPosed g.size := by
      intro x hx
      exact hwell x ((hsame x).mp hx)
    have hall := IteratedRun.ofPrepared_separatesAll hg hprepared h
    refine ⟨hall.finite, ?_⟩
    intro x hx
    exact hall.separated x ((hsame x).mpr hx)

end SpecFence
