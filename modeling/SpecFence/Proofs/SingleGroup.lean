import SpecFence.Proofs.Convergence
import SpecFence.Proofs.Unbounded

/-!
# Cutting one group

The cut of one group weighs no more than any finite edges that separate the group, counted once for
each transition between its stages.  It is empty only if the group needs no cut, and it is what
cutting the groups in turn gives for this group alone, however few passes may be made: a first pass
gives the group its cut, a second one would give it the same again, and when there is no second one
the round that only adds finds nothing left to cut.
-/

set_option autoImplicit false

namespace SpecFence

open Relation

variable {g : Digraph} {group : WaypointGroup} {cut : Cut}

section Weight

theorem cutWeight_minCutGroup_le (hg : g.Consistent) (hwell : group.WellPosed g.size)
    (hcut : minCutGroup g group false = .ok cut) {other : Cut}
    (hfinite : ∀ e ∈ other, g.weight e.src e.dst < Weight.infinite)
    (hsep : ¬ group.Satisfiable (g.Uncut (· ∈ other))) :
    cutWeight g cut.toList ≤ (group.stages.length - 1) * cutWeight g other.toList := by
  have hle := sum_minCutGroup_le hg hwell hcut hfinite hsep
  have hpos : 1 ≤ group.stages.length - 1 := by
    have hlong := hwell.long
    omega
  rw [cutWeight_eq, cutWeight_eq]
  rcases Nat.le_total (∑ x ∈ endPairs other, g.weight x.1 x.2) Weight.limit with hfits | hover
  · rw [Nat.min_eq_left hfits]
    exact (Nat.min_le_left _ _).trans hle
  · rw [Nat.min_eq_right hover]
    exact (Nat.min_le_right _ _).trans (Nat.le_mul_of_pos_left _ hpos)

theorem minCutGroup_eq_empty_iff (hg : g.Consistent) (hwell : group.WellPosed g.size)
    (hcut : minCutGroup g group false = .ok cut) :
    cut = .empty ↔ ¬ group.Satisfiable g.Joins := by
  constructor
  · rintro rfl hsatisfiable
    refine (minCutGroup_separates hg hwell hcut).separated (hsatisfiable.mono fun u v huv => ?_)
    exact ⟨huv, AscSet.not_mem_empty _⟩
  · intro hstuck
    rw [minCutGroup_of_none ((WaypointGroup.narrow?_eq_none_iff hg hwell).mpr hstuck)] at hcut
    exact (Except.ok.inj hcut).symm

end Weight

section Passes

theorem Assignment.remaining_single (hg : g.Consistent) (part : Assignment) :
    part.remaining g [group] group = g := by
  refine (remaining_consistent hg _ _ _).ext hg (size_remaining _ _ _ _) fun u v => ?_
  refine weight_remaining_of_free ?_
  rintro ⟨x, hx, hne, -⟩
  exact hne (List.mem_singleton.mp hx)

theorem Assignment.sweep_single (hg : g.Consistent) (hcut : minCutGroup g group false = .ok cut)
    (part : Assignment) :
    part.sweep g [group] [group] = .ok (Function.update part group cut) := by
  refine sweep_cons_eq_ok_iff.mpr ⟨cut, ?_, rfl⟩
  rw [remaining_single hg]
  exact hcut

theorem settlesAt_single (hg : g.Consistent) (hcut : minCutGroup g group false = .ok cut)
    {limit : Nat} (hlimit : 0 < limit) (henough : cut ≠ .empty → 1 < limit) :
    SettlesAt g [group] limit (Function.update Assignment.empty group cut) := by
  have hsettled : Assignment.sweep g [group] (Function.update Assignment.empty group cut) [group] =
      .ok (Function.update Assignment.empty group cut) := by
    rw [Assignment.sweep_single hg hcut, Function.update_idem]
  by_cases hempty : cut = .empty
  · have hsame : Function.update Assignment.empty group cut = Assignment.empty := by
      rw [hempty]
      exact Function.update_eq_self group Assignment.empty
    rw [hsame] at hsettled ⊢
    exact ⟨_, 0, hlimit, rfl, .of_settled hsettled, rfl⟩
  · refine ⟨_, 1, henough hempty, rfl, (Settles.of_settled hsettled).cons
      (Assignment.sweep_single hg hcut _) fun i _ hsame => hempty ?_, rfl⟩
    have hpart := congrFun hsame group
    rwa [Function.update_self] at hpart

theorem repair_single {s : CutState} (hvalid : CutState.Valid g s) (hg : g.Consistent)
    (hwell : group.WellPosed g.size) (hsep : ¬ group.Satisfiable s.overlay.digraph.Joins) :
    ∃ t, (s.repair false 0 [group]).result = .ok t ∧ t.cut = s.cut := by
  have hsize : group.WellPosed s.overlay.digraph.size := by
    rw [hvalid.toTidy.size]
    exact hwell
  have hnone := (WaypointGroup.narrow?_eq_none_iff (hvalid.toTidy.consistent hg) hsize).mpr hsep
  refine ⟨s.claim 0 .empty, ?_, rfl⟩
  rw [CutState.repair_of_ok (minCutGroup_of_none hnone false)]
  rfl

theorem ofPrepared_single (hg : g.Consistent) (hwell : group.WellPosed g.size)
    (hcut : minCutGroup g group false = .ok cut) (hne : cut ≠ .empty) :
    (IteratedRun.ofPrepared 1 false g [group]).outcome.result = .ok cut := by
  have hstart := CutState.Assigned.start g [group]
  have hsingle := Assignment.sweep_single hg hcut .empty
  rcases hstart.pass_all hg (List.nodup_singleton group) (by simpa using hwell) with
    ⟨e, hsweep, -⟩ | ⟨next, s, changed, hsweep, hpass, hs, hsame⟩
  · rw [hsingle] at hsweep
    cases hsweep
  · rw [hsingle] at hsweep
    cases hsweep
    have hparts : s.parts = [cut] := by
      rw [hs.parts, List.map_singleton, Function.update_self]
    have hchanged : changed = true := by
      rw [← Bool.not_eq_false, hsame]
      intro heq
      have hpart := congrFun heq group
      rw [Function.update_self] at hpart
      exact hne hpart
    have hnew : s.parts ∉ [(CutState.start g [group].length).parts] := by
      rw [hparts, List.mem_singleton]
      exact fun heq => hne (List.head_eq_of_cons_eq heq)
    have hrun : ((CutState.start g [group].length).passes false [group] 0
        [(CutState.start g [group].length).parts] 1).result = .ok (s, 1, .limited) := by
      rw [CutState.passes_result_eq hpass, hchanged, Bool.not_true, if_neg Bool.false_ne_true,
        if_neg hnew]
      rfl
    have hsep : ¬ group.Satisfiable s.overlay.digraph.Joins := by
      intro hsatisfiable
      refine (minCutGroup_separates hg hwell hcut).separated (hsatisfiable.mono fun u v huv => ?_)
      obtain ⟨hjoin, hout⟩ := hs.toValid.joins_iff.mp huv
      exact ⟨hjoin, hout cut (hparts ▸ List.mem_singleton_self cut)⟩
    obtain ⟨t, hrepair, ht⟩ := repair_single hs.toValid hg hwell hsep
    have hall : s.cut = cut := by
      ext e
      rw [hs.mem_cut]
      simp
    unfold IteratedRun.ofPrepared
    simp only [hrun, hrepair]
    rw [ht, hall]

theorem iteratedCut_single (hg : g.Consistent) (hvalid : group.fault? g.size = none)
    (hcut : minCutGroup g group false = .ok cut) (limit : Nat) (before : CutProgress) :
    (iteratedCut limit false before g [group]).outcome.result = .ok cut := by
  have hprepare : prepareGroups g [group] = .ok [group] := by
    unfold prepareGroups
    rw [List.findSome?_singleton, hvalid]
    rfl
  by_cases henough : cut ≠ .empty → 1 < max limit 1
  · refine (iteratedCut_converged_iff hg).mpr ⟨[group], _, hprepare, Or.inl rfl,
      settlesAt_single hg hcut (by omega) henough, fun e => ?_⟩ |>.1
    simp
  · obtain ⟨hne, hone⟩ := Classical.not_imp.mp henough
    have hlimit : max limit 1 = 1 := by omega
    unfold iteratedCut
    simp only [hprepare]
    rw [hlimit]
    exact ofPrepared_single hg (WaypointGroup.wellPosed_of_fault? hvalid) hcut hne

end Passes

theorem forall_not_visitedBy_iff (hwell : group.WellPosed g.size) {R : Node → Node → Prop} :
    (∀ walk : List Node, walk.IsChain R → ¬ group.VisitedBy walk) ↔ ¬ group.Satisfiable R := by
  rw [satisfiable_iff_walk hwell.stages_ne_nil]
  simp only [not_exists, not_and]

/-- The cut of a group leaves no walk that visits its stages, and has only edges of positive finite
weight.  It weighs no more, for each transition between stages, than any finite edges that leave no
such walk, and it is empty exactly when there is no such walk to begin with.  Cutting the groups in
turn gives the same cut for this group alone, whatever the limit of passes. -/
theorem minCutGroup_spec (g : Digraph) (hg : g.Consistent) (group : WaypointGroup)
    (hvalid : group.fault? g.size = none) (cut : Cut)
    (hcut : minCutGroup g group false = .ok cut) :
    (∀ walk : List Node, walk.IsChain (g.Uncut (· ∈ cut)) → ¬ group.VisitedBy walk) ∧
      (∀ e ∈ cut, 0 < g.weight e.src e.dst ∧ g.weight e.src e.dst < Weight.infinite) ∧
      (∀ other : Cut, (∀ e ∈ other, g.weight e.src e.dst < Weight.infinite) →
        (∀ walk : List Node, walk.IsChain (g.Uncut (· ∈ other)) → ¬ group.VisitedBy walk) →
          cutWeight g cut.toList ≤ (group.stages.length - 1) * cutWeight g other.toList) ∧
      (cut = .empty ↔ ∀ walk : List Node, walk.IsChain g.Joins → ¬ group.VisitedBy walk) ∧
      ∀ limit before, (iteratedCut limit false before g [group]).outcome.result = .ok cut := by
  have hwell := WaypointGroup.wellPosed_of_fault? hvalid
  have hseparates := minCutGroup_separates hg hwell hcut
  simp only [forall_not_visitedBy_iff hwell]
  exact ⟨hseparates.separated, hseparates.finite,
    fun other hfinite hsep => cutWeight_minCutGroup_le hg hwell hcut hfinite hsep,
    minCutGroup_eq_empty_iff hg hwell hcut, iteratedCut_single hg hvalid hcut⟩

def shortcut : WeightedGraph :=
  (WeightedGraph.withNodes 4).putAll [(⟨0, 1⟩, 4), (⟨1, 2⟩, 3), (⟨2, 3⟩, 5), (⟨0, 3⟩, 1)]

def waypoint : WaypointGroup := ⟨[.singleton 0, .singleton 2, .singleton 3]⟩

/-- The shortcut is left alone, and the cut is found even without a second pass. -/
theorem minCutGroup_spec_shortcut :
    (∀ walk : List Node, walk.IsChain (shortcut.digraph.Uncut (· ∈ (.singleton ⟨1, 2⟩ : Cut))) →
        ¬ waypoint.VisitedBy walk) ∧
      cutWeight shortcut.digraph [⟨1, 2⟩] ≤ 2 * cutWeight shortcut.digraph [⟨2, 3⟩] ∧
      (iteratedCut 0 false .initial shortcut.digraph [waypoint]).outcome.result =
        .ok (.singleton ⟨1, 2⟩) := by
  have hcut : minCutGroup shortcut.digraph waypoint false = .ok (.singleton ⟨1, 2⟩) := by cbv
  have hvalid : waypoint.fault? shortcut.digraph.size = none := by cbv
  have hwell := WaypointGroup.wellPosed_of_fault? hvalid
  have hother : waypoint.separatedBy shortcut.digraph [⟨2, 3⟩] = true := by cbv
  obtain ⟨hseparated, -, hweight, -, hrun⟩ := minCutGroup_spec shortcut.digraph
    shortcut.digraph_consistent waypoint hvalid _ hcut
  refine ⟨hseparated, hweight (.singleton ⟨2, 3⟩) ?_ ?_, hrun 0 .initial⟩
  · intro e he
    rw [AscSet.mem_singleton.mp he]
    decide +kernel
  · exact (forall_not_visitedBy_iff hwell).mpr
      ((separatedBy_iff shortcut.digraph_consistent hwell _).mp hother)

end SpecFence
