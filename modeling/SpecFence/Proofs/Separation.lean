import Mathlib
import SpecFence.Proofs.Exact

/-!
# Cuts separate all groups at once

Whatever the strategy, the pass limit and the search budget: when a cut is found, no walk over the
other edges of the graph visits the stages of any group in order, and the cut is an ascending list
of edges of positive finite weight.
-/

set_option autoImplicit false

namespace SpecFence

/-- A walk visits the stages of a group in order: it has places, one for each stage and none before
the place of an earlier stage, at which it stands in the stages. -/
def WaypointGroup.VisitedBy (group : WaypointGroup) (walk : List Node) : Prop :=
  ∃ places, VisitsAt (· ∈ ·) walk places group.stages

theorem WaypointGroup.WellPosed.stages_ne_nil {group : WaypointGroup} {size : Nat}
    (h : group.WellPosed size) : group.stages ≠ [] := by
  intro hnil
  have hlong := h.long
  rw [hnil] at hlong
  simp at hlong

theorem stages_ne_nil_of_separate {graph : Digraph} {groups : List WaypointGroup}
    {settings : Settings} {cancelled : Bool} {cut : Cut}
    (h : (separate graph groups settings cancelled).result = .ok cut) :
    ∀ group ∈ groups, group.stages ≠ [] := by
  intro group hgroup
  have hprepared : ∃ prepared, prepareGroups graph groups = .ok prepared := by
    unfold separate at h
    split at h
    · rename_i hempty
      rw [List.isEmpty_iff.mp hempty] at hgroup
      exact absurd hgroup List.not_mem_nil
    · split at h
      · obtain ⟨found, hfound, -⟩ := Recorded.bind_result_eq_ok_iff.mp h
        obtain ⟨inner, hinner, -⟩ := Recorded.bind_result_eq_ok_iff.mp hfound
        simp only [iteratedCut] at hinner
        split at hinner
        · cases hinner
        · exact ⟨_, by assumption⟩
        · exact ⟨_, by assumption⟩
      · obtain ⟨found, hfound, -⟩ := Recorded.bind_result_eq_ok_iff.mp h
        obtain ⟨prepared, hprepare, -⟩ := Recorded.bind_result_eq_ok_iff.mp hfound
        exact ⟨prepared, hprepare⟩
  obtain ⟨prepared, hprepare⟩ := hprepared
  exact ((prepareGroups_eq_ok hprepare).1 group hgroup).stages_ne_nil

/-- A found cut leaves no walk that visits the stages of any group in order. -/
theorem separate_leaves_no_walk (g : WeightedGraph) (groups : List WaypointGroup)
    (settings : Settings) (cancelled : Bool) (cut : Cut)
    (h : (separate g.digraph groups settings cancelled).result = .ok cut) :
    (∀ group ∈ groups, ∀ walk : List Node,
      walk.IsChain (fun u v => 0 < g.weight u v ∧ (⟨u, v⟩ : Edge) ∉ cut) →
        ¬ group.VisitedBy walk) ∧
      cut.toList.Pairwise (fun a b => compare a b = .lt) ∧
      ∀ e ∈ cut.toList, 0 < g.weight e.src e.dst ∧ g.weight e.src e.dst < Weight.infinite := by
  have hall := separate_separatesAll g.digraph_consistent h
  refine ⟨?_, cut.ascending, hall.finite⟩
  intro group hgroup walk hchain ⟨places, hvisits⟩
  apply hall.separated group hgroup
  exact threaded_of_visitsAt (stages_ne_nil_of_separate h group hgroup) hchain hvisits

def lightLastChain : WeightedGraph :=
  (WeightedGraph.withNodes 3).putAll [(⟨0, 1⟩, 5), (⟨1, 2⟩, 3)]

/-- On the chain the lighter edge is cut. -/
theorem separate_lightLastChain :
    (separate lightLastChain.digraph [⟨[.singleton 0, .singleton 2]⟩] .default false).result =
        .ok (.singleton ⟨1, 2⟩) ∧
      ∀ walk : List Node,
        walk.IsChain (fun u v => 0 < lightLastChain.weight u v ∧
          (⟨u, v⟩ : Edge) ∉ (AscSet.singleton ⟨1, 2⟩ : Cut)) →
        ¬ (⟨[.singleton 0, .singleton 2]⟩ : WaypointGroup).VisitedBy walk := by
  have hcut : (separate lightLastChain.digraph [⟨[.singleton 0, .singleton 2]⟩] .default
      false).result = .ok (.singleton ⟨1, 2⟩) := by
    cbv
  have hall := separate_leaves_no_walk lightLastChain [⟨[.singleton 0, .singleton 2]⟩] .default
    false _ hcut
  exact ⟨hcut, hall.1 _ (List.mem_singleton.mpr rfl)⟩

end SpecFence
