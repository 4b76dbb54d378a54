import Mathlib
import SpecFence.Proofs.PlacedEdges
import SpecFence.Proofs.Plan
import SpecFence.Proofs.Separation

/-!
# Fences separate the groups

A way through the decorated function on which no fence stands makes only steps that the function made
before, along edges that were not cut.  So it is a walk of the dependence graph outside the cut, and
such a walk does not visit the stages of a group in order.
-/

set_option autoImplicit false

namespace SpecFence

open SpecFence.Function

variable {f g : Function} {weighting : BlockWeighting} {cut : Cut}

namespace DependenceGraph

def StandsIn (graph : DependenceGraph) (i : InstId) (s : NodeSet) : Prop :=
  ∃ n ∈ s, graph.inst? n = some i

end DependenceGraph

/-- A walk has a fence after the first of some places and before the last. -/
def FencedBetween (g : Function) (walk : List InstId) (places : List Nat) : Prop :=
  ∃ first last k i, places.head? = some first ∧ places.getLast? = some last ∧ first < k ∧ k < last ∧
    walk[k]? = some i ∧ g.isFence i = true

theorem Function.FenceFree.not_looksSplit (h : f.WellFormed) (hfree : f.FenceFree)
    {src dst : InstId} : ¬ Placer.LooksSplit f src dst := by
  rintro ⟨s, t, -, -, -, hshape⟩
  rw [hfree.alreadySplit h] at hshape
  cases hshape

/-- One step of control that is neither a fence nor along a cut edge. -/
def OpenStep (f : Function) (weighting : BlockWeighting) (cut : Cut) (a b : InstId) : Prop :=
  ∃ u v, (DependenceGraph.ofFunction f weighting).inst? u = some a ∧
    (DependenceGraph.ofFunction f weighting).inst? v = some b ∧
    (DependenceGraph.ofFunction f weighting).digraph.Uncut (· ∈ cut) u v

/-- All edges of a cut are stopped in a decorated function. -/
structure Realises (f g : Function) (weighting : BlockWeighting) (cut : Cut) : Prop where
  decorates : Decorates f g
  stopped : ∀ e ∈ cut, ∀ src dst, Placer.Joins f weighting e src dst → Placer.Stopped f g src dst

theorem Realises.openStep (h : f.WellFormed) (hfree : f.FenceFree)
    (hreal : Realises f g weighting cut) {a b : InstId} (ha : a ∈ f.layoutInsts)
    (hstep : g.Follows a b) (hb : g.isFence b = false) :
    b ∈ f.layoutInsts ∧ OpenStep f weighting cut a b := by
  rcases hreal.decorates.follows a (h.insts_lt a ha) b hstep with ⟨-, hold⟩ | ⟨-, hfence⟩
  · have hbmem := h.mem_layoutInsts_of_follows hold
    obtain ⟨u, hu⟩ : ∃ u, (DependenceGraph.ofFunction f weighting).inst? u = some a :=
      DependenceGraph.exists_node ha
    obtain ⟨v, hv⟩ : ∃ v, (DependenceGraph.ofFunction f weighting).inst? v = some b :=
      DependenceGraph.exists_node hbmem
    refine ⟨hbmem, u, v, hu, hv, ?_, ?_⟩
    · exact (DependenceGraph.control_joins_iff h).mpr ⟨a, b, hu, hv, hold⟩
    · intro hmem
      rcases hreal.stopped ⟨u, v⟩ hmem a b ⟨hu, hv, hold⟩ hstep with hfence | hfence | hshape
      · rw [hfree a ha] at hfence
        cases hfence
      · rw [hfree b hbmem] at hfence
        cases hfence
      · exact hfree.not_looksSplit h hshape
  · rw [hb] at hfence
    cases hfence

theorem Realises.isFence_eq_false (h : f.WellFormed) (hfree : f.FenceFree)
    (hreal : Realises f g weighting cut) {a : InstId} (ha : a ∈ f.layoutInsts) :
    g.isFence a = false := by
  rw [hreal.decorates.isFence_eq (h.insts_lt a ha)]
  exact hfree a ha

theorem Realises.mem_layoutInsts (h : f.WellFormed) (hfree : f.FenceFree)
    (hreal : Realises f g weighting cut) {walk : List InstId} (hchain : walk.IsChain g.Follows)
    {first last : Nat} {a : InstId} (hfirst : walk[first]? = some a) (ha : a ∈ f.layoutInsts)
    (hlast : ∀ b, walk[last]? = some b → b ∈ f.layoutInsts)
    (hopen : ∀ k i, first < k → k < last → walk[k]? = some i → g.isFence i = false)
    {k : Nat} (hk : first ≤ k) (hle : k ≤ last) {b : InstId} (hb : walk[k]? = some b) :
    b ∈ f.layoutInsts := by
  induction k, hk using Nat.le_induction generalizing b with
  | base =>
    obtain rfl := Option.some_inj.mp (hfirst.symm.trans hb)
    exact ha
  | succ k hk ih =>
    rcases Nat.lt_or_eq_of_le hle with hlt | heq
    · obtain ⟨hlen, hget⟩ := List.getElem?_eq_some_iff.mp hb
      have hprev : walk[k]? = some walk[k] := List.getElem?_eq_getElem (Nat.lt_of_succ_lt hlen)
      have hstep : g.Follows walk[k] b := by
        rw [← hget]
        exact hchain.getElem k hlen
      have hold := ih (Nat.le_of_succ_le hle) hprev
      have hnofence := hopen (k + 1) b (Nat.lt_succ_of_le hk) hlt hb
      exact (hreal.openStep h hfree hold hstep hnofence).1
    · rw [heq] at hb
      exact hlast b hb

theorem le_last_of_pairwise {places : List Nat} {last q : Nat} (hp : places.Pairwise (· ≤ ·))
    (hlast : places.getLast? = some last) (hq : q ∈ places) : q ≤ last := by
  obtain ⟨init, rfl⟩ := List.getLast?_eq_some_iff.mp hlast
  rcases List.mem_append.mp hq with hinit | hend
  · exact (List.pairwise_append.mp hp).2.2 q hinit last (List.mem_singleton_self last)
  · rw [List.mem_singleton.mp hend]

theorem exists_standsIn {graph : DependenceGraph} {walk : List InstId} {places : List Nat}
    {stages : List NodeSet} (h : VisitsAt graph.StandsIn walk places stages) {q : Nat}
    (hq : q ∈ places) : ∃ i n, walk[q]? = some i ∧ graph.inst? n = some i := by
  obtain ⟨-, hforall⟩ := h
  induction hforall with
  | nil => exact absurd hq List.not_mem_nil
  | cons hp _ ih =>
    rcases List.mem_cons.mp hq with rfl | hq
    · obtain ⟨i, hi, n, -, hn⟩ := hp
      exact ⟨i, n, hi, hn⟩
    · exact ih hq

theorem satisfiable_of_threaded (h : f.WellFormed) {group : WaypointGroup}
    (ht : Threaded (OpenStep f weighting cut) (DependenceGraph.ofFunction f weighting).StandsIn
      group.stages) :
    group.Satisfiable ((DependenceGraph.ofFunction f weighting).digraph.Uncut (· ∈ cut)) := by
  obtain ⟨s, rest, a, hstages, ⟨n, hns, hna⟩, hthreads⟩ := ht
  refine ⟨s, rest, n, hstages, hns, hthreads.map
    (fun i u => (DependenceGraph.ofFunction f weighting).inst? u = some i) ?_ ?_ hna⟩
  · rintro b c u hu ⟨u', v, hu', hv, huncut⟩
    obtain rfl := DependenceGraph.inst?_unique h hu hu'
    exact ⟨v, hv, huncut⟩
  · rintro b u t hu ⟨u', hmem, hu'⟩
    obtain rfl := DependenceGraph.inst?_unique h hu hu'
    exact hmem

/-- A walk that visits the stages of a separated group has a fence between its first visit and its
last. -/
theorem Realises.fencedBetween (h : f.WellFormed) (hfree : f.FenceFree)
    (hreal : Realises f g weighting cut) {group : WaypointGroup} (hne : group.stages ≠ [])
    (hseparated : ¬ group.Satisfiable
      ((DependenceGraph.ofFunction f weighting).digraph.Uncut (· ∈ cut)))
    {walk : List InstId} (hchain : walk.IsChain g.Follows) {places : List Nat}
    (hvisits : VisitsAt (DependenceGraph.ofFunction f weighting).StandsIn walk places group.stages) :
    FencedBetween g walk places := by
  by_contra hnone
  have hinside : ∀ q ∈ places, ∃ i, walk[q]? = some i ∧ i ∈ f.layoutInsts := by
    intro q hq
    obtain ⟨i, n, hi, hn⟩ := exists_standsIn hvisits hq
    exact ⟨i, hi, DependenceGraph.mem_layoutInsts_of_inst? hn⟩
  obtain ⟨hplaces, hforall⟩ := hvisits
  have hthreaded : ¬ Threaded (OpenStep f weighting cut)
      (DependenceGraph.ofFunction f weighting).StandsIn group.stages :=
    fun ht => hseparated (satisfiable_of_threaded h ht)
  generalize group.stages = stages at hne hthreaded hforall
  cases hforall with
  | nil => exact hne rfl
  | @cons first s rest stages hfirst hrest =>
    obtain ⟨a, ha, n, hns, hna⟩ := hfirst
    obtain ⟨last, hlast⟩ : ∃ last, (first :: rest).getLast? = some last :=
      ⟨_, List.getLast?_eq_some_getLast (List.cons_ne_nil first rest)⟩
    have hopen : ∀ k i, first < k → k < last → walk[k]? = some i → g.isFence i = false := by
      intro k i hk hkl hi
      rw [← Bool.not_eq_true]
      intro hfence
      exact hnone ⟨first, last, k, i, rfl, hlast, hk, hkl, hi, hfence⟩
    have hend : ∀ b, walk[last]? = some b → b ∈ f.layoutInsts := by
      intro b hb
      obtain ⟨i, hi, hmem⟩ := hinside last (List.mem_of_getLast? hlast)
      obtain rfl := Option.some_inj.mp (hi.symm.trans hb)
      exact hmem
    have hold : ∀ k b, first ≤ k → k ≤ last → walk[k]? = some b → b ∈ f.layoutInsts :=
      fun k b hk hle hb => hreal.mem_layoutInsts h hfree hchain ha
        (DependenceGraph.mem_layoutInsts_of_inst? hna) hend hopen hk hle hb
    refine hthreaded ⟨s, stages, a, rfl, ⟨n, hns, hna⟩, threads_of_visits ha hplaces hrest ?_⟩
    intro k b c hk ⟨q, hq, hkq⟩ hb hc
    have hqlast := le_last_of_pairwise hplaces hlast (List.mem_cons_of_mem first hq)
    have hklast := Nat.lt_of_lt_of_le hkq hqlast
    have hcold := hold (k + 1) c (Nat.le_succ_of_le hk) hklast hc
    obtain ⟨hlen, hget⟩ := List.getElem?_eq_some_iff.mp hc
    obtain ⟨hlen', hget'⟩ := List.getElem?_eq_some_iff.mp hb
    have hstep : g.Follows b c := by
      rw [← hget, ← hget']
      exact hchain.getElem k hlen
    exact (hreal.openStep h hfree (hold k b hk (Nat.le_of_lt hklast) hb) hstep
      (hreal.isFence_eq_false h hfree hcold)).2

namespace PassInput

/-- After a successful run with a fence on every cut edge, every walk of the resulting function that
visits the stages of a collected group in order has a fence between its first visit and its last. -/
theorem run_fences_every_group (f : Function) (h : f.WellFormed) (hfree : f.FenceFree)
    (input : PassInput) (hmitigation : input.settings.mitigation = .fencePerEdge)
    (stats : PassStats) (hok : (input.run f).outcome.result = .ok stats) :
    ∃ plan, (input.plan f).result = .ok plan ∧
      ∀ group ∈ plan.collected.groups, ∀ (walk : List InstId) (places : List Nat),
        walk.IsChain (input.run f).function.Follows →
        VisitsAt plan.graph.StandsIn walk places group.stages →
        FencedBetween (input.run f).function walk places := by
  obtain ⟨plan, hplan⟩ := exists_plan_of_run hmitigation hok
  have hfunction := (run_of_plan hmitigation hplan).1
  obtain ⟨-, -, -, -, hgraph, -, hcut⟩ := plan_eq_ok_iff.mp hplan
  have hseparate := separate_of_cutFor hmitigation hcut
  refine ⟨plan, hplan, ?_⟩
  have hall := separate_separatesAll plan.graph.control.digraph_consistent hseparate
  have hne := stages_ne_nil_of_separate hseparate
  rw [hgraph] at hall hfunction ⊢
  have hjoins : ∀ e ∈ plan.cut.toList, ∃ src dst,
      Placer.Joins f (.frequency input.settings.baseWeight) e src dst :=
    fun e he => (DependenceGraph.control_joins_iff h).mp (hall.finite e he).1
  obtain ⟨htracks, -, hstopped⟩ := (Placer.tracks_start h).place h hjoins
  rw [hfunction]
  have hreal : Realises f _ (.frequency input.settings.baseWeight) plan.cut :=
    ⟨htracks.decorates, hstopped⟩
  intro group hgroup walk places hchain hvisits
  exact hreal.fencedBetween h hfree (hne group hgroup) (hall.separated group hgroup) hchain hvisits

def pointerChaseGroups : CollectedGroups :=
  ⟨[⟨[.singleton 2, .singleton 3]⟩], .singleton 1, .singleton 2⟩

theorem plan_pointerChase : (plain.plan pointerChase).result =
    .ok ⟨.ofFunction pointerChase (.uniform 1000), pointerChaseGroups, .singleton ⟨2, 3⟩⟩ := by
  have hblocks : ∀ b < pointerChase.params.size,
      (b ∈ pointerChase.blocks ∧ pointerChase.reachable.has b = true) ∧
        BlockWeighting.estimate pointerChase 1000 b = 1000 := by
    intro b hb
    obtain rfl : b = 0 := Nat.lt_one_iff.mp hb
    exact ⟨⟨by decide +kernel, by cbv⟩, by cbv⟩
  have hgraph : plain.graph pointerChase = .ofFunction pointerChase (.uniform 1000) :=
    DependenceGraph.ofFunction_frequency_eq_uniform hblocks
  refine plan_eq_ok_iff.mpr ⟨pointerChaseTaint, none, ?_, rfl, hgraph.symm, ?_, ?_⟩
  · cbv
  · cbv
  · cbv

/-- The fence between the second load and the third separates the one group of the pointer chase. -/
theorem run_pointerChase :
    (plain.run pointerChase).outcome.result = .ok ⟨1, 0, 1, 1, 1, 1000⟩ ∧
      ∃ plan, (plain.plan pointerChase).result = .ok plan ∧
        ∀ group ∈ plan.collected.groups, ∀ (walk : List InstId) (places : List Nat),
          walk.IsChain (plain.run pointerChase).function.Follows →
          VisitsAt plan.graph.StandsIn walk places group.stages →
          FencedBetween (plain.run pointerChase).function walk places := by
  have hok : (plain.run pointerChase).outcome.result = .ok ⟨1, 0, 1, 1, 1, 1000⟩ := by
    rw [(run_of_plan rfl plan_pointerChase).2, report_result rfl]
    cbv
  exact ⟨hok, run_fences_every_group pointerChase (by decide +kernel) (by decide +kernel) plain rfl _
    hok⟩

end PassInput

end SpecFence
