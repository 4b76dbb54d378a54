import SpecFence.Proofs.SettledPlacement
import SpecFence.Proofs.SourceFences

/-!
# What the statistics say

Every fence that a placer counts stands in the layout, and every edge that it counts has a block of
its own there.  The sinks that a run reports are the transmitters of the emitted groups.  The
sources are the origins that the groups were built from, and with them each instruction that feeds
itself only and that nothing follows, though no group is emitted for it.
-/

set_option autoImplicit false

namespace SpecFence

namespace Function

variable {f g : Function} {i : InstId} {s t : BlockId} {branch : InstId} {types : List Ty}
  {uniform : Bool} {passed : List ValueId}

def fenceCount (f : Function) : Nat := f.layoutInsts.countP f.isFence

theorem fenceCount_of_added (h : f.WellFormed) (hdecorates : Decorates f g) {new : List InstId}
    (hnodup : new.Nodup) (hfresh : ∀ j ∈ new, f.insts.size ≤ j)
    (hmem : ∀ j, j ∈ g.layoutInsts ↔ j ∈ new ∨ j ∈ f.layoutInsts) :
    g.fenceCount = f.fenceCount + new.countP g.isFence := by
  have hnodup' : (new ++ f.layoutInsts).Nodup := by
    refine List.nodup_append.mpr ⟨hnodup, h.insts_nodup, ?_⟩
    rintro a ha b hb rfl
    exact Nat.not_lt_of_le (hfresh a ha) (h.insts_lt a hb)
  have hperm : g.layoutInsts.Perm (new ++ f.layoutInsts) := by
    rw [List.perm_ext_iff_of_nodup hdecorates.wellFormed.insts_nodup hnodup']
    simpa using hmem
  have hsame : f.layoutInsts.countP g.isFence = f.layoutInsts.countP f.isFence :=
    List.countP_congr fun i hi => by rw [hdecorates.isFence_eq (h.insts_lt i hi)]
  unfold fenceCount
  rw [hperm.countP_eq, List.countP_append, hsame, Nat.add_comm]

theorem fenceCount_withFenceBefore (h : f.WellFormed) (hi : i ∈ f.layoutInsts) :
    (f.withFenceBefore i).fenceCount = f.fenceCount + 1 := by
  have hdecorates := decorates_withFenceBefore (i := i) h
  have hmem : ∀ j, j ∈ (f.withFenceBefore i).layoutInsts ↔
      j ∈ [f.insts.size] ∨ j ∈ f.layoutInsts := by
    intro j
    rw [List.mem_singleton]
    constructor
    · exact fun hj => (mem_layoutInsts_withFenceBefore h hj).symm
    · rintro (rfl | hold)
      · obtain ⟨b, hb⟩ := h.mem_layoutInsts.mp hi
        have hnew : f.insts.size ∈ (f.withFenceBefore i).blockInsts b := by
          rw [blockInsts_withFenceBefore]
          exact (adjacent_insertBeforeIn_self hb).mem_left
        exact hdecorates.wellFormed.mem_layoutInsts.mpr ⟨b, hnew⟩
      · exact hdecorates.mem_layoutInsts h hold
  rw [fenceCount_of_added h hdecorates (by simp) (by simp) hmem]
  simp [isFence_withFenceBefore]

theorem FencedSplit.fenceCount (h : f.WellFormed) (hsplit : FencedSplit f g s t)
    (hedge : t ∈ f.flowSuccs s) : g.fenceCount = f.fenceCount + 1 := by
  have hwf := hsplit.decorates.wellFormed
  have hmem : ∀ j, j ∈ g.layoutInsts ↔
      j ∈ [f.insts.size + 1, f.insts.size] ∨ j ∈ f.layoutInsts := by
    intro j
    rw [hwf.mem_layoutInsts, h.mem_layoutInsts]
    constructor
    · rintro ⟨b, hb⟩
      by_cases hnew : b = f.params.size
      · rw [hnew, hsplit.blockInsts_new] at hb
        exact Or.inl hb
      · rw [hsplit.blockInsts_old b hnew] at hb
        exact Or.inr ⟨b, hb⟩
    · rintro (hnew | ⟨b, hb⟩)
      · exact ⟨f.params.size, hsplit.blockInsts_new ▸ hnew⟩
      · have hlt := h.blocks_lt b (mem_blocks_of_mem_blockInsts hb)
        exact ⟨b, (hsplit.decorates.sublist b hlt).subset hb⟩
  rw [fenceCount_of_added h hsplit.decorates (by simp) (by simp) hmem]
  simp [hsplit.isFence_fence h hedge, hsplit.isFence_jump]

theorem length_blocks_splitWith (hs : s ∈ f.blocks) :
    (f.splitWith s t branch types uniform passed).blocks.length = f.blocks.length + 1 :=
  (perm_blocks_layAfter _ hs).length_eq

end Function

namespace Placer

open SpecFence.Function

variable {f : Function} {p : Placer}

/-- What was counted while fences were put into a function is what was added to its layout. -/
structure Counts (f : Function) (p : Placer) : Prop where
  wellFormed : p.function.WellFormed
  fences : p.function.fenceCount = f.fenceCount + p.placed.length
  blocks : p.function.blocks.length = f.blocks.length + p.split.length

theorem counts_start (h : f.WellFormed) (mitigation : Mitigation) :
    Counts f (start f mitigation) :=
  ⟨h, rfl, rfl⟩

theorem Counts.fenceBefore (h : Counts f p) (i : InstId) : Counts f (p.fenceBefore i) := by
  by_cases hskip : (p.function.isFence i || p.function.hasFenceBefore i ||
      (p.function.blockOf? i).isNone) = true
  · have hsame : p.fenceBefore i = p := if_pos hskip
    rw [hsame]
    exact h
  · simp only [Bool.or_eq_true, not_or, Bool.not_eq_true, Option.isNone_eq_false_iff,
      Option.isSome_iff_exists] at hskip
    obtain ⟨⟨hfence, hbefore⟩, b, hblock⟩ := hskip
    have hmem := h.wellFormed.mem_layoutInsts.mpr
      ⟨b, h.wellFormed.blockOf?_eq_some_iff.mp hblock⟩
    rw [fenceBefore_of_open h.wellFormed hmem hfence hbefore]
    constructor
    case wellFormed => exact withFenceBefore_wellFormed h.wellFormed
    case fences =>
      have hcount := fenceCount_withFenceBefore h.wellFormed hmem
      have hfences := h.fences
      simp only [List.length_append, List.length_singleton]
      omega
    case blocks =>
      dsimp only
      rw [blocks_withFenceBefore]
      exact h.blocks

theorem Counts.fenceOnEdge (h : Counts f p) (s t : BlockId) : Counts f (p.fenceOnEdge s t) := by
  by_cases hskip : ((p.split.any fun e => e.source == s && e.target == t) ||
      p.function.alreadySplit s t) = true
  · have hsame : p.fenceOnEdge s t = p := if_pos hskip
    rw [hsame]
    exact h
  by_cases hedge : t ∈ p.function.flowSuccs s
  · obtain ⟨branch, types, uniform, passed, hg, hsplits⟩ := exists_splitsEdge hedge
    have hsplit := hsplits.edgeSplit h.wellFormed
    have hfenced := hsplit.fencedSplit h.wellFormed
    rw [fenceOnEdge_of_open hskip hedge hg hsplit]
    constructor
    case wellFormed => exact hfenced.decorates.wellFormed
    case fences =>
      have hcount := hfenced.fenceCount h.wellFormed hedge
      have hfences := h.fences
      simp only [List.length_append, List.length_singleton]
      omega
    case blocks =>
      have hadded :
          (p.function.splitWith s t branch types uniform passed).blocks.length = _ :=
        length_blocks_splitWith hsplits.source_mem
      have hblocks := h.blocks
      dsimp only
      rw [blocks_withFenceBefore]
      simp only [List.length_append, List.length_singleton]
      omega
  · have hwarn : ∃ log, p.fenceOnEdge s t = { p with log := log } := by
      unfold Placer.fenceOnEdge
      rw [if_neg hskip, if_pos hedge]
      exact ⟨_, rfl⟩
    obtain ⟨log, hlog⟩ := hwarn
    rw [hlog]
    exact ⟨h.wellFormed, h.fences, h.blocks⟩

theorem counts_kept (f : Function) : KeptByPlacement (Counts f) :=
  ⟨fun _ h => h.fenceBefore, fun _ h s t _ => h.fenceOnEdge s t,
    fun _ h _ => ⟨h.wellFormed, h.fences, h.blocks⟩⟩

end Placer

namespace PassInput

open SpecFence.Placer

variable {f : Function} {input : PassInput} {plan : PassPlan} {gi : GroupInput}

theorem counts_apply (h : f.WellFormed) (input : PassInput) (plan : PassPlan) :
    Counts f (input.apply f plan) := by
  have hstart := counts_start h input.settings.mitigation
  unfold apply
  split
  · have hcalls : plan.collected.sources.toList.foldl Placer.fenceAfter
        (start f input.settings.mitigation) = (start f input.settings.mitigation).run
          (plan.collected.sources.toList.map .fenceAfter) := by
      unfold Placer.run
      rw [List.foldl_map]
      rfl
    rw [hcalls]
    exact (counts_kept f).run hstart _
  · exact (counts_kept f).place hstart _ _

/-- The statistics of a successful run describe it.  The fences and the split edges are what the
layout has more than before, the sinks are the transmitters of the emitted groups, and the weight is
that of the cut that was placed.  The sources are the origins of the emitted groups together with
the dead ends. -/
theorem stats_describe_run (f : Function) (h : f.WellFormed) (input : PassInput) (stats : PassStats)
    (hok : (input.run f).outcome.result = .ok stats) :
    (input.run f).function.fenceCount = f.fenceCount + stats.fencesInserted ∧
      (input.run f).function.blocks.length = f.blocks.length + stats.edgesSplit ∧
      (input.settings.mitigation = .none → stats = .zero) ∧
      (input.settings.mitigation ≠ .none → ∃ plan gi, (input.plan f).result = .ok plan ∧
        (input.run f).function = (input.apply f plan).function ∧
        input.CollectsFrom f gi ∧ gi.collect.result = .ok plan.collected ∧
        stats.sinks =
          {i | ∃ group ∈ plan.collected.groups, (input.graph f).Transmits group i}.ncard ∧
        stats.sources =
          {o | (∃ group ∈ plan.collected.groups, gi.BuiltFrom group o) ∨ gi.DeadEnd o}.ncard ∧
        stats.cutWeight = cutWeight (input.graph f).digraph plan.cut.toList ∧
        (input.settings.mitigation = .fenceAfterSource → stats.cutWeight = 0)) := by
  by_cases hnone : input.settings.mitigation = .none
  · unfold run at hok ⊢
    rw [if_pos hnone] at hok ⊢
    rw [← Recorded.pure_result_eq_ok_iff.mp hok]
    exact ⟨rfl, rfl, fun _ => rfl, fun hsome => absurd hnone hsome⟩
  obtain ⟨plan, hplan, hfunction, rfl⟩ := exists_applied hnone hok
  obtain ⟨hgraph, gi, hgi, hcollect⟩ := exists_collectsFrom hplan
  have hgathers := GroupInput.gathers_collect hcollect
  have hcounts := counts_apply h input plan
  have hsinks : {i | ∃ group ∈ plan.collected.groups, (input.graph f).Transmits group i} =
      {i | i ∈ plan.collected.sinks} := by
    ext i
    exact (hgi.mem_sinks_iff h hgathers).symm
  have hsources : {o | (∃ group ∈ plan.collected.groups, gi.BuiltFrom group o) ∨ gi.DeadEnd o} =
      {o | o ∈ plan.collected.sources} := by
    ext o
    exact (hgi.mem_sources_iff h hgathers).symm
  rw [hfunction]
  refine ⟨hcounts.fences, hcounts.blocks, fun hmitigation => absurd hmitigation hnone, fun _ => ?_⟩
  refine ⟨plan, gi, hplan, rfl, hgi, hcollect, ?_, ?_, ?_, ?_⟩
  · rw [hsinks, AscSet.ncard_eq_size]
    rfl
  · rw [hsources, AscSet.ncard_eq_size]
    rfl
  · rw [← hgraph]
    rfl
  · intro hbaseline
    obtain ⟨-, -, -, -, -, -, hcut⟩ := plan_eq_ok_iff.mp hplan
    unfold cutFor at hcut
    rw [if_pos hbaseline] at hcut
    unfold statsOf
    rw [← Recorded.pure_result_eq_ok_iff.mp hcut]
    rfl

/-- The edge around the loop is split for the one fence. -/
theorem stats_describe_run_chaseLoop :
    chaseLoop.WellFormed ∧ (branching.run chaseLoop).outcome.result = .ok ⟨1, 1, 1, 1, 1, 1⟩ ∧
      (branching.run chaseLoop).function.fenceCount = 1 ∧
      (branching.run chaseLoop).function.blocks.length = 4 ∧
      ∃ plan gi, (branching.plan chaseLoop).result = .ok plan ∧
        branching.CollectsFrom chaseLoop gi ∧ gi.collect.result = .ok plan.collected ∧
        {i | ∃ group ∈ plan.collected.groups,
          (branching.graph chaseLoop).Transmits group i}.ncard = 1 ∧
        {o | (∃ group ∈ plan.collected.groups, gi.BuiltFrom group o) ∨ gi.DeadEnd o}.ncard = 1 ∧
        cutWeight (branching.graph chaseLoop).digraph plan.cut.toList = 1 := by
  have hok : (branching.run chaseLoop).outcome.result = .ok ⟨1, 1, 1, 1, 1, 1⟩ := by
    rw [(run_of_plan rfl plan_chaseLoop).2, report_result rfl]
    cbv
  obtain ⟨hfences, hblocks, -, hsome⟩ :=
    stats_describe_run chaseLoop chaseLoop_wellFormed branching _ hok
  obtain ⟨plan, gi, hplan, -, hgi, hcollect, hsinks, hsources, hweight, -⟩ := hsome (by decide)
  refine ⟨chaseLoop_wellFormed, hok, ?_, ?_, plan, gi, hplan, hgi, hcollect, hsinks.symm, hsources.symm,
    hweight.symm⟩
  · rw [hfences]
    decide +kernel
  · rw [hblocks]
    decide +kernel

/-- A copy from an address that was loaded from the memory that is copied to, as a tail call. -/
def tailCopy : Function := .build ⟨.numbered 0 0, [8], [],
  [⟨[⟨.i64, 1⟩, ⟨.i64, 1⟩], [⟨.stackLoad, [], .slot 0 0, some ⟨.i64, 1⟩, [⟨.i64, 1⟩]⟩,
    ⟨.returnCall, [0, 2, 1], .callee 0, none, []⟩]⟩], none⟩

def copying : PassInput :=
  { plain with
    settings := { Settings.default with baseWeight := 1 }
    table := (AscMap.empty : IntrinsicTable).insert 0 .memcpy }

def tailCopyTaint : SpeculativeTaint := ⟨.ofList [2], #[.empty, .empty, .singleton 1]⟩

theorem graph_tailCopy : copying.graph tailCopy = .ofFunction tailCopy (.uniform 1) := by
  apply DependenceGraph.ofFunction_frequency_eq_uniform
  intro b hb
  obtain rfl : b = 0 := Nat.lt_one_iff.mp hb
  exact ⟨⟨by decide +kernel, by cbv⟩, by cbv⟩

theorem plan_tailCopy : (copying.plan tailCopy).result =
    .ok ⟨.ofFunction tailCopy (.uniform 1), ⟨[], .singleton 1, .empty⟩, .empty⟩ := by
  refine plan_eq_ok_iff.mpr ⟨tailCopyTaint, none, ?_, rfl, graph_tailCopy.symm, ?_, ?_⟩
  · cbv
  · cbv
  · cbv

/-- The copy is its own origin and nothing follows it, so it is counted as a source without a
group. -/
theorem stats_tailCopy :
    tailCopy.WellFormed ∧ (copying.run tailCopy).outcome.result = .ok ⟨0, 0, 1, 0, 0, 0⟩ ∧
      ∃ plan gi, (copying.plan tailCopy).result = .ok plan ∧ copying.CollectsFrom tailCopy gi ∧
        gi.collect.result = .ok plan.collected ∧
        {o | ∃ group ∈ plan.collected.groups, gi.BuiltFrom group o}.ncard = 0 := by
  have hok : (copying.run tailCopy).outcome.result = .ok ⟨0, 0, 1, 0, 0, 0⟩ := by
    rw [(run_of_plan rfl plan_tailCopy).2, report_result rfl]
    cbv
  obtain ⟨-, gi, hgi, hcollect⟩ := exists_collectsFrom plan_tailCopy
  refine ⟨Function.build_wellFormed (by decide), hok, _, gi, plan_tailCopy, hgi, hcollect, ?_⟩
  simp

end PassInput

end SpecFence
