import SpecFence.Proofs.Collected
import SpecFence.Proofs.Separation

/-!
# Groups that ask for a branch first

When groups ask for a branch, a cut stops every walk that passes a conditional branch, then an origin
of what an instruction transmits, and then that instruction, as long as the branch is a waypoint.  A
branch is none if it comes directly after an instruction that is its own origin: there the branch
stands for the origin.  If there are other branches in the function, walks past such a branch alone
may be left as they are.
-/

set_option autoImplicit false

namespace SpecFence

/-- Conditional branches and table branches. -/
def Function.IsConditional (f : Function) (i : InstId) : Prop :=
  f.opcode i = .brif ∨ f.opcode i = .brTable

instance (f : Function) (i : InstId) : Decidable (f.IsConditional i) :=
  inferInstanceAs (Decidable (f.opcode i = .brif ∨ f.opcode i = .brTable))

theorem Function.IsConditional.isBranch {f : Function} {i : InstId} (hi : f.IsConditional i) :
    (f.opcode i).isBranch = true := by
  rcases hi with hi | hi
  · rw [hi]
    rfl
  · rw [hi]
    rfl

theorem Function.WellFormed.isBranch_of_follows_self {f : Function} (h : f.WellFormed) {i : InstId}
    (hstep : f.Follows i i) : (f.opcode i).isBranch = true := by
  rcases hstep with ⟨b, hadjacent⟩ | ⟨s, t, hlast, ht, -⟩
  · have hpair := (h.nodup_blockInsts b).sublist hadjacent.sublist
    exact absurd List.mem_cons_self (List.nodup_cons.mp hpair).1
  · obtain ⟨branch, hlast', hbranch, -⟩ := Function.mem_flowSuccs.mp ht
    obtain rfl := Option.some_inj.mp (hlast.symm.trans hlast')
    exact hbranch

namespace DependenceGraph

/-- A walk stands at an instruction. -/
def StandsAt (graph : DependenceGraph) (walk : List Node) (place : Nat) (i : InstId) : Prop :=
  ∃ n, walk[place]? = some n ∧ graph.inst? n = some i

/-- A walk passes an instruction, at the same place or later a second one, and after at least one more
step a third one. -/
def PassesInTurn (graph : DependenceGraph) (walk : List Node) (b o i : InstId) : Prop :=
  ∃ p q r, p ≤ q ∧ q < r ∧ graph.StandsAt walk p b ∧ graph.StandsAt walk q o ∧
    graph.StandsAt walk r i

end DependenceGraph

/-- A walk uses an edge of a cut. -/
def UsesCut (walk : List Node) (cut : Cut) : Prop :=
  ∃ e ∈ cut, Adjacent walk e.src e.dst

theorem isChain_of_not_usesCut {walk : List Node} {R : Node → Node → Prop} {cut : Cut}
    (hchain : walk.IsChain R) (hnot : ¬ UsesCut walk cut) :
    walk.IsChain fun u v => R u v ∧ (⟨u, v⟩ : Edge) ∉ cut := by
  induction walk with
  | nil => exact .nil
  | cons u rest ih =>
    have hrest : ¬ UsesCut rest cut := by
      rintro ⟨e, he, hadjacent⟩
      exact hnot ⟨e, he, adjacent_cons.mpr (Or.inr hadjacent)⟩
    cases rest with
    | nil => exact .singleton u
    | cons v rest =>
      obtain ⟨hstep, htail⟩ := List.isChain_cons_cons.mp hchain
      refine .cons_cons ⟨hstep, ?_⟩ (ih htail hrest)
      intro hmem
      exact hnot ⟨⟨u, v⟩, hmem, adjacent_cons.mpr (Or.inl ⟨rfl, rfl⟩)⟩

namespace GroupInput

variable {input : GroupInput} {f : Function} {weighting : BlockWeighting} {x : ValueId}
  {kind : Transmission} {sink u : Node} {b i o : InstId} {walk : List Node}

/-- An origin of an operand that a group is made of. -/
def Collects (input : GroupInput) (x : ValueId) (kind : Transmission) (o : InstId) : Prop :=
  ∃ u, (o, u) ∈ input.originsOf x kind

/-- A branch that stands for an instruction which is an origin of its own operand, while there is
another one that does not. -/
def Overlooks (input : GroupInput) (i : InstId) (x : ValueId) (kind : Transmission) (b : InstId) :
    Prop :=
  input.Collects x kind i ∧ input.function.Follows i b ∧
    ∃ c ∈ input.function.layoutInsts, input.function.IsConditional c ∧ ¬ input.function.Follows i c

section Stages

variable (h : input.function.WellFormed) (hgraph : input.graph = .ofFunction input.function weighting)

include hgraph in
theorem mem_branchNodes_iff (hwaypoints : input.settings.branchWaypoints = true) :
    u ∈ input.branchNodes ↔
      ∃ b, input.graph.inst? u = some b ∧ input.function.IsConditional b := by
  unfold branchNodes
  rw [if_pos hwaypoints, AscSet.mem_ofList, List.mem_filter, List.mem_range, Option.any_eq_true]
  simp only [Bool.or_eq_true, beq_iff_eq]
  refine and_iff_right_of_imp ?_
  rintro ⟨b, hb, -⟩
  rw [hgraph] at hb ⊢
  change u < (DependenceGraph.pointsOf input.function).toArray.size
  rw [List.size_toArray]
  exact DependenceGraph.inst?_lt hb

include h hgraph

theorem node_unique {v : Node} (hu : input.graph.inst? u = some i)
    (hv : input.graph.inst? v = some i) : u = v := by
  rw [hgraph] at hu hv
  exact DependenceGraph.inst?_unique h hu hv

theorem mem_next_sink (hsink : input.graph.inst? sink = some i)
    (hu : input.graph.inst? u = some b) :
    u ∈ input.graph.digraph.next sink ↔ input.function.Follows i b := by
  rw [hgraph] at hsink hu ⊢
  exact PassInput.mem_next_iff h hsink hu

variable (hplain : ∀ o, input.Collects x kind o → (input.function.opcode o).isBranch = false)
  (hsink : input.graph.inst? sink = some i)
include hplain hsink

/-- From an origin that it passes on to the sink, a walk stands in the source stage: at the origin, or
right behind it if the origin is the sink itself. -/
theorem exists_place_sourceStage (ho : input.Collects x kind o)
    (hchain : walk.IsChain fun u v => 0 < input.graph.control.weight u v) {q r : Nat} (hqr : q < r)
    (hq : input.graph.StandsAt walk q o) (hr : walk[r]? = some sink) :
    ∃ place u, q ≤ place ∧ place ≤ r ∧ walk[place]? = some u ∧
      u ∈ input.sourceStage sink (input.originsOf x kind) := by
  obtain ⟨n, hmem⟩ := id ho
  obtain ⟨m, hm, hmo⟩ := hq
  obtain ⟨-, -, hno⟩ := (mem_originsOf_iff h hgraph).mp hmem
  obtain rfl := node_unique h hgraph hmo hno
  by_cases hn : m = sink
  · obtain rfl : o = i := Option.some_inj.mp (hno.symm.trans (hn ▸ hsink))
    have hlt := (List.getElem?_eq_some_iff.mp hr).1
    have hnext : walk[q + 1]? = some walk[q + 1] := List.getElem?_eq_getElem (by omega)
    have hstep : 0 < input.graph.control.weight m walk[q + 1] := by
      rw [← (List.getElem?_eq_some_iff.mp hm).2]
      exact hchain.getElem q (by omega)
    rw [hgraph] at hstep
    obtain ⟨o', j, ho', hj, hfollows⟩ := (DependenceGraph.control_joins_iff h).mp hstep
    rw [← hgraph] at ho' hj
    obtain rfl := Option.some_inj.mp (hno.symm.trans ho')
    refine ⟨q + 1, walk[q + 1], Nat.le_succ q, hqr, hnext, PassInput.mem_sourceStage.mpr
      ⟨?_, (o, m), hmem, Or.inr ⟨hn, (mem_next_sink h hgraph hsink hj).mpr hfollows⟩⟩⟩
    intro heq
    obtain rfl := Option.some_inj.mp (hj.symm.trans (heq ▸ hsink))
    have hbranch := h.isBranch_of_follows_self hfollows
    rw [hplain _ ho] at hbranch
    cases hbranch
  · exact ⟨q, m, Nat.le_refl q, Nat.le_of_lt hqr, hm,
      PassInput.mem_sourceStage.mpr ⟨hn, (o, m), hmem, Or.inl ⟨hn, rfl⟩⟩⟩

theorem mem_waypoints (hwaypoints : input.settings.branchWaypoints = true)
    (hu : input.graph.inst? u = some b) (hb : input.function.IsConditional b)
    (hnot : ¬ input.Overlooks i x kind b)
    (hsome : (input.branchNodes.difference
      (input.sourceStage sink (input.originsOf x kind))).isEmpty = false) :
    u ∈ input.branchNodes.difference (input.sourceStage sink (input.originsOf x kind)) := by
  refine AscSet.mem_difference.mpr
    ⟨(mem_branchNodes_iff hgraph hwaypoints).mpr ⟨b, hu, hb⟩, fun hstage => ?_⟩
  obtain ⟨-, ⟨o, n⟩, hmem, hcase⟩ := PassInput.mem_sourceStage.mp hstage
  obtain ⟨-, -, hn⟩ := (mem_originsOf_iff h hgraph).mp hmem
  rcases hcase with ⟨-, rfl⟩ | ⟨rfl, hnext⟩
  · -- no origin is a branch
    obtain rfl := Option.some_inj.mp (hn.symm.trans hu)
    have hbranch := hb.isBranch
    rw [hplain o ⟨u, hmem⟩] at hbranch
    cases hbranch
  · -- another waypoint does not come after the sink
    obtain rfl := Option.some_inj.mp (hn.symm.trans hsink)
    obtain ⟨w, hw⟩ : ∃ w, w ∈ input.branchNodes.difference
        (input.sourceStage n (input.originsOf x kind)) := by
      by_contra hnone
      rw [AscSet.isEmpty_iff.mpr fun w hw => hnone ⟨w, hw⟩] at hsome
      cases hsome
    obtain ⟨hwbranch, hwstage⟩ := AscSet.mem_difference.mp hw
    obtain ⟨c, hwc, hc⟩ := (mem_branchNodes_iff hgraph hwaypoints).mp hwbranch
    refine hnot ⟨⟨n, hmem⟩, (mem_next_sink h hgraph hsink hu).mp hnext, c,
      DependenceGraph.mem_layoutInsts_of_inst? (hgraph ▸ hwc), hc, fun hfollows => hwstage ?_⟩
    refine PassInput.mem_sourceStage.mpr ⟨?_, (o, n), hmem,
      Or.inr ⟨rfl, (mem_next_sink h hgraph hsink hwc).mpr hfollows⟩⟩
    rintro rfl
    obtain rfl := Option.some_inj.mp (hn.symm.trans hwc)
    have hbranch := hc.isBranch
    rw [hplain o ⟨w, hmem⟩] at hbranch
    cases hbranch

theorem exists_visited (hwaypoints : input.settings.branchWaypoints = true)
    (hkept : input.leavesOut x kind = false) (ho : input.Collects x kind o)
    (hb : input.function.IsConditional b) (hnot : ¬ input.Overlooks i x kind b)
    (hchain : walk.IsChain fun u v => 0 < input.graph.control.weight u v)
    (hpasses : input.graph.PassesInTurn walk b o i) :
    ∃ group, input.groupOf? input.branchNodes sink (x, kind) = some group ∧
      group.VisitedBy walk := by
  obtain ⟨p, q, r, hpq, hqr, ⟨u, hp, hu⟩, hq, n, hr, hn⟩ := hpasses
  obtain rfl := node_unique h hgraph hn hsink
  obtain ⟨place, v, hqplace, hplacer, hv, hstage⟩ :=
    exists_place_sourceStage h hgraph hplain hsink ho hchain hqr hq hr
  have hnonempty : (input.sourceStage n (input.originsOf x kind)).isEmpty = false := by
    rw [Bool.eq_false_iff]
    exact fun hempty => AscSet.isEmpty_iff.mp hempty v hstage
  refine ⟨⟨stagesOf input.branchNodes (input.sourceStage n (input.originsOf x kind)) n⟩, ?_, ?_⟩
  · unfold groupOf?
    dsimp only
    rw [hkept, hnonempty]
    rfl
  · have hlast : List.Forall₂ (fun p s => ∃ v, walk[p]? = some v ∧ v ∈ s) [place, r]
        [input.sourceStage n (input.originsOf x kind), .singleton n] :=
      .cons ⟨v, hv, hstage⟩ (.cons ⟨n, hr, AscSet.mem_singleton.mpr rfl⟩ .nil)
    unfold WaypointGroup.VisitedBy stagesOf
    dsimp only
    split
    · exact ⟨[place, r], by simpa using hplacer, hlast⟩
    · rename_i hsome
      rw [Bool.not_eq_true] at hsome
      have hwaypoint := mem_waypoints h hgraph hplain hsink hwaypoints hu hb hnot hsome
      have hpplace : p ≤ place := hpq.trans hqplace
      have hfirst : ∀ later ∈ [place, r], p ≤ later :=
        List.forall_mem_cons.mpr ⟨hpplace, List.forall_mem_singleton.mpr (hpplace.trans hplacer)⟩
      exact ⟨[p, place, r], List.pairwise_cons.mpr ⟨hfirst, by simpa using hplacer⟩,
        .cons ⟨u, hp, hwaypoint⟩ hlast⟩

end Stages

end GroupInput

namespace PassInput

/-- What groups are collected from in a function, given its taint and the public values that are left
out. -/
def collecting (input : PassInput) (f : Function) (taint : SpeculativeTaint)
    (publicValues : Option PublicValues) : GroupInput :=
  ⟨input.taintInput f, input.settings, input.graph f, taint, publicValues⟩

/-- After a successful run in which groups ask for a branch, every walk that passes a conditional
branch, then an origin of a transmitted operand, and after another step the transmitting instruction
uses an edge of the cut, unless the branch is overlooked. -/
theorem branch_waypoints_cut (f : Function) (h : f.WellFormed) (input : PassInput)
    (hmitigation : input.settings.mitigation = .fencePerEdge)
    (hwaypoints : input.settings.branchWaypoints = true) (stats : PassStats)
    (hok : (input.run f).outcome.result = .ok stats) :
    ∃ plan taint publicValues, (input.plan f).result = .ok plan ∧
      SpeculativeTaint.compute (input.taintInput f) = .ok taint ∧
      input.publicValues? (input.taintInput f) = .ok publicValues ∧
      ∀ i ∈ f.layoutInsts, ∀ operands, f.transmitters input.table i = .ok operands →
        ∀ x kind, (x, kind) ∈ operands →
          (input.collecting f taint publicValues).leavesOut x kind = false →
          ∀ o, (input.collecting f taint publicValues).Collects x kind o →
            ∀ b, f.IsConditional b →
              ¬ (input.collecting f taint publicValues).Overlooks i x kind b →
              ∀ walk : List Node,
                walk.IsChain (fun u v => 0 < (input.graph f).control.weight u v) →
                (input.graph f).PassesInTurn walk b o i → UsesCut walk plan.cut := by
  obtain ⟨plan, hplan⟩ := exists_plan_of_run hmitigation hok
  obtain ⟨taint, publicValues, htaint, hpublic, hgraph, hcollect, hcut⟩ := plan_eq_ok_iff.mp hplan
  rw [hgraph] at hcollect hcut
  refine ⟨plan, taint, publicValues, hplan, htaint, hpublic, ?_⟩
  intro i hi operands hoperands x kind hmem hkept o ho b hb hnot walk hchain hpasses
  obtain ⟨sink, hsink⟩ : ∃ sink, (input.graph f).inst? sink = some i :=
    DependenceGraph.exists_node hi
  have hwf : (input.collecting f taint publicValues).function.WellFormed := h
  have hplain : ∀ o, (input.collecting f taint publicValues).Collects x kind o →
      (f.opcode o).isBranch = false := by
    rintro o ⟨u, hu⟩
    exact SpeculativeTaint.isBranch_of_mem_originsOf htaint
      ((GroupInput.mem_originsOf_iff hwf rfl).mp hu).1
  obtain ⟨group, hgroup, places, hplaces⟩ :=
    GroupInput.exists_visited hwf rfl hplain hsink hwaypoints hkept ho hb hnot hchain hpasses
  have hemitted : group ∈ plan.collected.groups := by
    obtain ⟨out, hout, hgroups⟩ := GroupInput.collect_eq_ok (input.collecting f taint publicValues)
      (fun j hj => (DependenceGraph.exists_node hj).imp fun n hn =>
        (DependenceGraph.instNode?_eq_some_iff h).mpr hn)
      fun j hj => SpeculativeTaint.exists_transmitters_of_compute htaint hj
    obtain rfl : out = plan.collected := Except.ok.inj (hout.symm.trans hcollect)
    exact (hgroups group).mpr ⟨i, hi, sink, operands,
      (DependenceGraph.instNode?_eq_some_iff h).mpr hsink, hoperands, (x, kind), hmem, hgroup⟩
  have hseparate := separate_of_cutFor hmitigation hcut
  have hall := separate_separatesAll (input.graph f).control.digraph_consistent hseparate
  by_contra hunused
  exact hall.separated group hemitted (threaded_of_visitsAt
    (stages_ne_nil_of_separate hseparate group hemitted)
    (isChain_of_not_usesCut hchain hunused) hplaces)

/-- A loop in which a load loads the address for the next iteration, before a conditional branch that
stays in the loop or leaves it for the first of some more blocks. -/
def chaseLoopThen (exit : List BlockSpec) : Function := .build ⟨.numbered 0 0, [], [],
  [⟨[⟨.i64, 1⟩, ⟨.i32, 1⟩], [⟨.jump, [], .targets [⟨1, [0]⟩], none, []⟩]⟩,
    ⟨[⟨.i64, 1⟩], [⟨.load, [2], .offset 0, some ⟨.i64, 1⟩, [⟨.i64, 1⟩]⟩,
      ⟨.brif, [1], .targets [⟨1, [3]⟩, ⟨2, []⟩], none, []⟩]⟩] ++ exit, none⟩

def chaseLoop : Function := chaseLoopThen [⟨[], [⟨.ret, [], .none, none, []⟩]⟩]

def chaseLoopThenBranch : Function := chaseLoopThen
  [⟨[], [⟨.brif, [1], .targets [⟨3, []⟩, ⟨4, []⟩], none, []⟩]⟩,
    ⟨[], [⟨.ret, [], .none, none, []⟩]⟩, ⟨[], [⟨.ret, [], .none, none, []⟩]⟩]

theorem chaseLoop_wellFormed : chaseLoop.WellFormed := by
  unfold chaseLoop chaseLoopThen
  exact Function.build_wellFormed (by decide)

theorem chaseLoopThenBranch_wellFormed : chaseLoopThenBranch.WellFormed := by
  unfold chaseLoopThenBranch chaseLoopThen
  exact Function.build_wellFormed (by decide)

def branching : PassInput :=
  { plain with settings := { Settings.default with branchWaypoints := true, baseWeight := 1 } }

def chaseLoopTaint : SpeculativeTaint :=
  ⟨.ofList [2, 3], #[.empty, .empty, .singleton 1, .singleton 1]⟩

theorem graph_chaseLoop : branching.graph chaseLoop = .ofFunction chaseLoop (.uniform 1) := by
  apply DependenceGraph.ofFunction_frequency_eq_uniform
  change ∀ b < 3, _
  intro b hb
  interval_cases b <;> exact ⟨⟨by decide +kernel, by cbv⟩, by cbv⟩

theorem graph_chaseLoopThenBranch :
    branching.graph chaseLoopThenBranch = .ofFunction chaseLoopThenBranch (.uniform 1) := by
  apply DependenceGraph.ofFunction_frequency_eq_uniform
  change ∀ b < 5, _
  intro b hb
  interval_cases b <;> exact ⟨⟨by decide +kernel, by cbv⟩, by cbv⟩

theorem originsOf_chaseLoop :
    (branching.collecting chaseLoop chaseLoopTaint none).originsOf 2 .always = [(1, 4)] := by
  unfold collecting
  rw [graph_chaseLoop]
  cbv

theorem originsOf_chaseLoopThenBranch :
    (branching.collecting chaseLoopThenBranch chaseLoopTaint none).originsOf 2 .always =
      [(1, 4)] := by
  unfold collecting
  rw [graph_chaseLoopThenBranch]
  cbv

theorem plan_chaseLoop : (branching.plan chaseLoop).result = .ok
    ⟨.ofFunction chaseLoop (.uniform 1), ⟨[⟨[.singleton 5, .singleton 4]⟩], .singleton 1,
      .singleton 1⟩, .singleton ⟨5, 4⟩⟩ := by
  refine plan_eq_ok_iff.mpr ⟨chaseLoopTaint, none, ?_, rfl, graph_chaseLoop.symm, ?_, ?_⟩
  · cbv
  · cbv
  · cbv

theorem plan_chaseLoopThenBranch : (branching.plan chaseLoopThenBranch).result = .ok
    ⟨.ofFunction chaseLoopThenBranch (.uniform 1),
      ⟨[⟨[.singleton 6, .singleton 5, .singleton 4]⟩], .singleton 1, .singleton 1⟩, .empty⟩ := by
  refine plan_eq_ok_iff.mpr ⟨chaseLoopTaint, none, ?_, rfl, graph_chaseLoopThenBranch.symm, ?_, ?_⟩
  · cbv
  · cbv
  · cbv

def aroundChase : List Node := [5, 4, 5, 4]

/-- The way around the loop is cut. -/
theorem branch_waypoints_cut_chaseLoop :
    chaseLoop.WellFormed ∧ (branching.run chaseLoop).outcome.result = .ok ⟨1, 1, 1, 1, 1, 1⟩ ∧
      (branching.graph chaseLoop).PassesInTurn aroundChase 2 1 1 ∧
      ∃ plan, (branching.plan chaseLoop).result = .ok plan ∧ UsesCut aroundChase plan.cut := by
  have hok : (branching.run chaseLoop).outcome.result = .ok ⟨1, 1, 1, 1, 1, 1⟩ := by
    rw [(run_of_plan rfl plan_chaseLoop).2, report_result rfl]
    cbv
  have hpasses : (branching.graph chaseLoop).PassesInTurn aroundChase 2 1 1 := by
    rw [graph_chaseLoop]
    exact ⟨0, 1, 3, by decide, by decide, ⟨5, rfl, by decide +kernel⟩, ⟨4, rfl, by decide +kernel⟩,
      ⟨4, rfl, by decide +kernel⟩⟩
  refine ⟨chaseLoop_wellFormed, hok, hpasses, ?_⟩
  obtain ⟨plan, taint, publicValues, hplan, htaint, hpublic, hall⟩ :=
    branch_waypoints_cut chaseLoop chaseLoop_wellFormed branching rfl rfl _ hok
  obtain rfl : chaseLoopTaint = taint := Except.ok.inj (Eq.trans (by cbv) htaint)
  obtain rfl : none = publicValues := Except.ok.inj (Eq.trans (by rfl) hpublic)
  refine ⟨plan, hplan, hall 1 (by decide +kernel) [(2, .always)] (by cbv) 2 .always
    List.mem_cons_self rfl 1 ⟨4, ?_⟩ 2 (by decide +kernel) ?_ aroundChase ?_ hpasses⟩
  · rw [originsOf_chaseLoop]
    exact List.mem_singleton.mpr rfl
  · rintro ⟨-, -, c, hc, hconditional, hnot⟩
    have hbranch : ∀ c ∈ chaseLoop.layoutInsts, chaseLoop.IsConditional c → c = 2 := by
      decide +kernel
    obtain rfl := hbranch c hc hconditional
    have hinsts : chaseLoop.blockInsts 1 = [1, 2] := by decide +kernel
    exact hnot (Or.inl ⟨1, hinsts ▸ adjacent_cons.mpr (Or.inl ⟨rfl, rfl⟩)⟩)
  · rw [graph_chaseLoop]
    decide +kernel

/-- With another branch behind the loop, nothing is cut: the branch of the loop is overlooked. -/
theorem branch_waypoints_chaseLoopThenBranch :
    chaseLoopThenBranch.WellFormed ∧ branching.settings.branchWaypoints = true ∧
      (branching.run chaseLoopThenBranch).outcome.result = .ok ⟨0, 0, 1, 1, 1, 0⟩ ∧
      ∃ plan, (branching.plan chaseLoopThenBranch).result = .ok plan ∧
        SpeculativeTaint.compute (branching.taintInput chaseLoopThenBranch) = .ok chaseLoopTaint ∧
        chaseLoopThenBranch.transmitters branching.table 1 = .ok [(2, .always)] ∧
        (branching.collecting chaseLoopThenBranch chaseLoopTaint none).Collects 2 .always 1 ∧
        chaseLoopThenBranch.IsConditional 2 ∧
        aroundChase.IsChain
          (fun u v => 0 < (branching.graph chaseLoopThenBranch).control.weight u v) ∧
        (branching.graph chaseLoopThenBranch).PassesInTurn aroundChase 2 1 1 ∧
        ¬ UsesCut aroundChase plan.cut := by
  refine ⟨chaseLoopThenBranch_wellFormed, rfl, ?_, _, plan_chaseLoopThenBranch, by cbv, by cbv,
    ⟨4, ?_⟩, by decide +kernel, ?_, ?_, ?_⟩
  · rw [(run_of_plan rfl plan_chaseLoopThenBranch).2, report_result rfl]
    cbv
  · rw [originsOf_chaseLoopThenBranch]
    exact List.mem_singleton.mpr rfl
  · rw [graph_chaseLoopThenBranch]
    decide +kernel
  · rw [graph_chaseLoopThenBranch]
    exact ⟨0, 1, 3, by decide, by decide, ⟨5, rfl, by decide +kernel⟩, ⟨4, rfl, by decide +kernel⟩,
      ⟨4, rfl, by decide +kernel⟩⟩
  · rintro ⟨e, he, -⟩
    exact absurd he (AscSet.not_mem_empty e)

end PassInput

end SpecFence
