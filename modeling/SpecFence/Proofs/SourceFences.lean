import SpecFence.Proofs.Offers
import SpecFence.Proofs.PlacedLeaks

/-!
# Fences after sources

A source is no branch, so it has one successor, the next instruction of its block, or none.  A fence
put before that successor stops every way on from the source.  Fences that are put in later stand
before instructions that are no fences, so they do not come between a source and its fence.
-/

set_option autoImplicit false

namespace SpecFence

namespace Function

variable {f : Function} {a b i n x y : InstId} {new anchor : InstId} {l : List InstId}

section Next

theorem after?_eq_some_iff (hl : l.Nodup) : after? i l = some x ↔ Adjacent l i x := by
  induction l with
  | nil => simp [after?, not_adjacent_nil]
  | cons a l ih =>
    rw [List.nodup_cons] at hl
    cases l with
    | nil => simp [after?, adjacent_cons, not_adjacent_nil]
    | cons c l =>
      rw [after?, adjacent_cons, List.head?_cons, Option.some_inj]
      by_cases hai : a = i
      · have hnot : ¬ Adjacent (c :: l) i x := fun h => hl.1 (hai ▸ h.mem_left)
        simp [hai, hnot]
      · have hia : i ≠ a := Ne.symm hai
        simp [hai, hia, ih hl.2]

theorem mem_of_after? (h : after? i l = some x) : i ∈ l := by
  induction l with
  | nil => cases h
  | cons a l ih =>
    cases l with
    | nil => cases h
    | cons c l =>
      by_cases ha : a = i
      · simp [ha]
      · rw [after?, if_neg ha] at h
        exact List.mem_cons_of_mem a (ih h)

theorem WellFormed.nextInst?_eq_some_iff (h : f.WellFormed) :
    f.nextInst? i = some x ↔ ∃ b, Adjacent (f.blockInsts b) i x := by
  have hafter : ∀ b, after? i (f.blockInsts b) = some x ↔ Adjacent (f.blockInsts b) i x :=
    fun b => after?_eq_some_iff (h.nodup_blockInsts b)
  unfold nextInst?
  rw [h.findSome?_layout fun l y => mem_of_after?]
  simp only [hafter]

theorem WellFormed.follows_iff_next (h : f.WellFormed) (hi : (f.opcode i).isBranch = false) :
    f.Follows i x ↔ f.nextInst? i = some x := by
  rw [h.nextInst?_eq_some_iff]
  constructor
  · rintro (hadjacent | ⟨b, t, hlast, ht, -⟩)
    · exact hadjacent
    · obtain ⟨branch, hlast', hbranch, -⟩ := mem_flowSuccs.mp ht
      obtain rfl := Option.some_inj.mp (hlast.symm.trans hlast')
      simp [hi] at hbranch
  · exact Or.inl

theorem adjacent_insertBeforeIn_left (hl : l.Nodup) (h : Adjacent l a anchor) :
    Adjacent (insertBeforeIn new anchor l) a new := by
  induction l with
  | nil => exact absurd h not_adjacent_nil
  | cons y l ih =>
    have hy : y ≠ anchor := by
      rintro rfl
      exact h.ne_head hl rfl
    rw [insertBeforeIn, if_neg hy]
    rcases adjacent_cons.mp h with ⟨rfl, hnext⟩ | hrest
    · simp [adjacent_cons, head?_insertBeforeIn, hnext]
    · exact adjacent_cons.mpr (Or.inr (ih (List.nodup_cons.mp hl).2 hrest))

theorem blocks_withFenceBefore : (f.withFenceBefore i).blocks = f.blocks :=
  blocks_layBefore _ _ _

end Next

end Function

namespace Placer

open SpecFence.Function

variable {f : Function} {p : Placer} {done os : List InstId} {n o x : InstId}

theorem fenceBefore_of_isFence (h : p.function.isFence n = true) : p.fenceBefore n = p := by
  simp [Placer.fenceBefore, h]

theorem fenceBefore_of_open (h : p.function.WellFormed) (hmem : n ∈ p.function.layoutInsts)
    (hfence : p.function.isFence n = false) (hbefore : p.function.hasFenceBefore n = false) :
    p.fenceBefore n = { p with
      function := p.function.withFenceBefore n
      placed := p.placed ++ [⟨p.function.insts.size, .before n⟩] } := by
  obtain ⟨b, hb⟩ := h.mem_layoutInsts.mp hmem
  have hblock := h.blockOf?_eq_some_iff.mpr hb
  unfold Placer.fenceBefore
  rw [if_neg (by simp [hfence, hbefore, hblock])]
  rfl

/-- What holds while fences are put after sources: what was done is stopped, and every new
instruction is a fence behind something that was done. -/
structure Shields (f : Function) (done : List InstId) (p : Placer) : Prop where
  decorates : Decorates f p.function
  blocks : p.function.blocks = f.blocks
  params : p.function.params = f.params
  stopped : ∀ o ∈ done, ∀ x, p.function.Follows o x → p.function.isFence x = true
  behind : ∀ x ∈ p.function.layoutInsts, x ∈ f.layoutInsts ∨ (p.function.isFence x = true ∧
    ∃ o ∈ done, (∃ b, Adjacent (p.function.blockInsts b) o x) ∧ ∃ y, f.Follows o y)

theorem shields_start (h : f.WellFormed) (mitigation : Mitigation) :
    Shields f [] (start f mitigation) :=
  ⟨Decorates.refl h, rfl, rfl, fun _ ho => absurd ho List.not_mem_nil, fun _ hx => Or.inl hx⟩

theorem Shields.more (h : Shields f done p)
    (ho : ∀ x, p.function.Follows o x → p.function.isFence x = true) :
    Shields f (done ++ [o]) p := by
  refine ⟨h.decorates, h.blocks, h.params, ?_, ?_⟩
  · intro o' ho'
    rcases List.mem_append.mp ho' with hdone | hnew
    · exact h.stopped o' hdone
    · obtain rfl := List.mem_singleton.mp hnew
      exact ho
  · intro x hx
    refine (h.behind x hx).imp_right ?_
    rintro ⟨hfence, o', ho', hbehind⟩
    exact ⟨hfence, o', List.mem_append_left [o] ho', hbehind⟩

theorem Shields.withFence (h : Shields f done p) (hdone : ∀ o ∈ done, o < f.insts.size)
    (ho : o < f.insts.size) (hn : p.function.isFence n = false)
    (hadjacent : ∃ b, Adjacent (p.function.blockInsts b) o n)
    (hsole : ∀ x, p.function.Follows o x → x = n) (placed : List PlacedFence) :
    Shields f (done ++ [o])
      { p with function := p.function.withFenceBefore n, placed := placed } := by
  have hwf := h.decorates.wellFormed
  have hstep := decorates_withFenceBefore (i := n) hwf
  have hkept : ∀ x ∈ p.function.layoutInsts, p.function.isFence x = true →
      (p.function.withFenceBefore n).isFence x = true := by
    intro x hx hfence
    rw [hstep.isFence_eq (hwf.insts_lt x hx)]
    exact hfence
  obtain ⟨b, hadjacent⟩ := hadjacent
  constructor
  case decorates => exact h.decorates.trans hstep
  case blocks => exact blocks_withFenceBefore.trans h.blocks
  case params => exact h.params
  case stopped =>
    intro o' ho' x hfollows
    have hsize : o' < f.insts.size := by
      rcases List.mem_append.mp ho' with hold | hnew
      · exact hdone o' hold
      · exact List.mem_singleton.mp hnew ▸ ho
    have hlt := Nat.lt_of_lt_of_le hsize h.decorates.insts_le
    rcases follows_withFenceBefore hwf hlt hfollows with rfl | ⟨hne, hold⟩
    · exact isFence_withFenceBefore
    · rcases List.mem_append.mp ho' with hstopped | hnew
      · exact hkept x (hwf.mem_layoutInsts_of_follows hold) (h.stopped o' hstopped x hold)
      · rw [List.mem_singleton.mp hnew] at hold
        exact absurd (hsole x hold) hne
  case behind =>
    intro x hx
    rcases mem_layoutInsts_withFenceBefore hwf hx with hold | rfl
    · refine (h.behind x hold).imp_right ?_
      rintro ⟨hfence, o', ho', ⟨c, hbehind⟩, hleads⟩
      refine ⟨hkept x hold hfence, o', List.mem_append_left [o] ho', ⟨c, ?_⟩, hleads⟩
      change Adjacent ((p.function.withFenceBefore n).blockInsts c) o' x
      rw [blockInsts_withFenceBefore]
      refine (adjacent_insertBeforeIn hbehind).resolve_right ?_
      rintro ⟨rfl, -⟩
      simp [hn] at hfence
    · refine Or.inr ⟨isFence_withFenceBefore, o, by simp, ⟨b, ?_⟩, ?_⟩
      · change Adjacent ((p.function.withFenceBefore n).blockInsts b) o _
        rw [blockInsts_withFenceBefore]
        exact adjacent_insertBeforeIn_left (hwf.nodup_blockInsts b) hadjacent
      · rcases h.decorates.follows o ho n (Or.inl ⟨b, hadjacent⟩) with ⟨-, hold⟩ | ⟨-, hfence⟩
        · exact ⟨n, hold⟩
        · simp [hn] at hfence

structure IsSource (f : Function) (o : InstId) : Prop where
  laid : o ∈ f.layoutInsts
  isBranch : (f.opcode o).isBranch = false
  isFence : f.isFence o = false

theorem Shields.fenceAfter (hf : f.WellFormed) (h : Shields f done p)
    (hdone : ∀ o ∈ done, IsSource f o) (ho : IsSource f o) :
    Shields f (done ++ [o]) (p.fenceAfter o) := by
  have hwf := h.decorates.wellFormed
  have hlt := hf.insts_lt o ho.laid
  have hfollows : ∀ x, p.function.Follows o x ↔ p.function.nextInst? o = some x := by
    intro x
    apply hwf.follows_iff_next
    rw [h.decorates.opcode_eq o hlt]
    exact ho.isBranch
  unfold Placer.fenceAfter
  cases hnext : p.function.nextInst? o with
  | none =>
    apply h.more
    intro x hx
    simp [hfollows, hnext] at hx
  | some n =>
    dsimp only
    obtain ⟨b, hadjacent⟩ := hwf.nextInst?_eq_some_iff.mp hnext
    have hsole : ∀ x, p.function.Follows o x → x = n := by
      intro x hx
      rw [hfollows, hnext] at hx
      exact (Option.some_inj.mp hx).symm
    cases hn : p.function.isFence n with
    | true =>
      rw [fenceBefore_of_isFence hn]
      apply h.more
      intro x hx
      rw [hsole x hx]
      exact hn
    | false =>
      -- the instruction before `n` is the source, which is no fence
      have hbefore : p.function.hasFenceBefore n = false := by
        rw [Bool.eq_false_iff, ne_eq, hwf.hasFenceBefore_iff]
        rintro ⟨c, x, hx, hfence⟩
        obtain rfl := hwf.block_unique hadjacent.mem_right hx.mem_right
        rw [← hadjacent.left_unique (hwf.nodup_blockInsts b) hx, h.decorates.isFence_eq hlt,
          ho.isFence] at hfence
        cases hfence
      rw [fenceBefore_of_open hwf (hwf.mem_layoutInsts.mpr ⟨b, hadjacent.mem_right⟩) hn hbefore]
      exact h.withFence (fun o ho => hf.insts_lt o (hdone o ho).laid) hlt hn ⟨b, hadjacent⟩ hsole _

theorem Shields.fencesAfter (hf : f.WellFormed) (h : Shields f done p)
    (hdone : ∀ o ∈ done, IsSource f o) (hos : ∀ o ∈ os, IsSource f o) :
    Shields f (done ++ os) (os.foldl Placer.fenceAfter p) := by
  induction os generalizing done p with
  | nil => simpa using h
  | cons o os ih =>
    rw [List.forall_mem_cons] at hos
    have hstep := h.fenceAfter hf hdone hos.1
    have hmore : ∀ o' ∈ done ++ [o], IsSource f o' := by
      intro o' ho'
      rcases List.mem_append.mp ho' with hold | hnew
      · exact hdone o' hold
      · exact List.mem_singleton.mp hnew ▸ hos.1
    rw [List.foldl_cons, List.append_cons]
    exact ih hstep hmore hos.2

end Placer

/-- On a walk a fence comes before any instruction of a function that is no fence. -/
def FencedFirst (f g : Function) (walk : List InstId) : Prop :=
  ∀ (k : Nat) (i : InstId), walk[k]? = some i → i ∈ f.layoutInsts → g.isFence i = false →
    ∃ (m : Nat) (j : InstId), m < k ∧ walk[m]? = some j ∧ g.isFence j = true

namespace PassInput

variable {f : Function} {input : PassInput} {gi : GroupInput} {o : InstId}

theorem CollectsFrom.isSource (hgi : input.CollectsFrom f gi) {v : ValueId}
    (ho : o ∈ gi.taint.originsOf v) : Placer.IsSource f o := by
  have hfunction := hgi.function
  refine ⟨hfunction ▸ SpeculativeTaint.mem_layoutInsts_of_mem_originsOf hgi.taint ho,
    hgi.isBranch v o ho, ?_⟩
  obtain ⟨-, rule, hrule, hkind⟩ := SpeculativeTaint.rule_of_mem_originsOf hgi.taint ho
  rw [Bool.eq_false_iff]
  intro hfence
  have hopcode : gi.taintInput.function.opcode o = .fence := by
    change gi.function.opcode o = .fence
    rw [hfunction]
    exact eq_of_beq hfence
  unfold TaintRule.of at hrule
  rw [hopcode] at hrule
  obtain rfl : TaintRule.policy .noValue = rule := Except.ok.inj hrule
  simp at hkind

/-- After a run that puts fences after sources, every way on from an origin of an emitted group
comes to a fence before it comes to anything else that was there before.  All that is new are fences
directly behind such origins. -/
theorem run_fences_every_source (f : Function) (h : f.WellFormed) (input : PassInput)
    (hmitigation : input.settings.mitigation = .fenceAfterSource) (stats : PassStats)
    (hok : (input.run f).outcome.result = .ok stats) :
    ∃ plan gi, (input.plan f).result = .ok plan ∧ input.CollectsFrom f gi ∧
      gi.collect.result = .ok plan.collected ∧
      (∀ group ∈ plan.collected.groups, ∀ o, gi.BuiltFrom group o → ∀ walk : List InstId,
        (o :: walk).IsChain (input.run f).function.Follows →
          FencedFirst f (input.run f).function walk) ∧
      (∀ x ∈ (input.run f).function.layoutInsts, x ∉ f.layoutInsts →
        (input.run f).function.isFence x = true ∧
          ∃ group ∈ plan.collected.groups, ∃ o, gi.BuiltFrom group o ∧
            ∃ b, Adjacent ((input.run f).function.blockInsts b) o x) ∧
      (input.run f).function.blocks = f.blocks ∧ (input.run f).function.params = f.params := by
  have hnone : input.settings.mitigation ≠ .none := by simp [hmitigation]
  obtain ⟨plan, hplan, hfunction, -⟩ := exists_applied hnone hok
  obtain ⟨-, gi, hgi, hcollect⟩ := exists_collectsFrom hplan
  have hgathers := GroupInput.gathers_collect hcollect
  have hsources : ∀ o ∈ plan.collected.sources.toList, Placer.IsSource f o := by
    intro o ho
    obtain ⟨x, -, ho⟩ := (hgathers.mem_sources o).mp ho
    obtain ⟨-, u, hu⟩ := GroupInput.mem_keptOrigins.mp ho
    have hwf : gi.function.WellFormed := hgi.function ▸ h
    exact hgi.isSource ((GroupInput.mem_originsOf_iff hwf (hgi.function ▸ hgi.graph)).mp hu).1
  have hshields := (Placer.shields_start h .fenceAfterSource).fencesAfter h
    (fun o ho => absurd ho List.not_mem_nil) hsources
  have happly : input.apply f plan =
      plan.collected.sources.toList.foldl Placer.fenceAfter (.start f .fenceAfterSource) := by
    simp [apply, hmitigation]
  rw [← happly, List.nil_append] at hshields
  rw [hfunction]
  refine ⟨plan, gi, hplan, hgi, hcollect, ?_, ?_, hshields.blocks, hshields.params⟩
  · intro group hgroup o ho walk hchain k i hi _ hopen
    have hsource : o ∈ plan.collected.sources :=
      (hgi.mem_sources_iff h hgathers).mpr (Or.inl ⟨group, hgroup, ho⟩)
    cases walk with
    | nil => simp at hi
    | cons x walk =>
      have hfence := hshields.stopped o hsource x (List.isChain_cons_cons.mp hchain).1
      cases k with
      | zero =>
        obtain rfl : x = i := by simpa using hi
        simp [hopen] at hfence
      | succ k => exact ⟨0, x, Nat.succ_pos k, rfl, hfence⟩
  · intro x hx hnew
    obtain ⟨hfence, o, ho, hbehind, y, hy⟩ := (hshields.behind x hx).resolve_left hnew
    refine ⟨hfence, ?_⟩
    rcases (hgi.mem_sources_iff h hgathers).mp ho with ⟨group, hgroup, hbuilt⟩ | ⟨-, hend⟩
    · exact ⟨group, hgroup, o, hbuilt, hbehind⟩
    · rw [hgi.function] at hend
      exact absurd hy (hend y)

/-- In a loop a load feeds itself and the load behind it, which a fence follows.  A load at the end
of the last block takes what the second loaded. -/
def linkedLoads : Function := .build ⟨.numbered 0 0, [], [],
  [⟨[⟨.i64, 1⟩], [⟨.jump, [], .targets [⟨1, [0]⟩], none, []⟩]⟩,
    ⟨[⟨.i64, 1⟩], [⟨.load, [1], .offset 0, some ⟨.i64, 1⟩, [⟨.i64, 1⟩]⟩,
      ⟨.load, [2], .offset 0, some ⟨.i64, 1⟩, [⟨.i64, 1⟩]⟩, ⟨.fence, [], .none, none, []⟩,
      ⟨.brif, [0], .targets [⟨1, [2]⟩, ⟨2, []⟩], none, []⟩]⟩,
    ⟨[], [⟨.load, [3], .offset 0, some ⟨.i64, 1⟩, [⟨.i64, 1⟩]⟩]⟩], none⟩

def shielding : PassInput :=
  { plain with
    settings := { Settings.default with mitigation := .fenceAfterSource, baseWeight := 1 } }

def linkedLoadsTaint : SpeculativeTaint :=
  ⟨.ofList [1, 2, 3, 4], #[.empty, .singleton 1, .singleton 1, .singleton 2, .singleton 5]⟩

theorem graph_linkedLoads : shielding.graph linkedLoads = .ofFunction linkedLoads (.uniform 1) := by
  apply DependenceGraph.ofFunction_frequency_eq_uniform
  change ∀ b < 3, _
  intro b hb
  interval_cases b <;> exact ⟨⟨by decide +kernel, by cbv⟩, by cbv⟩

theorem plan_linkedLoads : (shielding.plan linkedLoads).result = .ok
    ⟨.ofFunction linkedLoads (.uniform 1), ⟨[⟨[.singleton 4, .singleton 3]⟩,
      ⟨[.singleton 3, .singleton 4]⟩, ⟨[.singleton 4, .singleton 7]⟩], .ofList [1, 2],
      .ofList [1, 2, 5]⟩, .empty⟩ := by
  refine plan_eq_ok_iff.mpr ⟨linkedLoadsTaint, none, ?_, rfl, graph_linkedLoads.symm, ?_, ?_⟩
  · cbv
  · cbv
  · cbv

/-- The one fence that is put in stands between the two loads; the second has one behind it. -/
theorem run_fences_every_source_linkedLoads :
    linkedLoads.WellFormed ∧ shielding.settings.mitigation = .fenceAfterSource ∧
      (shielding.run linkedLoads).outcome.result = .ok ⟨1, 0, 2, 3, 3, 0⟩ ∧
      (shielding.run linkedLoads).function.layout =
        [⟨0, [0]⟩, ⟨1, [1, 6, 2, 3, 4]⟩, ⟨2, [5]⟩] ∧
      ∃ plan gi, (shielding.plan linkedLoads).result = .ok plan ∧
        shielding.CollectsFrom linkedLoads gi ∧ gi.collect.result = .ok plan.collected ∧
        ∀ group ∈ plan.collected.groups, ∀ o, gi.BuiltFrom group o → ∀ walk : List InstId,
          (o :: walk).IsChain (shielding.run linkedLoads).function.Follows →
            FencedFirst linkedLoads (shielding.run linkedLoads).function walk := by
  have hwf : linkedLoads.WellFormed := Function.build_wellFormed (by decide)
  obtain ⟨hfunction, hresult⟩ := run_of_planned (by decide) plan_linkedLoads
  have hok : (shielding.run linkedLoads).outcome.result = .ok ⟨1, 0, 2, 3, 3, 0⟩ := by
    rw [hresult, report_result rfl]
    cbv
  obtain ⟨plan, gi, hplan, hgi, hcollect, hways, -⟩ :=
    run_fences_every_source linkedLoads hwf shielding rfl _ hok
  refine ⟨hwf, rfl, hok, ?_, plan, gi, hplan, hgi, hcollect, hways⟩
  rw [hfunction]
  cbv

end PassInput

end SpecFence
