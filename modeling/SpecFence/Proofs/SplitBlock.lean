import SpecFence.Proofs.Restoration

/-!
# The block that stands for an edge

Splitting the edge between two blocks puts a new block behind the source, which is entered from the
source alone and jumps to the target.  Every destination of the source's branch that named the
target leads there through the new block and binds the parameters of the target as before, whether
all of them pass the same values or not, and also when the source is its own target.  Everything
else stays as it is.
-/

set_option autoImplicit false

namespace SpecFence

namespace Function

variable {f g : Function} {source target : BlockId} {branch : InstId} {types : List Ty}
  {uniform : Bool} {passed : List ValueId}

/-- Only branches name blocks to go to. -/
def OnlyBranchesLead (f : Function) : Prop :=
  ∀ i ∈ f.layoutInsts, f.targets i ≠ [] → (f.opcode i).isBranch = true

instance (f : Function) : Decidable f.OnlyBranchesLead :=
  inferInstanceAs (Decidable (∀ i ∈ f.layoutInsts, f.targets i ≠ [] →
    (f.opcode i).isBranch = true))

def EndsTowards (f : Function) (source target : BlockId) : Prop :=
  ∃ i, f.lastInst? source = some i ∧ (f.opcode i).isTerminator = true ∧
    ∃ call ∈ f.targets i, call.block = target

/-- What has become of a destination when the edge to a block was split: one that named the block
names the new one, and all are as before when they are led past the new block again. -/
structure Redirected (f g : Function) (target : BlockId) (passed : List ValueId)
    (call call' : BlockCall) : Prop where
  kept : call.block ≠ target → call' = call
  led : call.block = target → call'.block = f.params.size
  binds : CallAgrees f.blockParams call
    (.past f.params.size (g.blockParams f.params.size) ⟨target, passed⟩ call')
  exactly : call.args.length ≤ (f.blockParams call.block).length →
    .past f.params.size (g.blockParams f.params.size) ⟨target, passed⟩ call' = call

/-- One function is another in which the edge from a source to a target, made by a branch, has
become a block. -/
structure EdgeTaken (f g : Function) (source target : BlockId) (branch : InstId)
    (passed : List ValueId) : Prop where
  fresh : f.params.size ∉ f.blocks
  laid : ∃ before after insts, f.layout = before ++ ⟨source, insts⟩ :: after ∧
    g.layout = before ++ ⟨source, insts⟩ :: ⟨f.params.size, [f.insts.size]⟩ :: after
  jump : g.inst f.insts.size = ⟨.jump, [], .targets [⟨target, passed⟩], none, []⟩
  preds : g.flowPreds f.params.size = [⟨source, branch⟩]
  left : ∀ call ∈ g.targets branch, call.block ≠ target
  destinations : List.Forall₂ (Redirected f g target passed) (f.targets branch) (g.targets branch)
  newParams : g.blockParams f.params.size = [] ∨
    (g.blockParams f.params.size).map g.typeOf = (f.blockParams target).map f.typeOf
  branch_inst : g.inst branch = { f.inst branch with extra := .targets (g.targets branch) }
  inst_eq : ∀ i < f.insts.size, i ≠ branch → g.inst i = f.inst i
  insts_size : g.insts.size = f.insts.size + 1
  params_size : g.params.size = f.params.size + 1
  blockParams_eq : ∀ b < f.params.size, g.blockParams b = f.blockParams b
  values_eq : ∀ v < f.values.size, g.values[v]? = f.values[v]?
  name_eq : g.name = f.name
  slots_eq : g.slots = f.slots
  globals_eq : g.globals = f.globals

section Layout

theorem insertAfterIn_eq (new : LaidBlock) {anchor : BlockId} {layout : List LaidBlock}
    (h : anchor ∈ layout.map LaidBlock.block) :
    ∃ before after insts, layout = before ++ ⟨anchor, insts⟩ :: after ∧
      insertAfterIn new anchor layout = before ++ ⟨anchor, insts⟩ :: new :: after := by
  induction layout with
  | nil => exact absurd h List.not_mem_nil
  | cons l layout ih =>
    by_cases hl : l.block = anchor
    · refine ⟨[], layout, l.insts, ?_, ?_⟩
      · rw [← hl]
        rfl
      · rw [insertAfterIn, if_pos hl, ← hl]
        rfl
    · rw [List.map_cons, List.mem_cons] at h
      obtain ⟨before, after, insts, hlayout, hinserted⟩ :=
        ih (h.resolve_left fun heq => hl heq.symm)
      refine ⟨l :: before, after, insts, ?_, ?_⟩
      · rw [hlayout]
        rfl
      · rw [insertAfterIn, if_neg hl, hinserted]
        rfl

theorem WellFormed.flowPreds_eq_singleton (h : f.WellFormed) {a b : BlockId} {i : InstId}
    (hlast : f.lastInst? a = some i) (hsole : f.SolePred a b) : f.flowPreds b = [⟨a, i⟩] := by
  obtain ⟨l, hl, rfl⟩ := mem_blocks.mp (mem_blocks_of_mem_flowSuccs hsole.1)
  obtain ⟨before, after, hlayout⟩ := List.append_of_mem hl
  have htest : ∀ c, (f.flowTargets c).any (·.block == b) = true ↔ b ∈ f.flowSuccs c := by
    intro c
    unfold flowSuccs
    rw [AscSet.mem_ofList, List.mem_map, List.any_eq_true]
    simp only [beq_iff_eq]
  have hnodup := h.blocks_nodup
  unfold blocks at hnodup
  rw [hlayout, List.map_append, List.map_cons, List.nodup_append, List.nodup_cons] at hnodup
  -- no other block of the layout leads to the block
  have hnone : ∀ m ∈ before ++ after, (if (f.flowTargets m.block).any (·.block == b) then
      m.insts.getLast?.map (⟨m.block, ·⟩ : InstId → FlowPred) else none) = none := by
    intro m hm
    apply if_neg
    rw [htest]
    intro hmem
    have hblock := hsole.2 m.block hmem
    rcases List.mem_append.mp hm with hm | hm
    · exact hnodup.2.2 m.block (List.mem_map_of_mem hm) l.block List.mem_cons_self hblock
    · exact hnodup.2.1.1 (hblock ▸ List.mem_map_of_mem hm)
  have hsome : (if (f.flowTargets l.block).any (·.block == b) then
      l.insts.getLast?.map (⟨l.block, ·⟩ : InstId → FlowPred) else none) = some ⟨l.block, i⟩ := by
    rw [if_pos ((htest l.block).mpr hsole.1), ← blockInsts_eq h.blocks_nodup hl]
    exact congrArg (Option.map _) hlast
  rw [List.forall_mem_append] at hnone
  unfold flowPreds
  rw [hlayout, List.filterMap_append, List.filterMap_eq_nil_iff.mpr hnone.1, List.filterMap_cons,
    hsome, List.filterMap_eq_nil_iff.mpr hnone.2]
  exact List.mergeSort_singleton _

end Layout

section Types

theorem typeOf_splitWith_newParams :
    (f.newParams types).map (f.splitWith source target branch types uniform passed).typeOf =
      types := by
  apply List.ext_getElem
  · rw [List.length_map, length_newParams]
  · intro k hk hk'
    have hlt : k < types.length := hk'
    have hvalue : (f.splitWith source target branch types uniform passed).values[f.values.size + k]? =
        some ⟨types[k], .param f.params.size⟩ := by
      change ((f.values ++ (types.map (⟨·, .param f.params.size⟩ : Ty → ValueData)).toArray) ++
        #[])[f.values.size + k]? = _
      rw [Array.append_empty, Array.getElem?_append_right (Nat.le_add_right _ _),
        Nat.add_sub_cancel_left, List.getElem?_toArray, List.getElem?_map,
        List.getElem?_eq_getElem hlt]
      rfl
    simp only [newParams, List.getElem_map, List.getElem_range]
    unfold typeOf
    rw [hvalue]
    rfl

theorem newParams_of_splitEdge? {new : BlockId} (hsplit : f.splitEdge? source target = some (new, g)) :
    g.blockParams new = [] ∨
      (g.blockParams new).map g.typeOf = (f.blockParams target).map f.typeOf := by
  unfold splitEdge? at hsplit
  simp only [Option.bind_eq_bind, Option.bind_eq_some_iff, Option.pure_def, Option.some_inj] at hsplit
  obtain ⟨branch, -, first, -, heq⟩ := hsplit
  generalize huniform : (((f.targets branch).filter fun call => call.block == target).all
    fun call => call.args == first.args) = uniform at heq
  obtain ⟨rfl, hg⟩ := Prod.mk.inj heq
  have hsame : f.splitWith source target branch
      (if uniform then [] else (f.blockParams target).map f.typeOf) uniform
      (if uniform then first.args else f.newParams
        (if uniform then [] else (f.blockParams target).map f.typeOf)) = g := by
    refine Eq.trans ?_ hg
    cases uniform with
    | true => rfl
    | false =>
      simp only [Bool.false_eq_true, if_false]
      rw [← blockParams_addBlock]
      rfl
  rw [← hsame]
  change (f.splitWith _ _ _ _ _ _).blockParams f.params.size = [] ∨
    ((f.splitWith _ _ _ _ _ _).blockParams f.params.size).map _ = _
  rw [blockParams_splitWith_new, typeOf_splitWith_newParams]
  cases uniform with
  | true => exact Or.inl rfl
  | false => exact Or.inr rfl

end Types

section Split

theorem EndsTowards.terminator? (hends : f.EndsTowards source target) :
    ∃ branch, f.terminator? source = some branch ∧ ∃ call ∈ f.targets branch, call.block = target := by
  obtain ⟨branch, hlast, hterminator, hcall⟩ := hends
  refine ⟨branch, ?_, hcall⟩
  unfold Function.terminator?
  rw [hlast, Option.filter_some, if_pos hterminator]

theorem splitEdge?_eq_none_iff :
    f.splitEdge? source target = none ↔ ¬ f.EndsTowards source target := by
  constructor
  · intro hnone hends
    obtain ⟨branch, hterminator, hcall⟩ := hends.terminator?
    obtain ⟨types, uniform, passed, hsome, -⟩ := splitEdge?_choice hterminator hcall
    rw [hnone] at hsome
    cases hsome
  · intro hnot
    rw [← Option.not_isSome_iff_eq_none]
    intro hsome
    obtain ⟨x, hx⟩ := Option.isSome_iff_exists.mp hsome
    unfold splitEdge? at hx
    simp only [Option.bind_eq_bind, Option.bind_eq_some_iff] at hx
    obtain ⟨branch, hterminator, first, hfirst, -⟩ := hx
    obtain ⟨hlast, hends⟩ := Option.filter_eq_some_iff.mp hterminator
    obtain ⟨hmem, hblock⟩ := List.mem_filter.mp (List.mem_of_mem_head? hfirst)
    exact hnot ⟨branch, hlast, hends, first, hmem, by simpa using hblock⟩

theorem WellFormed.exists_splitsEdge (h : f.WellFormed) (hlead : f.OnlyBranchesLead)
    (hends : f.EndsTowards source target) :
    ∃ branch types uniform passed, f.splitEdge? source target =
        some (f.params.size, f.splitWith source target branch types uniform passed) ∧
      SplitsEdge f source target branch types uniform passed := by
  obtain ⟨branch, hlast, -, call, hcall, htarget⟩ := hends
  have hmem : branch ∈ f.layoutInsts :=
    h.mem_layoutInsts.mpr ⟨source, List.mem_of_mem_getLast? hlast⟩
  exact Function.exists_splitsEdge (Function.mem_flowSuccs.mpr
    ⟨branch, hlast, hlead branch hmem (List.ne_nil_of_mem hcall), call, hcall, htarget⟩)

namespace SplitsEdge

variable (hsplit : SplitsEdge f source target branch types uniform passed)
include hsplit

theorem redirected (h : f.WellFormed) {call : BlockCall} (hcall : call ∈ f.targets branch) :
    Redirected f (f.splitWith source target branch types uniform passed) target passed call
      (retarget target f.params.size uniform call) := by
  have hlt := h.targets_lt branch (h.lt_of_mem_blockInsts hsplit.mem_blockInsts) call hcall
  have hbinds : CallAgrees f.blockParams call (.past f.params.size
      ((f.splitWith source target branch types uniform passed).blockParams f.params.size)
      ⟨target, passed⟩ (retarget target f.params.size uniform call)) := by
    rw [blockParams_splitWith_new]
    exact hsplit.callAgrees_rerouted hcall hlt
  constructor
  case kept => exact fun hne => if_neg hne
  case led =>
    intro heq
    unfold retarget
    rw [if_pos heq]
  case binds => exact hbinds
  case exactly => exact hbinds.eq

theorem block_ne_of_mem_targets (h : f.WellFormed) :
    ∀ call ∈ (f.splitWith source target branch types uniform passed).targets branch,
      call.block ≠ target := by
  intro call hcall
  rw [targets_splitWith_branch (h.lt_of_mem_blockInsts hsplit.mem_blockInsts)] at hcall
  obtain ⟨old, -, rfl⟩ := List.mem_map.mp hcall
  unfold retarget
  split
  · exact (Nat.ne_of_lt (h.flowSucc_lt hsplit.mem_flowSuccs)).symm
  · assumption

theorem solePred (h : f.WellFormed) :
    (f.splitWith source target branch types uniform passed).SolePred source f.params.size := by
  have hedge := hsplit.edgeSplit h
  have hsource : source ≠ f.params.size := Nat.ne_of_lt (h.blocks_lt source hsplit.source_mem)
  refine ⟨(hedge.flowSuccs_old source hsource _).mpr (Or.inr ⟨rfl, rfl⟩), ?_⟩
  intro c hc
  by_cases hnew : c = f.params.size
  · rw [hnew, hedge.flowSuccs_new] at hc
    exact absurd hc (Nat.ne_of_lt (h.flowSucc_lt hsplit.mem_flowSuccs)).symm
  · rcases (hedge.flowSuccs_old c hnew _).mp hc with ⟨hold, -⟩ | ⟨heq, -⟩
    · exact absurd (h.flowSucc_lt hold) (Nat.lt_irrefl _)
    · exact heq

theorem edgeTaken (h : f.WellFormed)
    (hparams : f.newParams types = [] ∨ (f.newParams types).map
      (f.splitWith source target branch types uniform passed).typeOf =
        (f.blockParams target).map f.typeOf) :
    EdgeTaken f (f.splitWith source target branch types uniform passed) source target branch
      passed := by
  have hlt := h.lt_of_mem_blockInsts hsplit.mem_blockInsts
  have htargets : (f.splitWith source target branch types uniform passed).targets branch =
      (f.targets branch).map (retarget target f.params.size uniform) :=
    targets_splitWith_branch hlt
  have hlast : (f.splitWith source target branch types uniform passed).lastInst? source =
      some branch :=
    (lastInst?_splitWith h hsplit.source_mem
      (Nat.ne_of_lt (h.blocks_lt source hsplit.source_mem))).trans hsplit.last
  constructor
  case fresh => exact h.fresh_block
  case laid =>
    have hsize := size_setTargets (f.addBlock types).2 branch
      ((f.targets branch).map (retarget target f.params.size uniform))
    obtain ⟨before, after, insts, hlayout, hinserted⟩ :=
      insertAfterIn_eq ⟨f.params.size, [f.insts.size]⟩ hsplit.source_mem
    refine ⟨before, after, insts, hlayout, ?_⟩
    rw [← hinserted]
    change insertAfterIn ⟨f.params.size, [_]⟩ source f.layout = _
    rw [hsize]
    rfl
  case jump =>
    have hjump := inst_addInst_self ((f.addBlock types).2.setTargets branch
      ((f.targets branch).map (retarget target f.params.size uniform))) (jumpSpec target passed)
    rw [size_setTargets] at hjump
    exact hjump
  case preds => exact (hsplit.edgeSplit h).wellFormed.flowPreds_eq_singleton hlast (hsplit.solePred h)
  case left => exact hsplit.block_ne_of_mem_targets h
  case destinations =>
    rw [htargets, List.forall₂_map_right_iff, List.forall₂_same]
    exact fun call hcall => hsplit.redirected h hcall
  case newParams =>
    rw [blockParams_splitWith_new]
    exact hparams
  case branch_inst =>
    rw [htargets]
    exact inst_splitWith_branch hlt
  case inst_eq => exact fun i hi hne => inst_splitWith hi hne
  case insts_size => exact insts_size_splitWith
  case params_size => exact size_addBlock f types
  case blockParams_eq => exact fun b hb => blockParams_splitWith (Nat.ne_of_lt hb)
  case values_eq => exact fun v hv => values_splitWith hv
  case name_eq => rfl
  case slots_eq => rfl
  case globals_eq => rfl

end SplitsEdge

/-- An edge is split exactly when the source ends with a terminator that has the target among its
destinations, and then it becomes a block. -/
theorem edge_becomes_block (f : Function) (h : f.WellFormed) (hlead : f.OnlyBranchesLead)
    (source target : BlockId) :
    (f.splitEdge? source target = none ↔ ¬ f.EndsTowards source target) ∧
      (f.EndsTowards source target → ∃ g branch passed,
        f.splitEdge? source target = some (f.params.size, g) ∧
          f.terminator? source = some branch ∧ EdgeTaken f g source target branch passed) := by
  refine ⟨splitEdge?_eq_none_iff, ?_⟩
  intro hends
  obtain ⟨branch, types, uniform, passed, hg, hsplit⟩ := h.exists_splitsEdge hlead hends
  have hparams := newParams_of_splitEdge? hg
  rw [blockParams_splitWith_new] at hparams
  refine ⟨_, branch, passed, hg, ?_, hsplit.edgeTaken h hparams⟩
  exact (terminator?_of_mem_flowSuccs hsplit.mem_flowSuccs).trans hsplit.last

def spinTable : Function := .build ⟨.numbered 0 0, [], [],
  [⟨[⟨.i32, 1⟩, ⟨.i64, 1⟩], [⟨.iconst, [], .immediate 7, some ⟨.i64, 1⟩, [⟨.i64, 1⟩]⟩,
      ⟨.brTable, [0], .targets [⟨0, [0, 1]⟩, ⟨1, []⟩, ⟨0, [0, 2]⟩], none, []⟩]⟩,
    ⟨[], [⟨.ret, [], .none, none, []⟩]⟩], none⟩

/-- The edge of the block to itself becomes a block with two parameters. -/
theorem edge_becomes_block_spinTable :
    spinTable.WellFormed ∧ spinTable.OnlyBranchesLead ∧ spinTable.EndsTowards 0 0 ∧
      ∃ g passed, spinTable.splitEdge? 0 0 = some (2, g) ∧
        g.layout = [⟨0, [0, 1]⟩, ⟨2, [3]⟩, ⟨1, [2]⟩] ∧ g.blockParams 2 = [3, 4] ∧
        g.targets 1 = [⟨2, [0, 1]⟩, ⟨1, []⟩, ⟨2, [0, 2]⟩] ∧ g.targets 3 = [⟨0, [3, 4]⟩] ∧
        EdgeTaken spinTable g 0 0 1 passed := by
  have hwf : spinTable.WellFormed := build_wellFormed (by decide)
  have hlead : spinTable.OnlyBranchesLead := by decide +kernel
  have hends : spinTable.EndsTowards 0 0 :=
    ⟨1, by decide +kernel, by decide +kernel, ⟨0, [0, 1]⟩, by decide +kernel, rfl⟩
  obtain ⟨g, branch, passed, hg, hbranch, htaken⟩ :=
    (edge_becomes_block spinTable hwf hlead 0 0).2 hends
  obtain rfl : 1 = branch := Option.some_inj.mp (Eq.trans (by decide +kernel) hbranch)
  have hread : (spinTable.splitEdge? 0 0).map (fun x => (x.2.layout, x.2.blockParams 2,
      x.2.targets 1, x.2.targets 3)) = some ([⟨0, [0, 1]⟩, ⟨2, [3]⟩, ⟨1, [2]⟩], [3, 4],
        [⟨2, [0, 1]⟩, ⟨1, []⟩, ⟨2, [0, 2]⟩], [⟨0, [3, 4]⟩]) := by
    decide +kernel
  rw [hg, Option.map_some, Option.some_inj] at hread
  simp only [Prod.mk.injEq] at hread
  exact ⟨hwf, hlead, hends, g, passed, hg, hread.1, hread.2.1, hread.2.2.1, hread.2.2.2, htaken⟩

end Split

end Function

end SpecFence
