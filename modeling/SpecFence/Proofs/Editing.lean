import SpecFence.Proofs.ControlFlow

/-!
# Edits keep functions well formed

Each edit of a function is described by what the look-ups find afterwards: adding an instruction or
a block, laying one out, and giving a branch other destinations.  Splitting an edge is assembled
from these.
-/

set_option autoImplicit false

namespace SpecFence

namespace Function

variable {f : Function}

section Instructions

def callsOf : Extra → List BlockCall
  | .targets calls => calls
  | _ => []

theorem targets_eq (f : Function) (i : InstId) : f.targets i = callsOf (f.inst i).extra := by
  unfold targets callsOf
  cases (f.inst i).extra <;> rfl

theorem inst_addInst (f : Function) (spec : InstSpec) {i : InstId} (hi : i < f.insts.size) :
    (f.addInst spec).2.inst i = f.inst i := by
  change ((f.insts.push _)[i]?).getD default = _
  rw [Array.getElem?_push, if_neg (Nat.ne_of_lt hi)]
  rfl

theorem inst_addInst_self (f : Function) (spec : InstSpec) :
    (f.addInst spec).2.inst f.insts.size =
      ⟨spec.opcode, spec.args, spec.extra, spec.controlType,
        (f.addValues spec.results (.result f.insts.size)).1⟩ := by
  change ((f.insts.push _)[f.insts.size]?).getD default = _
  rw [Array.getElem?_push, if_pos rfl]
  rfl

theorem size_addInst (f : Function) (spec : InstSpec) :
    (f.addInst spec).2.insts.size = f.insts.size + 1 := by
  change (f.insts.push _).size = _
  exact Array.size_push _

theorem size_addBlock (f : Function) (types : List Ty) :
    (f.addBlock types).2.params.size = f.params.size + 1 := by
  change (f.params.push _).size = _
  exact Array.size_push _

theorem inst_setTargets (f : Function) (j : InstId) (calls : List BlockCall) (i : InstId) :
    (f.setTargets j calls).inst i =
      if i = j ∧ i < f.insts.size then { f.inst i with extra := .targets calls } else f.inst i := by
  unfold setTargets inst
  simp only [Array.getElem?_modify]
  by_cases hij : j = i
  · subst hij
    by_cases hlt : j < f.insts.size
    · simp [hlt]
    · simp [hlt]
  · have hne : i ≠ j := fun h => hij h.symm
    simp [hij, hne]

theorem opcode_setTargets (f : Function) (j : InstId) (calls : List BlockCall) (i : InstId) :
    (f.setTargets j calls).opcode i = f.opcode i := by
  unfold opcode
  rw [inst_setTargets]
  split <;> rfl

theorem size_setTargets (f : Function) (j : InstId) (calls : List BlockCall) :
    (f.setTargets j calls).insts.size = f.insts.size := by
  unfold setTargets
  exact Array.size_modify

namespace WellFormed

variable (h : f.WellFormed)
include h

theorem addInst (spec : InstSpec) (hcalls : ∀ call ∈ callsOf spec.extra, call.block < f.params.size) :
    (f.addInst spec).2.WellFormed := by
  refine ⟨h.blocks_nodup, h.blocks_lt, h.insts_nodup, ?_, ?_⟩
  · intro i hi
    rw [size_addInst]
    exact Nat.lt_succ_of_lt (h.insts_lt i hi)
  · intro i hi call hcall
    rw [size_addInst] at hi
    rw [targets_eq] at hcall
    rcases Nat.lt_succ_iff_lt_or_eq.mp hi with hlt | rfl
    · rw [inst_addInst f spec hlt, ← targets_eq] at hcall
      exact h.targets_lt i hlt call hcall
    · rw [inst_addInst_self] at hcall
      exact hcalls call hcall

theorem addBlock (types : List Ty) : (f.addBlock types).2.WellFormed := by
  refine ⟨h.blocks_nodup, ?_, h.insts_nodup, h.insts_lt, ?_⟩
  · intro b hb
    rw [size_addBlock]
    exact Nat.lt_succ_of_lt (h.blocks_lt b hb)
  · intro i hi call hcall
    rw [size_addBlock]
    exact Nat.lt_succ_of_lt (h.targets_lt i hi call hcall)

theorem setTargets (j : InstId) {calls : List BlockCall}
    (hcalls : ∀ call ∈ calls, call.block < f.params.size) : (f.setTargets j calls).WellFormed := by
  refine ⟨h.blocks_nodup, h.blocks_lt, h.insts_nodup, ?_, ?_⟩
  · intro i hi
    rw [size_setTargets]
    exact h.insts_lt i hi
  · intro i hi call hcall
    rw [size_setTargets] at hi
    rw [targets_eq, inst_setTargets] at hcall
    split at hcall
    · exact hcalls call hcall
    · rw [← targets_eq] at hcall
      exact h.targets_lt i hi call hcall

end WellFormed

end Instructions

section Layout

theorem mem_insertBeforeIn {new anchor x : InstId} {l : List InstId} :
    x ∈ insertBeforeIn new anchor l ↔ x ∈ l ∨ (x = new ∧ anchor ∈ l) := by
  induction l with
  | nil => simp [insertBeforeIn]
  | cons a l ih =>
    rw [insertBeforeIn]
    by_cases ha : a = anchor
    · subst ha
      simp [or_comm]
    · rw [if_neg ha, List.mem_cons, ih, List.mem_cons, List.mem_cons]
      have hne : anchor ≠ a := fun h => ha h.symm
      simp [hne, or_assoc]

theorem nodup_insertBeforeIn {new anchor : InstId} {l : List InstId} (hl : l.Nodup)
    (hnew : new ∉ l) : (insertBeforeIn new anchor l).Nodup := by
  induction l with
  | nil => exact List.nodup_nil
  | cons a l ih =>
    rw [List.nodup_cons] at hl
    rw [List.mem_cons, not_or] at hnew
    rw [insertBeforeIn]
    by_cases ha : a = anchor
    · rw [if_pos ha, List.nodup_cons, List.nodup_cons, List.mem_cons, not_or]
      exact ⟨hnew, hl⟩
    · rw [if_neg ha, List.nodup_cons]
      refine ⟨?_, ih hl.2 hnew.2⟩
      intro hmem
      rcases mem_insertBeforeIn.mp hmem with hold | ⟨hnewa, -⟩
      · exact hl.1 hold
      · exact hnew.1 hnewa.symm

theorem insertBeforeIn_of_not_mem {new anchor : InstId} {l : List InstId} (h : anchor ∉ l) :
    insertBeforeIn new anchor l = l := by
  induction l with
  | nil => rfl
  | cons a l ih =>
    rw [List.mem_cons, not_or] at h
    rw [insertBeforeIn, if_neg (fun ha => h.1 ha.symm), ih h.2]

theorem blockInsts_layBefore (f : Function) (new anchor : InstId) (b : BlockId) :
    (f.layBefore new anchor).blockInsts b = insertBeforeIn new anchor (f.blockInsts b) := by
  unfold layBefore blockInsts
  simp only [List.find?_map]
  have htest : ((fun l : LaidBlock => l.block == b) ∘
      fun l : LaidBlock => { l with insts := insertBeforeIn new anchor l.insts }) =
      fun l : LaidBlock => l.block == b := rfl
  rw [htest]
  cases f.layout.find? fun l => l.block == b with
  | none => rfl
  | some l => rfl

theorem blocks_layBefore (f : Function) (new anchor : InstId) :
    (f.layBefore new anchor).blocks = f.blocks := by
  unfold layBefore blocks
  rw [List.map_map]
  rfl

theorem WellFormed.layBefore (h : f.WellFormed) {new anchor : InstId} (hnew : new ∉ f.layoutInsts)
    (hlt : new < f.insts.size) : (f.layBefore new anchor).WellFormed := by
  have hblocks := blocks_layBefore f new anchor
  have hmem : ∀ i, i ∈ (f.layBefore new anchor).layoutInsts → i ∈ f.layoutInsts ∨ i = new := by
    intro i hi
    unfold Function.layBefore layoutInsts at hi
    rw [List.flatMap_map] at hi
    obtain ⟨l, hl, hil⟩ := List.mem_flatMap.mp hi
    rcases mem_insertBeforeIn.mp hil with hold | ⟨hnewi, -⟩
    · exact Or.inl (List.mem_flatMap.mpr ⟨l, hl, hold⟩)
    · exact Or.inr hnewi
  refine ⟨?_, ?_, ?_, ?_, h.targets_lt⟩
  · rw [hblocks]
    exact h.blocks_nodup
  · rw [hblocks]
    exact h.blocks_lt
  · unfold Function.layBefore layoutInsts
    rw [List.flatMap_map, List.nodup_flatMap]
    have hnodup := List.nodup_flatMap.mp h.insts_nodup
    constructor
    · intro l hl
      refine nodup_insertBeforeIn (hnodup.1 l hl) ?_
      intro hnewl
      exact hnew (List.mem_flatMap.mpr ⟨l, hl, hnewl⟩)
    · refine List.Pairwise.imp_of_mem ?_ hnodup.2
      intro l m hl hm hdisjoint x hxl hxm
      -- the new instruction is only where the anchor is, which is in one block at most
      rcases mem_insertBeforeIn.mp hxl with hxl | ⟨hx, hanchor⟩
      · rcases mem_insertBeforeIn.mp hxm with hxm | ⟨hx, -⟩
        · exact hdisjoint hxl hxm
        · rw [hx] at hxl
          exact hnew (List.mem_flatMap.mpr ⟨l, hl, hxl⟩)
      · rcases mem_insertBeforeIn.mp hxm with hxm | ⟨-, hanchor'⟩
        · rw [hx] at hxm
          exact hnew (List.mem_flatMap.mpr ⟨m, hm, hxm⟩)
        · exact hdisjoint hanchor hanchor'
  · intro i hi
    rcases hmem i hi with hold | rfl
    · exact h.insts_lt i hold
    · exact hlt

theorem perm_insertAfterIn {new : LaidBlock} {anchor : BlockId} {layout : List LaidBlock}
    (h : anchor ∈ layout.map LaidBlock.block) :
    (insertAfterIn new anchor layout).Perm (new :: layout) := by
  induction layout with
  | nil => exact absurd h List.not_mem_nil
  | cons l layout ih =>
    rw [insertAfterIn]
    by_cases hl : l.block = anchor
    · rw [if_pos hl]
      exact List.Perm.swap new l layout
    · rw [if_neg hl]
      rw [List.map_cons, List.mem_cons] at h
      rcases h with heq | hrest
      · exact absurd heq.symm hl
      · exact ((ih hrest).cons l).trans (List.Perm.swap new l layout)

theorem perm_blocks_layAfter (new : LaidBlock) {anchor : BlockId} (h : anchor ∈ f.blocks) :
    (f.layAfter new anchor).blocks.Perm (new.block :: f.blocks) :=
  (perm_insertAfterIn h).map LaidBlock.block

theorem WellFormed.layAfter (h : f.WellFormed) {new : LaidBlock} {anchor : BlockId}
    (hanchor : anchor ∈ f.blocks) (hblock : new.block ∉ f.blocks)
    (hblockLt : new.block < f.params.size) (hinsts : new.insts.Nodup)
    (hfresh : ∀ i ∈ new.insts, i ∉ f.layoutInsts ∧ i < f.insts.size) :
    (f.layAfter new anchor).WellFormed := by
  have hperm := perm_blocks_layAfter new hanchor
  have hinstsPerm : (f.layAfter new anchor).layoutInsts.Perm (new.insts ++ f.layoutInsts) :=
    (perm_insertAfterIn hanchor).flatMap_right LaidBlock.insts
  refine ⟨?_, ?_, ?_, ?_, h.targets_lt⟩
  · rw [hperm.nodup_iff, List.nodup_cons]
    exact ⟨hblock, h.blocks_nodup⟩
  · intro b hb
    rcases List.mem_cons.mp (hperm.mem_iff.mp hb) with rfl | hb
    · exact hblockLt
    · exact h.blocks_lt b hb
  · rw [hinstsPerm.nodup_iff, List.nodup_append]
    refine ⟨hinsts, h.insts_nodup, ?_⟩
    rintro i hi j hj rfl
    exact (hfresh i hi).1 hj
  · intro i hi
    rcases List.mem_append.mp (hinstsPerm.mem_iff.mp hi) with hi | hi
    · exact (hfresh i hi).2
    · exact h.insts_lt i hi

theorem blockInsts_layAfter (h : f.blocks.Nodup) {new : LaidBlock} {anchor : BlockId}
    (hanchor : anchor ∈ f.blocks) (hblock : new.block ∉ f.blocks) (b : BlockId) :
    (f.layAfter new anchor).blockInsts b = if b = new.block then new.insts else f.blockInsts b := by
  have hperm : (f.layAfter new anchor).layout.Perm (new :: f.layout) := perm_insertAfterIn hanchor
  have hblocks := perm_blocks_layAfter new hanchor
  have hnodup : (f.layAfter new anchor).blocks.Nodup := by
    rw [hblocks.nodup_iff, List.nodup_cons]
    exact ⟨hblock, h⟩
  by_cases hb : b = new.block
  · rw [if_pos hb, hb]
    exact blockInsts_eq hnodup (hperm.mem_iff.mpr List.mem_cons_self)
  · rw [if_neg hb]
    by_cases hold : b ∈ f.blocks
    · obtain ⟨l, hl, rfl⟩ := mem_blocks.mp hold
      rw [blockInsts_eq h hl,
        blockInsts_eq hnodup (hperm.mem_iff.mpr (List.mem_cons_of_mem new hl))]
    · rw [blockInsts_of_not_mem hold]
      apply blockInsts_of_not_mem
      intro hmem
      rcases List.mem_cons.mp (hblocks.mem_iff.mp hmem) with hnew | hold'
      · exact hb hnew
      · exact hold hold'

end Layout

section Split

/-- An edge between two blocks is split by a new block that only jumps on.  All else is as before. -/
structure EdgeSplit (f g : Function) (source target : BlockId) : Prop where
  wellFormed : g.WellFormed
  insts_size : g.insts.size = f.insts.size + 1
  params_size : g.params.size = f.params.size + 1
  opcode_eq : ∀ i < f.insts.size, g.opcode i = f.opcode i
  blockInsts_new : g.blockInsts f.params.size = [f.insts.size]
  blockInsts_old : ∀ b, b ≠ f.params.size → g.blockInsts b = f.blockInsts b
  flowSuccs_new : ∀ x, x ∈ g.flowSuccs f.params.size ↔ x = target
  flowSuccs_old : ∀ b, b ≠ f.params.size → ∀ x, x ∈ g.flowSuccs b ↔
    (x ∈ f.flowSuccs b ∧ ¬ (b = source ∧ x = target)) ∨ (b = source ∧ x = f.params.size)

/-- A function in which the branch at the end of a block goes to a new block instead of another. -/
def splitWith (f : Function) (source target : BlockId) (branch : InstId) (types : List Ty)
    (uniform : Bool) (passed : List ValueId) : Function :=
  let calls := (f.targets branch).map (retarget target f.params.size uniform)
  let f₂ := (f.addBlock types).2.setTargets branch calls
  (f₂.addInst (jumpSpec target passed)).2.layAfter ⟨f.params.size, [f₂.insts.size]⟩ source

variable {source target : BlockId} {branch : InstId} {types : List Ty} {uniform : Bool}
  {passed : List ValueId}

def newParams (f : Function) (types : List Ty) : List ValueId :=
  (List.range types.length).map (f.values.size + ·)

theorem length_newParams (f : Function) (types : List Ty) :
    (f.newParams types).length = types.length := by
  unfold newParams
  rw [List.length_map, List.length_range]

theorem nodup_newParams (f : Function) (types : List Ty) : (f.newParams types).Nodup :=
  List.nodup_range.map fun _ _ heq => Nat.add_left_cancel heq

theorem blockParams_addBlock (f : Function) (types : List Ty) :
    (f.addBlock types).2.blockParams f.params.size = f.newParams types := by
  change ((f.params.push (f.newParams types))[f.params.size]?).getD [] = _
  rw [Array.getElem?_push, if_pos rfl]
  rfl

/-- What an edge is split with: either all destinations pass the same values, and the new block's
jump passes them, or the new block has a parameter for each one of the target and passes it on. -/
structure SplitChoice (f : Function) (target : BlockId) (branch : InstId) (types : List Ty)
    (uniform : Bool) (passed : List ValueId) : Prop where
  shared : uniform = true → types = [] ∧
    ∀ call ∈ f.targets branch, call.block = target → call.args = passed
  diverging : uniform = false → types.length = (f.blockParams target).length ∧
    passed = f.newParams types
  single : (f.targets branch).length ≤ 1 → uniform = true

theorem splitEdge?_choice (hbranch : f.terminator? source = some branch)
    (hcall : ∃ call ∈ f.targets branch, call.block = target) :
    ∃ types uniform passed, f.splitEdge? source target =
        some (f.params.size, f.splitWith source target branch types uniform passed) ∧
      SplitChoice f target branch types uniform passed := by
  obtain ⟨call, hmem, htarget⟩ := hcall
  have hnaming : call ∈ (f.targets branch).filter fun call => call.block == target :=
    List.mem_filter.mpr ⟨hmem, by simpa using htarget⟩
  obtain ⟨first, rest, hfirst⟩ := List.exists_cons_of_ne_nil (List.ne_nil_of_mem hnaming)
  unfold splitEdge?
  rw [hbranch, Option.bind_eq_bind, Option.bind_some]
  simp only [hfirst, List.head?_cons, Option.bind_eq_bind, Option.bind_some]
  refine ⟨_, _, _, rfl, ?_⟩
  constructor
  case shared =>
    intro huniform
    rw [if_pos huniform, if_pos huniform]
    refine ⟨rfl, ?_⟩
    intro c hc htarget'
    rw [List.all_eq_true] at huniform
    have hin : c ∈ first :: rest := by
      rw [← hfirst]
      exact List.mem_filter.mpr ⟨hc, by simpa using htarget'⟩
    exact beq_iff_eq.mp (huniform c hin)
  case diverging =>
    intro hdiverging
    have hnot : ¬ ((first :: rest).all fun call => call.args == first.args) = true := by
      rw [hdiverging]
      decide
    simp only [if_neg hnot, List.length_map]
    exact ⟨trivial, blockParams_addBlock f _⟩
  case single =>
    intro hlength
    have hle := (List.length_filter_le (fun call => call.block == target)
      (f.targets branch)).trans hlength
    rw [hfirst, List.length_cons] at hle
    have hrest : rest = [] := List.length_eq_zero_iff.mp (by omega)
    rw [hrest]
    simp

theorem inst_splitWith {i : InstId} (hi : i < f.insts.size) (hne : i ≠ branch) :
    (f.splitWith source target branch types uniform passed).inst i = f.inst i := by
  refine (inst_addInst _ _ ?_).trans ?_
  · rw [size_setTargets]
    exact hi
  · rw [inst_setTargets, if_neg (fun h => hne h.1)]
    rfl

theorem opcode_splitWith {i : InstId} (hi : i < f.insts.size) :
    (f.splitWith source target branch types uniform passed).opcode i = f.opcode i := by
  refine (congrArg InstData.opcode (inst_addInst _ _ ?_)).trans ?_
  · rw [size_setTargets]
    exact hi
  · exact opcode_setTargets _ branch _ i

theorem inst_splitWith_branch (hbranch : branch < f.insts.size) :
    (f.splitWith source target branch types uniform passed).inst branch =
      { f.inst branch with
        extra := .targets ((f.targets branch).map (retarget target f.params.size uniform)) } := by
  refine (inst_addInst _ _ ?_).trans ?_
  · rw [size_setTargets]
    exact hbranch
  · rw [inst_setTargets, if_pos ⟨rfl, hbranch⟩]
    rfl

theorem targets_splitWith_branch (hbranch : branch < f.insts.size) :
    (f.splitWith source target branch types uniform passed).targets branch =
      (f.targets branch).map (retarget target f.params.size uniform) := by
  rw [targets_eq, inst_splitWith_branch hbranch]
  rfl

theorem inst_splitWith_jump :
    (f.splitWith source target branch types uniform passed).opcode f.insts.size = .jump ∧
      (f.splitWith source target branch types uniform passed).targets f.insts.size =
        [⟨target, passed⟩] := by
  have hjump := inst_addInst_self ((f.addBlock types).2.setTargets branch
    ((f.targets branch).map (retarget target f.params.size uniform))) (jumpSpec target passed)
  rw [size_setTargets] at hjump
  constructor
  · exact congrArg InstData.opcode hjump
  · rw [targets_eq]
    exact congrArg (fun d : InstData => callsOf d.extra) hjump

theorem insts_size_splitWith :
    (f.splitWith source target branch types uniform passed).insts.size = f.insts.size + 1 := by
  refine (size_addInst _ _).trans ?_
  rw [size_setTargets]
  rfl

theorem blockParams_splitWith {b : BlockId} (hb : b ≠ f.params.size) :
    (f.splitWith source target branch types uniform passed).blockParams b = f.blockParams b := by
  change ((f.params.push _)[b]?).getD [] = _
  rw [Array.getElem?_push, if_neg hb]
  rfl

theorem blockParams_splitWith_new :
    (f.splitWith source target branch types uniform passed).blockParams f.params.size =
      f.newParams types :=
  blockParams_addBlock f types

theorem values_splitWith {v : ValueId} (hv : v < f.values.size) :
    (f.splitWith source target branch types uniform passed).values[v]? = f.values[v]? := by
  change ((f.values ++ _) ++ _)[v]? = f.values[v]?
  have hfirst : ∀ more : Array ValueData, v < (f.values ++ more).size := by
    intro more
    rw [Array.size_append]
    exact Nat.lt_add_right _ hv
  rw [Array.getElem?_append_left (hfirst _), Array.getElem?_append_left hv]

theorem WellFormed.fresh_block (h : f.WellFormed) : f.params.size ∉ f.blocks := by
  intro hmem
  exact Nat.lt_irrefl _ (h.blocks_lt _ hmem)

theorem WellFormed.fresh_inst (h : f.WellFormed) : f.insts.size ∉ f.layoutInsts := by
  intro hmem
  exact Nat.lt_irrefl _ (h.insts_lt _ hmem)

theorem WellFormed.flowSucc_lt (h : f.WellFormed) {a b : BlockId} (hb : b ∈ f.flowSuccs a) :
    b < f.params.size := by
  obtain ⟨i, hlast, -, call, hcall, rfl⟩ := mem_flowSuccs.mp hb
  exact h.targets_lt i (h.lt_of_mem_blockInsts (List.mem_of_mem_getLast? hlast)) call hcall

theorem blockInsts_splitWith (h : f.WellFormed) (hsource : source ∈ f.blocks) (b : BlockId) :
    (f.splitWith source target branch types uniform passed).blockInsts b =
      if b = f.params.size then [f.insts.size] else f.blockInsts b := by
  have hsize : ((f.addBlock types).2.setTargets branch
      ((f.targets branch).map (retarget target f.params.size uniform))).insts.size = f.insts.size :=
    size_setTargets (f.addBlock types).2 branch _
  rw [← hsize]
  exact blockInsts_layAfter (f := (((f.addBlock types).2.setTargets branch
    ((f.targets branch).map (retarget target f.params.size uniform))).addInst
      (jumpSpec target passed)).2) h.blocks_nodup hsource h.fresh_block b

theorem WellFormed.splitWith (h : f.WellFormed) (hsource : source ∈ f.blocks)
    (htarget : target < f.params.size) (hbranch : branch < f.insts.size) :
    (f.splitWith source target branch types uniform passed).WellFormed := by
  have hcalls : ∀ call ∈ (f.targets branch).map (retarget target f.params.size uniform),
      call.block < (f.addBlock types).2.params.size := by
    intro call hcall
    obtain ⟨old, hold, rfl⟩ := List.mem_map.mp hcall
    rw [size_addBlock]
    unfold retarget
    split
    · exact Nat.lt_succ_self _
    · exact Nat.lt_succ_of_lt (h.targets_lt branch hbranch old hold)
  have hset := (h.addBlock types).setTargets branch hcalls
  have hsize := size_setTargets (f.addBlock types).2 branch
    ((f.targets branch).map (retarget target f.params.size uniform))
  have hparams := size_addBlock f types
  have hadd := hset.addInst (jumpSpec target passed) (by
    intro call hcall
    obtain rfl := List.mem_singleton.mp hcall
    exact hparams.symm ▸ Nat.lt_succ_of_lt htarget)
  refine hadd.layAfter hsource h.fresh_block ?_ (List.nodup_singleton _) ?_
  · exact hparams.symm ▸ Nat.lt_succ_self _
  · intro i hi
    obtain rfl := List.mem_singleton.mp hi
    rw [size_addInst]
    refine ⟨?_, Nat.lt_succ_self _⟩
    rw [hsize]
    exact h.fresh_inst

theorem lastInst?_splitWith (h : f.WellFormed) (hsource : source ∈ f.blocks) {b : BlockId}
    (hb : b ≠ f.params.size) :
    (f.splitWith source target branch types uniform passed).lastInst? b = f.lastInst? b := by
  unfold lastInst?
  rw [blockInsts_splitWith h hsource, if_neg hb]

theorem mem_flowSuccs_splitWith_new (h : f.WellFormed) (hsource : source ∈ f.blocks) {x : BlockId} :
    x ∈ (f.splitWith source target branch types uniform passed).flowSuccs f.params.size ↔
      x = target := by
  have hlast : (f.splitWith source target branch types uniform passed).lastInst? f.params.size =
      some f.insts.size := by
    unfold lastInst?
    rw [blockInsts_splitWith h hsource, if_pos rfl]
    rfl
  rw [mem_flowSuccs, hlast]
  constructor
  · rintro ⟨i, hi, -, call, hcall, rfl⟩
    obtain rfl := Option.some_inj.mp hi
    rw [inst_splitWith_jump.2, List.mem_singleton] at hcall
    rw [hcall]
  · rintro rfl
    refine ⟨f.insts.size, rfl, ?_, ⟨x, passed⟩, ?_, rfl⟩
    · rw [inst_splitWith_jump.1]
      rfl
    · rw [inst_splitWith_jump.2]
      exact List.mem_singleton_self _

theorem exists_retarget {calls : List BlockCall} {new x : BlockId}
    (hcall : ∃ call ∈ calls, call.block = target) :
    (∃ call ∈ calls.map (retarget target new uniform), call.block = x) ↔
      (∃ call ∈ calls, call.block = x) ∧ x ≠ target ∨ x = new := by
  have hblock : ∀ call : BlockCall, (retarget target new uniform call).block =
      if call.block = target then new else call.block := by
    intro call
    unfold retarget
    split <;> rfl
  constructor
  · rintro ⟨call, hmem, rfl⟩
    obtain ⟨old, hold, rfl⟩ := List.mem_map.mp hmem
    rw [hblock]
    by_cases heq : old.block = target
    · exact Or.inr (if_pos heq)
    · rw [if_neg heq]
      exact Or.inl ⟨⟨old, hold, rfl⟩, heq⟩
  · rintro (⟨⟨old, hold, rfl⟩, hne⟩ | rfl)
    · exact ⟨_, List.mem_map_of_mem hold, by rw [hblock, if_neg hne]⟩
    · obtain ⟨old, hold, heq⟩ := hcall
      exact ⟨_, List.mem_map_of_mem hold, by rw [hblock, if_pos heq]⟩

theorem mem_flowSuccs_splitWith (h : f.WellFormed) (hsource : f.lastInst? source = some branch)
    (hbranch : (f.opcode branch).isBranch = true) (hcall : ∃ call ∈ f.targets branch, call.block = target)
    {b x : BlockId} (hb : b ≠ f.params.size) :
    x ∈ (f.splitWith source target branch types uniform passed).flowSuccs b ↔
      (x ∈ f.flowSuccs b ∧ ¬ (b = source ∧ x = target)) ∨ (b = source ∧ x = f.params.size) := by
  have hmem : branch ∈ f.blockInsts source := List.mem_of_mem_getLast? hsource
  rw [mem_flowSuccs, mem_flowSuccs, lastInst?_splitWith h (mem_blocks_of_mem_blockInsts hmem) hb]
  by_cases hbs : b = source
  · subst hbs
    simp only [hsource, Option.some_inj, exists_eq_left', opcode_splitWith (h.lt_of_mem_blockInsts hmem),
      targets_splitWith_branch (h.lt_of_mem_blockInsts hmem), exists_retarget hcall, hbranch, true_and]
  · have hsame : ∀ i, f.lastInst? b = some i →
        (f.splitWith source target branch types uniform passed).inst i = f.inst i := by
      intro i hi
      have hib : i ∈ f.blockInsts b := List.mem_of_mem_getLast? hi
      apply inst_splitWith (h.lt_of_mem_blockInsts hib)
      rintro rfl
      exact hbs (h.block_unique hib hmem)
    have hiff : ∀ i, f.lastInst? b = some i →
        (((f.splitWith source target branch types uniform passed).opcode i).isBranch = true ∧
          (∃ call ∈ (f.splitWith source target branch types uniform passed).targets i,
            call.block = x) ↔
        (f.opcode i).isBranch = true ∧ ∃ call ∈ f.targets i, call.block = x) := by
      intro i hi
      unfold opcode targets
      rw [hsame i hi]
    simp only [hbs, false_and, not_false_eq_true, and_true, or_false]
    exact exists_congr fun i => and_congr_right (hiff i)

/-- An edge of the control flow that is split: the branch that ends the source leads to the target,
and the new block takes up what it passes. -/
structure SplitsEdge (f : Function) (source target : BlockId) (branch : InstId) (types : List Ty)
    (uniform : Bool) (passed : List ValueId) : Prop
    extends SplitChoice f target branch types uniform passed where
  last : f.lastInst? source = some branch
  isBranch : (f.opcode branch).isBranch = true
  leads : ∃ call ∈ f.targets branch, call.block = target

namespace SplitsEdge

variable (hsplit : SplitsEdge f source target branch types uniform passed)
include hsplit

theorem mem_blockInsts : branch ∈ f.blockInsts source := List.mem_of_mem_getLast? hsplit.last

theorem source_mem : source ∈ f.blocks := mem_blocks_of_mem_blockInsts hsplit.mem_blockInsts

theorem targets_ne_nil : f.targets branch ≠ [] := by
  obtain ⟨call, hcall, -⟩ := hsplit.leads
  exact List.ne_nil_of_mem hcall

theorem mem_flowSuccs : target ∈ f.flowSuccs source :=
  Function.mem_flowSuccs.mpr ⟨branch, hsplit.last, hsplit.isBranch, hsplit.leads⟩

theorem edgeSplit (h : f.WellFormed) :
    EdgeSplit f (f.splitWith source target branch types uniform passed) source target := by
  have hlt := h.lt_of_mem_blockInsts hsplit.mem_blockInsts
  have hsource := hsplit.source_mem
  constructor
  case wellFormed => exact h.splitWith hsource (h.flowSucc_lt hsplit.mem_flowSuccs) hlt
  case insts_size => exact insts_size_splitWith
  case params_size => exact size_addBlock f types
  case opcode_eq => exact fun i hi => opcode_splitWith hi
  case blockInsts_new => rw [blockInsts_splitWith h hsource, if_pos rfl]
  case blockInsts_old =>
    intro b hb
    rw [blockInsts_splitWith h hsource, if_neg hb]
  case flowSuccs_new => exact fun x => mem_flowSuccs_splitWith_new h hsource
  case flowSuccs_old =>
    exact fun b hb x => mem_flowSuccs_splitWith h hsplit.last hsplit.isBranch hsplit.leads hb

end SplitsEdge

theorem exists_splitsEdge (hedge : target ∈ f.flowSuccs source) :
    ∃ branch types uniform passed, f.splitEdge? source target =
        some (f.params.size, f.splitWith source target branch types uniform passed) ∧
      SplitsEdge f source target branch types uniform passed := by
  obtain ⟨branch, hlast, hbranch, hcall⟩ := mem_flowSuccs.mp hedge
  have hterminator : f.terminator? source = some branch :=
    (terminator?_of_mem_flowSuccs hedge).trans hlast
  obtain ⟨types, uniform, passed, hsplit, hchoice⟩ := splitEdge?_choice hterminator hcall
  exact ⟨branch, types, uniform, passed, hsplit, hchoice, hlast, hbranch, hcall⟩

theorem WellFormed.splitEdge?_edgeSplit (h : f.WellFormed) (hedge : target ∈ f.flowSuccs source) :
    ∃ g, f.splitEdge? source target = some (f.params.size, g) ∧ EdgeSplit f g source target := by
  obtain ⟨branch, types, uniform, passed, hg, hsplit⟩ := exists_splitsEdge hedge
  exact ⟨_, hg, hsplit.edgeSplit h⟩

end Split

end Function

end SpecFence
