import Mathlib.Data.List.Infix
import Mathlib.Data.List.Nodup
import Mathlib.Data.List.Pairwise
import SpecFence.Ir.Flow
import SpecFence.Placement.Placer

/-!
# Steps of control

An instruction is followed by the next one of its block, and the last instruction of a block by the
first instruction of each successor.  In a well formed function, where nothing is laid out twice and
all numbers are in range, the queries of a function say what they are meant to say about that
relation.
-/

set_option autoImplicit false

namespace SpecFence

section Adjacent

variable {α : Type} {a b c x : α} {l : List α}

def Adjacent (l : List α) (a b : α) : Prop := [a, b] <:+: l

theorem not_adjacent_nil : ¬ Adjacent ([] : List α) a b := by
  intro h
  have hlength := h.length_le
  simp at hlength

theorem adjacent_cons : Adjacent (x :: l) a b ↔ (a = x ∧ l.head? = some b) ∨ Adjacent l a b := by
  unfold Adjacent
  rw [List.infix_cons_iff, List.cons_prefix_cons]
  cases l with
  | nil => simp
  | cons y l => simp [eq_comm]

theorem Adjacent.mem_left (h : Adjacent l a b) : a ∈ l := h.subset (by simp)

theorem Adjacent.mem_right (h : Adjacent l a b) : b ∈ l := h.subset (by simp)

theorem Adjacent.ne_head (hl : l.Nodup) (h : Adjacent l a b) : l.head? ≠ some b := by
  cases l with
  | nil => simp
  | cons y l =>
    rw [List.nodup_cons] at hl
    intro hhead
    have hy : y = b := by simpa using hhead
    rcases adjacent_cons.mp h with ⟨-, hnext⟩ | hrest
    · rw [hy] at hl
      exact hl.1 (List.mem_of_mem_head? hnext)
    · rw [hy] at hl
      exact hl.1 hrest.mem_right

theorem Adjacent.left_unique (hl : l.Nodup) (ha : Adjacent l a c) (hb : Adjacent l b c) : a = b := by
  induction l with
  | nil => exact absurd ha not_adjacent_nil
  | cons y l ih =>
    rw [List.nodup_cons] at hl
    rcases adjacent_cons.mp ha with ⟨rfl, hnext⟩ | ha'
    · rcases adjacent_cons.mp hb with ⟨rfl, -⟩ | hb'
      · rfl
      · exact absurd hnext (hb'.ne_head hl.2)
    · rcases adjacent_cons.mp hb with ⟨rfl, hnext⟩ | hb'
      · exact absurd hnext (ha'.ne_head hl.2)
      · exact ih hl.2 ha' hb'

theorem Adjacent.ne_getLast (hl : l.Nodup) (h : Adjacent l a b) : l.getLast? ≠ some a := by
  induction l with
  | nil => exact absurd h not_adjacent_nil
  | cons y l ih =>
    rw [List.nodup_cons] at hl
    cases l with
    | nil =>
      rcases adjacent_cons.mp h with ⟨-, hnext⟩ | hrest
      · simp at hnext
      · exact absurd hrest not_adjacent_nil
    | cons z l =>
      rw [List.getLast?_cons_cons]
      rcases adjacent_cons.mp h with ⟨rfl, -⟩ | hrest
      · intro hlast
        exact hl.1 (List.mem_of_mem_getLast? hlast)
      · exact ih hl.2 hrest

end Adjacent

namespace Function

theorem mem_of_before? {i x : InstId} {l : List InstId} (h : before? i l = some x) : i ∈ l := by
  induction l with
  | nil => cases h
  | cons a l ih =>
    cases l with
    | nil => cases h
    | cons b l =>
      by_cases hb : b = i
      · simp [hb]
      · rw [before?, if_neg hb] at h
        exact List.mem_cons_of_mem a (ih h)

theorem before?_eq_some_iff {i x : InstId} {l : List InstId} (hl : l.Nodup) :
    before? i l = some x ↔ Adjacent l x i := by
  induction l with
  | nil => simp [before?, not_adjacent_nil]
  | cons a l ih =>
    rw [List.nodup_cons] at hl
    cases l with
    | nil => simp [before?, adjacent_cons, not_adjacent_nil]
    | cons b l =>
      rw [before?, adjacent_cons, List.head?_cons, Option.some_inj]
      by_cases hbi : b = i
      · have hnot : ¬ Adjacent (b :: l) x i := by
          intro h
          exact h.ne_head hl.2 (by rw [hbi]; rfl)
        rw [if_pos hbi, Option.some_inj]
        constructor
        · intro hax
          exact Or.inl ⟨hax.symm, hbi⟩
        · rintro (⟨hax, -⟩ | hrest)
          · exact hax.symm
          · exact absurd hrest hnot
      · rw [if_neg hbi, ih hl.2]
        simp [hbi]

/-- Nothing is laid out twice, and all blocks and instructions that are named exist. -/
structure WellFormed (f : Function) : Prop where
  blocks_nodup : f.blocks.Nodup
  blocks_lt : ∀ b ∈ f.blocks, b < f.params.size
  insts_nodup : f.layoutInsts.Nodup
  insts_lt : ∀ i ∈ f.layoutInsts, i < f.insts.size
  targets_lt : ∀ i < f.insts.size, ∀ call ∈ f.targets i, call.block < f.params.size

instance (f : Function) : Decidable f.WellFormed :=
  decidable_of_iff
    (f.blocks.Nodup ∧ (∀ b ∈ f.blocks, b < f.params.size) ∧ f.layoutInsts.Nodup ∧
      (∀ i ∈ f.layoutInsts, i < f.insts.size) ∧
      ∀ i < f.insts.size, ∀ call ∈ f.targets i, call.block < f.params.size)
    ⟨fun ⟨a, b, c, d, e⟩ => ⟨a, b, c, d, e⟩, fun ⟨a, b, c, d, e⟩ => ⟨a, b, c, d, e⟩⟩

/-- A function has no fence. -/
def FenceFree (f : Function) : Prop := ∀ i ∈ f.layoutInsts, f.isFence i = false

instance (f : Function) : Decidable f.FenceFree :=
  inferInstanceAs (Decidable (∀ i ∈ f.layoutInsts, f.isFence i = false))

/-- Control passes from one instruction to another: to the next one of the block, or from the end of
a block to the start of a successor. -/
def Follows (f : Function) (i j : InstId) : Prop :=
  (∃ b, Adjacent (f.blockInsts b) i j) ∨
    ∃ b t, f.lastInst? b = some i ∧ t ∈ f.flowSuccs b ∧ f.firstInst? t = some j

variable {f : Function}

section Layout

theorem find?_layout {l : LaidBlock} (h : f.blocks.Nodup) (hl : l ∈ f.layout) :
    f.layout.find? (fun x => x.block == l.block) = some l := by
  unfold blocks at h
  generalize f.layout = layout at h hl ⊢
  induction layout with
  | nil => exact absurd hl List.not_mem_nil
  | cons a rest ih =>
    rw [List.map_cons, List.nodup_cons] at h
    rcases List.mem_cons.mp hl with rfl | hrest
    · simp
    · have hne : a.block ≠ l.block := by
        intro heq
        rw [heq] at h
        exact h.1 (List.mem_map.mpr ⟨l, hrest, rfl⟩)
      rw [List.find?_cons_of_neg (by simpa using hne)]
      exact ih h.2 hrest

theorem blockInsts_eq {l : LaidBlock} (h : f.blocks.Nodup) (hl : l ∈ f.layout) :
    f.blockInsts l.block = l.insts := by
  unfold blockInsts
  rw [find?_layout h hl]
  rfl

theorem mem_blocks {b : BlockId} : b ∈ f.blocks ↔ ∃ l ∈ f.layout, l.block = b :=
  List.mem_map

theorem blockInsts_of_not_mem {b : BlockId} (h : b ∉ f.blocks) : f.blockInsts b = [] := by
  unfold blockInsts
  have hnone : f.layout.find? (fun l => l.block == b) = none := by
    rw [List.find?_eq_none]
    intro l hl hb
    exact h (mem_blocks.mpr ⟨l, hl, by simpa using hb⟩)
  rw [hnone]
  rfl

theorem mem_blocks_of_mem_blockInsts {b : BlockId} {i : InstId} (h : i ∈ f.blockInsts b) :
    b ∈ f.blocks := by
  by_contra hnot
  rw [blockInsts_of_not_mem hnot] at h
  exact List.not_mem_nil h

namespace WellFormed

variable (h : f.WellFormed)
include h

theorem mem_layoutInsts {i : InstId} : i ∈ f.layoutInsts ↔ ∃ b, i ∈ f.blockInsts b := by
  unfold layoutInsts
  rw [List.mem_flatMap]
  constructor
  · rintro ⟨l, hl, hi⟩
    refine ⟨l.block, ?_⟩
    rw [blockInsts_eq h.blocks_nodup hl]
    exact hi
  · rintro ⟨b, hi⟩
    obtain ⟨l, hl, rfl⟩ := mem_blocks.mp (mem_blocks_of_mem_blockInsts hi)
    rw [blockInsts_eq h.blocks_nodup hl] at hi
    exact ⟨l, hl, hi⟩

theorem nodup_blockInsts (b : BlockId) : (f.blockInsts b).Nodup := by
  by_cases hb : b ∈ f.blocks
  · obtain ⟨l, hl, rfl⟩ := mem_blocks.mp hb
    rw [blockInsts_eq h.blocks_nodup hl]
    exact (List.nodup_flatMap.mp h.insts_nodup).1 l hl
  · rw [blockInsts_of_not_mem hb]
    exact List.nodup_nil

theorem block_unique {a b : BlockId} {i : InstId} (ha : i ∈ f.blockInsts a)
    (hb : i ∈ f.blockInsts b) : a = b := by
  obtain ⟨l, hl, rfl⟩ := mem_blocks.mp (mem_blocks_of_mem_blockInsts ha)
  obtain ⟨m, hm, rfl⟩ := mem_blocks.mp (mem_blocks_of_mem_blockInsts hb)
  rw [blockInsts_eq h.blocks_nodup hl] at ha
  rw [blockInsts_eq h.blocks_nodup hm] at hb
  by_contra hne
  have hpairwise := (List.nodup_flatMap.mp h.insts_nodup).2
  have hlm : l ≠ m := fun heq => hne (congrArg LaidBlock.block heq)
  have hsymm : Std.Symm (Function.onFun List.Disjoint LaidBlock.insts) := by
    constructor
    intro x y hxy i hy hx
    exact hxy hx hy
  exact hpairwise.forall hl hm hlm ha hb

theorem lt_of_mem_blockInsts {b : BlockId} {i : InstId} (hi : i ∈ f.blockInsts b) :
    i < f.insts.size :=
  h.insts_lt i (h.mem_layoutInsts.mpr ⟨b, hi⟩)

theorem blockOf?_eq_some_iff {i : InstId} {b : BlockId} :
    f.blockOf? i = some b ↔ i ∈ f.blockInsts b := by
  unfold blockOf?
  constructor
  · intro hsome
    obtain ⟨l, hfind, rfl⟩ := Option.map_eq_some_iff.mp hsome
    rw [blockInsts_eq h.blocks_nodup (List.mem_of_find?_eq_some hfind)]
    simpa using List.find?_some hfind
  · intro hi
    obtain ⟨l, hl, rfl⟩ := mem_blocks.mp (mem_blocks_of_mem_blockInsts hi)
    have hli : i ∈ l.insts := by
      rw [← blockInsts_eq h.blocks_nodup hl]
      exact hi
    cases hfind : f.layout.find? fun l => l.insts.contains i with
    | none =>
      have hnot := List.find?_eq_none.mp hfind l hl
      exact absurd (by simpa using hli) hnot
    | some m =>
      have hm := List.mem_of_find?_eq_some hfind
      have hmi : i ∈ f.blockInsts m.block := by
        rw [blockInsts_eq h.blocks_nodup hm]
        simpa using List.find?_some hfind
      rw [Option.map_some, h.block_unique hmi hi]

/-- A query of the instructions of one block that answers only where an instruction stands finds the
block of that instruction. -/
theorem findSome?_layout {q : List InstId → Option InstId} {i x : InstId}
    (hq : ∀ l y, q l = some y → i ∈ l) :
    (f.layout.findSome? fun l => q l.insts) = some x ↔ ∃ b, q (f.blockInsts b) = some x := by
  constructor
  · intro hsome
    obtain ⟨l, hl, hx⟩ := List.exists_of_findSome?_eq_some hsome
    exact ⟨l.block, by rwa [blockInsts_eq h.blocks_nodup hl]⟩
  · rintro ⟨b, hx⟩
    have hmem := hq _ x hx
    obtain ⟨l, hl, rfl⟩ := mem_blocks.mp (mem_blocks_of_mem_blockInsts hmem)
    cases hfind : f.layout.findSome? fun l => q l.insts with
    | none =>
      have hnone := List.findSome?_eq_none_iff.mp hfind l hl
      rw [← blockInsts_eq h.blocks_nodup hl, hx] at hnone
      cases hnone
    | some y =>
      obtain ⟨m, hm, hy⟩ := List.exists_of_findSome?_eq_some hfind
      rw [← blockInsts_eq h.blocks_nodup hm] at hy
      rw [h.block_unique hmem (hq _ y hy), hy] at hx
      exact hx

theorem prevInst?_eq_some_iff {i x : InstId} :
    f.prevInst? i = some x ↔ ∃ b, Adjacent (f.blockInsts b) x i := by
  have hbefore : ∀ b, before? i (f.blockInsts b) = some x ↔ Adjacent (f.blockInsts b) x i :=
    fun b => before?_eq_some_iff (h.nodup_blockInsts b)
  unfold prevInst?
  rw [h.findSome?_layout fun l y => mem_of_before?]
  simp only [hbefore]

theorem hasFenceBefore_iff {i : InstId} :
    f.hasFenceBefore i = true ↔ ∃ b x, Adjacent (f.blockInsts b) x i ∧ f.isFence x = true := by
  unfold hasFenceBefore
  rw [Option.any_eq_true]
  constructor
  · rintro ⟨x, hx, hfence⟩
    obtain ⟨b, hadjacent⟩ := h.prevInst?_eq_some_iff.mp hx
    exact ⟨b, x, hadjacent, hfence⟩
  · rintro ⟨b, x, hadjacent, hfence⟩
    exact ⟨x, h.prevInst?_eq_some_iff.mpr ⟨b, hadjacent⟩, hfence⟩

theorem mem_layoutInsts_of_follows {a x : InstId} (hax : f.Follows a x) : x ∈ f.layoutInsts := by
  rcases hax with ⟨b, hadjacent⟩ | ⟨-, t, -, -, hfirst⟩
  · exact h.mem_layoutInsts.mpr ⟨b, hadjacent.mem_right⟩
  · exact h.mem_layoutInsts.mpr ⟨t, List.mem_of_mem_head? hfirst⟩

theorem lt_of_follows {a x : InstId} (hax : f.Follows a x) : x < f.insts.size :=
  h.insts_lt x (h.mem_layoutInsts_of_follows hax)

theorem follows_iff_flowSuccs {a x : InstId} {s t : BlockId} (hlast : f.lastInst? s = some a)
    (hfirst : f.firstInst? t = some x) : f.Follows a x ↔ t ∈ f.flowSuccs s := by
  have hmems : a ∈ f.blockInsts s := List.mem_of_mem_getLast? hlast
  have hmemt : x ∈ f.blockInsts t := List.mem_of_mem_head? hfirst
  constructor
  · rintro (⟨b, hadjacent⟩ | ⟨b, t', hlast', ht', hfirst'⟩)
    · obtain rfl := h.block_unique hmems hadjacent.mem_left
      exact absurd hlast (hadjacent.ne_getLast (h.nodup_blockInsts s))
    · obtain rfl := h.block_unique hmems (List.mem_of_mem_getLast? hlast')
      obtain rfl := h.block_unique hmemt (List.mem_of_mem_head? hfirst')
      exact ht'
  · intro ht
    exact Or.inr ⟨s, t, hlast, ht, hfirst⟩

end WellFormed

end Layout

section Flow

theorem mem_flowSuccs {b t : BlockId} :
    t ∈ f.flowSuccs b ↔ ∃ i, f.lastInst? b = some i ∧ (f.opcode i).isBranch = true ∧
      ∃ call ∈ f.targets i, call.block = t := by
  unfold flowSuccs flowTargets
  rw [AscSet.mem_ofList, List.mem_map]
  cases hlast : f.lastInst? b with
  | none => simp
  | some i =>
    by_cases hbranch : (f.opcode i).isBranch = true
    · simp [hbranch]
    · simp [hbranch]

theorem mem_blocks_of_mem_flowSuccs {b t : BlockId} (h : t ∈ f.flowSuccs b) : b ∈ f.blocks := by
  obtain ⟨i, hlast, -⟩ := mem_flowSuccs.mp h
  exact mem_blocks_of_mem_blockInsts (List.mem_of_mem_getLast? hlast)

theorem isTerminator_of_isBranch {o : Opcode} (h : o.isBranch = true) : o.isTerminator = true := by
  cases o <;> first | rfl | cases h

theorem terminator?_of_mem_flowSuccs {b t : BlockId} (h : t ∈ f.flowSuccs b) :
    f.terminator? b = f.lastInst? b := by
  obtain ⟨i, hlast, hbranch, -⟩ := mem_flowSuccs.mp h
  unfold terminator?
  rw [hlast, Option.filter_some, if_pos (isTerminator_of_isBranch hbranch)]

def SolePred (f : Function) (a b : BlockId) : Prop :=
  b ∈ f.flowSuccs a ∧ ∀ c, b ∈ f.flowSuccs c → c = a

theorem length_eraseDups_eq_one {l : List BlockId} :
    l.eraseDups.length = 1 ↔ ∃ a ∈ l, ∀ x ∈ l, x = a := by
  cases l with
  | nil => simp
  | cons a l =>
    rw [List.eraseDups_cons, List.length_cons, Nat.add_eq_right, List.length_eq_zero_iff]
    constructor
    · intro hnil
      refine ⟨a, List.mem_cons_self, ?_⟩
      intro x hx
      rcases List.mem_cons.mp hx with rfl | hx
      · rfl
      · by_contra hne
        have hmem : x ∈ (l.filter fun b => !b == a).eraseDups :=
          List.mem_eraseDups.mpr (List.mem_filter.mpr ⟨hx, by simpa using hne⟩)
        rw [hnil] at hmem
        exact List.not_mem_nil hmem
    · rintro ⟨c, -, hall⟩
      rw [List.eq_nil_iff_forall_not_mem]
      intro x hx
      obtain ⟨hmem, hne⟩ := List.mem_filter.mp (List.mem_eraseDups.mp hx)
      have hxc := hall x (List.mem_cons_of_mem a hmem)
      have hac := hall a List.mem_cons_self
      simp [hxc, hac] at hne

theorem WellFormed.mem_flowPreds (h : f.WellFormed) {a b : BlockId} :
    a ∈ (f.flowPreds b).map FlowPred.block ↔ b ∈ f.flowSuccs a := by
  unfold flowPreds
  rw [List.mem_map]
  constructor
  · rintro ⟨p, hp, rfl⟩
    rw [List.mem_mergeSort, List.mem_filterMap] at hp
    obtain ⟨l, hl, hsome⟩ := hp
    split at hsome
    · rename_i hany
      obtain ⟨call, hcall, hblock⟩ := List.any_eq_true.mp hany
      obtain ⟨i, -, rfl⟩ := Option.map_eq_some_iff.mp hsome
      unfold flowSuccs
      rw [AscSet.mem_ofList, List.mem_map]
      exact ⟨call, hcall, by simpa using hblock⟩
    · cases hsome
  · intro hsucc
    obtain ⟨i, hlast, hbranch, call, hcall, rfl⟩ := mem_flowSuccs.mp hsucc
    obtain ⟨l, hl, rfl⟩ := mem_blocks.mp (mem_blocks_of_mem_flowSuccs hsucc)
    have hlast' : l.insts.getLast? = some i := by
      rw [← blockInsts_eq h.blocks_nodup hl]
      exact hlast
    refine ⟨⟨l.block, i⟩, ?_, rfl⟩
    rw [List.mem_mergeSort, List.mem_filterMap]
    refine ⟨l, hl, ?_⟩
    have htargets : f.flowTargets l.block = f.targets i := by
      unfold flowTargets
      rw [hlast]
      exact if_pos hbranch
    rw [htargets, if_pos (List.any_eq_true.mpr ⟨call, hcall, by simp⟩), hlast']
    rfl

theorem WellFormed.predBlockCount_eq_one (h : f.WellFormed) {b : BlockId} :
    f.predBlockCount b = 1 ↔ ∃ a, f.SolePred a b := by
  unfold predBlockCount SolePred
  rw [length_eraseDups_eq_one]
  constructor
  · rintro ⟨a, ha, hall⟩
    refine ⟨a, h.mem_flowPreds.mp ha, ?_⟩
    intro c hc
    exact hall c (h.mem_flowPreds.mpr hc)
  · rintro ⟨a, ha, hall⟩
    refine ⟨a, h.mem_flowPreds.mpr ha, ?_⟩
    intro c hc
    exact hall c (h.mem_flowPreds.mp hc)

theorem toList_eq_singleton {s : AscSet BlockId} {t : BlockId} :
    s.toList = [t] ↔ ∀ x, x ∈ s ↔ x = t := by
  constructor
  · intro hs x
    rw [AscSet.mem_def, hs, List.mem_singleton]
  · intro hs
    have heq : s = AscSet.singleton t := by
      ext x
      rw [hs x, AscSet.mem_singleton]
    rw [heq]
    rfl

theorem size_eq_one {s : AscSet BlockId} : s.size = 1 ↔ ∃ t, ∀ x, x ∈ s ↔ x = t := by
  unfold AscSet.size
  rw [List.length_eq_one_iff]
  exact exists_congr fun t => toList_eq_singleton

end Flow

end Function

end SpecFence
