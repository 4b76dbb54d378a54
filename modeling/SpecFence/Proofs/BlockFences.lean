import Mathlib.Logic.Equiv.Defs
import SpecFence.Proofs.LinearBlocks
import SpecFence.Proofs.PlacedEdges

/-!
# Fences at the top of linear blocks

With one fence for each linear block, a cut puts a fence on top of the linear blocks that it enters,
unless they start with one.  So nothing but these fences is put in, and in which order the edges of
the cut come matters only for the numbers of the fences.
-/

set_option autoImplicit false

namespace SpecFence

namespace Function

variable {f : Function} {b : BlockId} {i t : InstId} {l seg : List InstId}

section Fences

variable {tops : List InstId}

def withFencesBefore (f : Function) (tops : List InstId) : Function := tops.foldl withFenceBefore f

/-- An instruction with its fence, if it is one of those that fences are put before: the fences are
numbered in the order of these instructions. -/
def fenced (f : Function) (tops : List InstId) (i : InstId) : List InstId :=
  if i ∈ tops then [f.insts.size + tops.idxOf i, i] else [i]

def fenceData : InstData := ⟨.fence, [], .none, none, []⟩

theorem withFencesBefore_concat (tops : List InstId) (t : InstId) :
    f.withFencesBefore (tops ++ [t]) = (f.withFencesBefore tops).withFenceBefore t := by
  unfold withFencesBefore
  rw [List.foldl_append]
  rfl

theorem insts_withFencesBefore (tops : List InstId) :
    (f.withFencesBefore tops).insts = f.insts ++ Array.replicate tops.length fenceData := by
  induction tops using List.reverseRecOn with
  | nil => simp [withFencesBefore]
  | append_singleton tops t ih =>
    rw [withFencesBefore_concat]
    change ((f.withFencesBefore tops).insts.push fenceData) = _
    rw [ih, List.length_append, List.length_singleton, Array.replicate_succ, Array.append_push]

theorem size_withFencesBefore (tops : List InstId) :
    (f.withFencesBefore tops).insts.size = f.insts.size + tops.length := by
  rw [insts_withFencesBefore]
  simp

theorem fenced_concat {a : InstId} (ha : a ≠ t) : f.fenced (tops ++ [t]) a = f.fenced tops a := by
  unfold fenced
  by_cases hmem : a ∈ tops
  · rw [if_pos hmem, if_pos (List.mem_append_left _ hmem), List.idxOf_append_of_mem hmem]
  · rw [if_neg hmem, if_neg]
    simp [hmem, ha]

theorem fenced_concat_self (ht : t ∉ tops) :
    f.fenced (tops ++ [t]) t = [f.insts.size + tops.length, t] := by
  unfold fenced
  rw [if_pos (by simp), List.idxOf_append_of_notMem ht]
  simp

theorem insertBeforeIn_flatMap_fenced (hl : l.Nodup) (hlt : ∀ i ∈ l, i < f.insts.size)
    (ht : t ∉ tops) (htlt : t < f.insts.size) :
    insertBeforeIn (f.insts.size + tops.length) t (l.flatMap (f.fenced tops)) =
      l.flatMap (f.fenced (tops ++ [t])) := by
  induction l with
  | nil => rfl
  | cons a l ih =>
    rw [List.nodup_cons] at hl
    rw [List.forall_mem_cons] at hlt
    rw [List.flatMap_cons, List.flatMap_cons]
    by_cases ha : a = t
    · have hrest : l.flatMap (f.fenced (tops ++ [t])) = l.flatMap (f.fenced tops) := by
        apply List.flatMap_congr
        intro x hx
        apply fenced_concat
        rintro rfl
        exact hl.1 (ha ▸ hx)
      rw [ha, hrest, fenced_concat_self ht]
      unfold fenced
      rw [if_neg ht, List.singleton_append, insertBeforeIn, if_pos rfl]
      rfl
    · rw [fenced_concat ha, ← ih hl.2 hlt.2]
      have hfence : f.insts.size + tops.idxOf a ≠ t :=
        (Nat.ne_of_lt (Nat.lt_of_lt_of_le htlt (Nat.le_add_right _ _))).symm
      unfold fenced
      by_cases hmem : a ∈ tops
      · rw [if_pos hmem]
        simp only [List.cons_append, List.nil_append, insertBeforeIn, if_neg hfence, if_neg ha]
      · rw [if_neg hmem]
        simp only [List.cons_append, List.nil_append, insertBeforeIn, if_neg ha]

theorem layout_withFencesBefore (h : f.WellFormed) (hnodup : tops.Nodup)
    (hlt : ∀ t ∈ tops, t < f.insts.size) :
    (f.withFencesBefore tops).layout =
      f.layout.map fun l => { l with insts := l.insts.flatMap (f.fenced tops) } := by
  induction tops using List.reverseRecOn with
  | nil =>
    have hsame : ∀ l : LaidBlock, l.insts.flatMap (f.fenced []) = l.insts := by
      intro l
      unfold fenced
      simp
    simp [withFencesBefore, hsame]
  | append_singleton tops t ih =>
    rw [List.nodup_append] at hnodup
    rw [List.forall_mem_append, List.forall_mem_singleton] at hlt
    have ht : t ∉ tops := fun hmem => hnodup.2.2 t hmem t List.mem_cons_self rfl
    rw [withFencesBefore_concat]
    change ((f.withFencesBefore tops).layout.map fun l => { l with
      insts := insertBeforeIn (f.withFencesBefore tops).insts.size t l.insts }) = _
    rw [ih hnodup.1 hlt.1, List.map_map, size_withFencesBefore]
    apply List.map_congr_left
    intro l hl
    have hinsts := blockInsts_eq h.blocks_nodup hl
    have hblock := h.nodup_blockInsts l.block
    have hblockLt : ∀ i ∈ f.blockInsts l.block, i < f.insts.size :=
      fun i hi => h.lt_of_mem_blockInsts hi
    rw [hinsts] at hblock hblockLt
    exact congrArg (LaidBlock.mk l.block)
      (insertBeforeIn_flatMap_fenced hblock hblockLt ht hlt.2)

theorem inst_withFencesBefore (hi : i < f.insts.size) :
    (f.withFencesBefore tops).inst i = f.inst i := by
  unfold inst
  rw [insts_withFencesBefore, Array.getElem?_append_left hi]

theorem opcode_withFencesBefore (hi : i < f.insts.size) :
    (f.withFencesBefore tops).opcode i = f.opcode i :=
  congrArg InstData.opcode (inst_withFencesBefore hi)

theorem inst_withFencesBefore_fence (ht : t ∈ tops) :
    (f.withFencesBefore tops).inst (f.insts.size + tops.idxOf t) = fenceData := by
  have hidx : tops.idxOf t < tops.length := List.idxOf_lt_length_of_mem ht
  unfold inst
  rw [insts_withFencesBefore, Array.getElem?_append_right (Nat.le_add_right _ _),
    Nat.add_sub_cancel_left, Array.getElem?_replicate, if_pos hidx]
  rfl

theorem isFence_withFencesBefore (ht : t ∈ tops) :
    (f.withFencesBefore tops).isFence (f.insts.size + tops.idxOf t) = true := by
  unfold isFence opcode
  rw [inst_withFencesBefore_fence ht]
  rfl

theorem decorates_withFencesBefore (h : f.WellFormed) (tops : List InstId) :
    Decorates f (f.withFencesBefore tops) := by
  induction tops using List.reverseRecOn with
  | nil => exact Decorates.refl h
  | append_singleton tops t ih =>
    rw [withFencesBefore_concat]
    exact ih.trans (decorates_withFenceBefore ih.wellFormed)

theorem params_withFencesBefore (tops : List InstId) :
    (f.withFencesBefore tops).params = f.params := by
  induction tops using List.reverseRecOn with
  | nil => rfl
  | append_singleton tops t ih =>
    rw [withFencesBefore_concat]
    exact ih

theorem values_withFencesBefore (tops : List InstId) :
    (f.withFencesBefore tops).values = f.values := by
  induction tops using List.reverseRecOn with
  | nil => rfl
  | append_singleton tops t ih =>
    rw [withFencesBefore_concat, values_withFenceBefore]
    exact ih

theorem names_withFencesBefore (tops : List InstId) :
    (f.withFencesBefore tops).name = f.name ∧ (f.withFencesBefore tops).slots = f.slots ∧
      (f.withFencesBefore tops).globals = f.globals := by
  induction tops using List.reverseRecOn with
  | nil => exact ⟨rfl, rfl, rfl⟩
  | append_singleton tops t ih =>
    rw [withFencesBefore_concat]
    exact ih

theorem blockInsts_withFencesBefore (h : f.WellFormed) (hnodup : tops.Nodup)
    (hlt : ∀ t ∈ tops, t < f.insts.size) (b : BlockId) :
    (f.withFencesBefore tops).blockInsts b = (f.blockInsts b).flatMap (f.fenced tops) := by
  unfold blockInsts
  rw [layout_withFencesBefore h hnodup hlt, List.find?_map]
  have htest : ((fun l : LaidBlock => l.block == b) ∘
      fun l : LaidBlock => { l with insts := l.insts.flatMap (f.fenced tops) }) =
      fun l : LaidBlock => l.block == b := rfl
  rw [htest]
  cases f.layout.find? fun l => l.block == b with
  | none => rfl
  | some l => rfl

theorem foldr_joinLinear_fenced (hi : i < f.insts.size) (segs : List (List InstId)) :
    (f.fenced tops i).foldr (f.withFencesBefore tops).joinLinear
        (segs.map fun seg => seg.flatMap (f.fenced tops)) =
      (f.joinLinear i segs).map fun seg => seg.flatMap (f.fenced tops) := by
  have hsame : (f.withFencesBefore tops).endsLinear i = f.endsLinear i := by
    unfold endsLinear
    rw [opcode_withFencesBefore hi]
  have hopen : i ∈ tops →
      (f.withFencesBefore tops).endsLinear (f.insts.size + tops.idxOf i) = false := by
    intro hmem
    unfold endsLinear opcode
    rw [inst_withFencesBefore_fence hmem]
    rfl
  by_cases hmem : i ∈ tops
  · have hfenced : f.fenced tops i = [f.insts.size + tops.idxOf i, i] := if_pos hmem
    rw [hfenced]
    unfold joinLinear
    by_cases hends : f.endsLinear i = true
    · simp [hsame, hends, hopen hmem, hfenced]
    · cases segs with
      | nil => simp [hsame, hends, hopen hmem, hfenced]
      | cons seg segs => simp [hsame, hends, hopen hmem, hfenced]
  · have hfenced : f.fenced tops i = [i] := if_neg hmem
    rw [hfenced]
    unfold joinLinear
    by_cases hends : f.endsLinear i = true
    · simp [hsame, hends, hfenced]
    · cases segs with
      | nil => simp [hsame, hends, hfenced]
      | cons seg segs => simp [hsame, hends, hfenced]

theorem linearBlocksIn_flatMap_fenced (hlt : ∀ i ∈ l, i < f.insts.size) :
    (f.withFencesBefore tops).linearBlocksIn (l.flatMap (f.fenced tops)) =
      (f.linearBlocksIn l).map fun seg => seg.flatMap (f.fenced tops) := by
  induction l with
  | nil => rfl
  | cons a l ih =>
    rw [List.forall_mem_cons] at hlt
    unfold linearBlocksIn at ih ⊢
    rw [List.flatMap_cons, List.foldr_append, ih hlt.2, foldr_joinLinear_fenced hlt.1]
    rfl

/-- The instructions that fences are put before: each starts its linear block, and is no fence. -/
structure Tops (f : Function) (tops : List InstId) : Prop where
  nodup : tops.Nodup
  laid : ∀ t ∈ tops, t ∈ f.layoutInsts
  top : ∀ t ∈ tops, f.linearTop t = t
  open_ : ∀ t ∈ tops, f.isFence t = false

namespace Tops

variable (h : f.WellFormed) (htops : f.Tops tops)
include h htops

theorem lt : ∀ t ∈ tops, t < f.insts.size := fun t ht => h.insts_lt t (htops.laid t ht)

theorem linearBlocks (b : BlockId) : (f.withFencesBefore tops).linearBlocks b =
    (f.linearBlocks b).map fun seg => seg.flatMap (f.fenced tops) := by
  unfold Function.linearBlocks
  rw [blockInsts_withFencesBefore h htops.nodup (htops.lt h)]
  exact linearBlocksIn_flatMap_fenced fun i hi => h.lt_of_mem_blockInsts hi

theorem flatMap_fenced (hseg : seg ∈ f.linearBlocks b) (hhead : seg.head? = some t) :
    seg.flatMap (f.fenced tops) =
      if t ∈ tops then (f.insts.size + tops.idxOf t) :: seg else seg := by
  obtain ⟨rest, rfl⟩ := List.head?_eq_some_iff.mp hhead
  have hnodup : (t :: rest).Nodup := by
    have hflat := h.nodup_blockInsts b
    rw [← f.flatten_linearBlocksIn (f.blockInsts b)] at hflat
    exact (List.nodup_flatten.mp hflat).1 _ hseg
  -- what is further down in a linear block is not its top
  have hrest : rest.flatMap (f.fenced tops) = rest := by
    have hsingle : ∀ x ∈ rest, f.fenced tops x = [x] := by
      intro x hx
      apply if_neg
      intro hmem
      have htop := linearTop_eq h hseg (List.mem_cons_of_mem t hx)
      rw [htops.top x hmem, List.head?_cons, Option.some_inj] at htop
      exact (List.nodup_cons.mp hnodup).1 (htop ▸ hx)
    rw [List.flatMap_congr hsingle]
    exact List.flatMap_singleton' rest
  rw [List.flatMap_cons, hrest]
  unfold fenced
  split
  · rfl
  · rfl

theorem blocks : (f.withFencesBefore tops).blocks = f.blocks := by
  unfold Function.blocks
  rw [layout_withFencesBefore h htops.nodup (htops.lt h), List.map_map]
  rfl

theorem linearTop (hi : i ∈ f.layoutInsts) : (f.withFencesBefore tops).linearTop i =
    if f.linearTop i ∈ tops then f.insts.size + tops.idxOf (f.linearTop i) else f.linearTop i := by
  obtain ⟨b, seg, hseg, hmem, hhead⟩ := exists_linearTop h hi
  have hfenced := htops.flatMap_fenced h hseg hhead
  have hseg' : seg.flatMap (f.fenced tops) ∈ (f.withFencesBefore tops).linearBlocks b := by
    rw [htops.linearBlocks h]
    exact List.mem_map_of_mem hseg
  have hmem' : i ∈ seg.flatMap (f.fenced tops) := by
    rw [hfenced]
    split
    · exact List.mem_cons_of_mem _ hmem
    · exact hmem
  have hhead' := linearTop_eq (decorates_withFencesBefore h tops).wellFormed hseg' hmem'
  rw [hfenced] at hhead'
  by_cases htop : f.linearTop i ∈ tops
  · rw [if_pos htop] at hhead' ⊢
    exact (Option.some_inj.mp hhead').symm
  · rw [if_neg htop] at hhead' ⊢
    exact (Option.some_inj.mp (hhead.symm.trans hhead')).symm

theorem isFence_linearTop (hi : i ∈ f.layoutInsts)
    (htop : f.linearTop i ∈ tops ∨ f.isFence (f.linearTop i) = true) :
    (f.withFencesBefore tops).isFence ((f.withFencesBefore tops).linearTop i) = true := by
  rw [htops.linearTop h hi]
  split
  · rename_i ht
    exact isFence_withFencesBefore ht
  · rename_i ht
    rw [(decorates_withFencesBefore h tops).isFence_eq (h.insts_lt _ (linearTop_mem h hi))]
    exact htop.resolve_left ht

end Tops

end Fences

section Order

variable {n : Nat} {tops tops' : List InstId}

/-- The number of a fence when the instructions that fences are put before come in another order:
fences are numbered from a first number on. -/
def renumber (n : Nat) (tops tops' : List InstId) (i : InstId) : InstId :=
  if i < n then i
  else match tops[i - n]? with
    | some t => n + tops'.idxOf t
    | none => i

theorem renumber_of_lt (hi : i < n) : renumber n tops tops' i = i := if_pos hi

theorem renumber_fence (ht : t ∈ tops) :
    renumber n tops tops' (n + tops.idxOf t) = n + tops'.idxOf t := by
  unfold renumber
  rw [if_neg (Nat.not_lt.mpr (Nat.le_add_right n _)), Nat.add_sub_cancel_left,
    List.getElem?_eq_getElem (List.idxOf_lt_length_of_mem ht), List.getElem_idxOf]

theorem renumber_renumber (hnodup : tops.Nodup) (hperm : tops.Perm tops') (i : InstId) :
    renumber n tops' tops (renumber n tops tops' i) = i := by
  by_cases hi : i < n
  · rw [renumber_of_lt hi, renumber_of_lt hi]
  · cases htop : tops[i - n]? with
    | none =>
      have hstay : renumber n tops tops' i = i := by
        unfold renumber
        rw [if_neg hi, htop]
      have hnone : tops'[i - n]? = none := by
        rw [List.getElem?_eq_none_iff] at htop ⊢
        exact hperm.length_eq ▸ htop
      rw [hstay]
      unfold renumber
      rw [if_neg hi, hnone]
    | some t =>
      obtain ⟨hlt, ht⟩ := List.getElem?_eq_some_iff.mp htop
      have hidx : tops.idxOf t = i - n := by
        rw [← ht]
        exact hnodup.idxOf_getElem (i - n) hlt
      have hnumber : i = n + tops.idxOf t := by
        rw [hidx, Nat.add_sub_cancel' (Nat.le_of_not_lt hi)]
      have hmem : t ∈ tops := List.mem_of_getElem? htop
      rw [hnumber, renumber_fence hmem, renumber_fence (hperm.mem_iff.mp hmem)]

def renumbering (n : Nat) (hnodup : tops.Nodup) (hperm : tops.Perm tops') : Equiv.Perm InstId where
  toFun := renumber n tops tops'
  invFun := renumber n tops' tops
  left_inv := renumber_renumber hnodup hperm
  right_inv := renumber_renumber (hperm.nodup_iff.mp hnodup) hperm.symm

theorem fenced_renumber (hperm : tops.Perm tops') (hi : i < f.insts.size) :
    (f.fenced tops i).map (renumber f.insts.size tops tops') = f.fenced tops' i := by
  unfold fenced
  by_cases hmem : i ∈ tops
  · rw [if_pos hmem, if_pos (hperm.mem_iff.mp hmem), List.map_cons, renumber_fence hmem,
      List.map_singleton, renumber_of_lt hi]
  · rw [if_neg hmem, if_neg (mt hperm.mem_iff.mpr hmem), List.map_singleton, renumber_of_lt hi]

theorem flatMap_fenced_renumber (hperm : tops.Perm tops') (hlt : ∀ i ∈ l, i < f.insts.size) :
    (l.flatMap (f.fenced tops)).map (renumber f.insts.size tops tops') =
      l.flatMap (f.fenced tops') := by
  rw [List.map_flatMap]
  exact List.flatMap_congr fun i hi => fenced_renumber hperm (hlt i hi)

end Order

end Function

namespace Placer

open SpecFence.Function

variable {f : Function} {src dst t : InstId} {tops tops' : List InstId}

section Steps

def fencedAt (f : Function) (tops : List InstId) : Placer :=
  { start (f.withFencesBefore tops) .fencePerBlock with
    placed := tops.map fun t => ⟨f.insts.size + tops.idxOf t, .before t⟩ }

theorem fencedAt_concat (ht : t ∉ tops) :
    fencedAt f (tops ++ [t]) = { fencedAt f tops with
      function := (f.withFencesBefore tops).withFenceBefore t
      placed := (fencedAt f tops).placed ++ [⟨(f.withFencesBefore tops).insts.size, .before t⟩] } := by
  have hold : ∀ u ∈ tops, (tops ++ [t]).idxOf u = tops.idxOf u :=
    fun u hu => List.idxOf_append_of_mem hu
  have hnew : (tops ++ [t]).idxOf t = tops.length := by
    rw [List.idxOf_append_of_notMem ht, List.idxOf_cons_self, Nat.add_zero]
  unfold fencedAt
  rw [withFencesBefore_concat, List.map_append, List.map_singleton, hnew, size_withFencesBefore,
    List.map_congr_left fun u hu => by rw [hold u hu]]
  rfl

def withTop (f : Function) (tops : List InstId) (t : InstId) : List InstId :=
  if t ∈ tops ∨ f.isFence t = true then tops else tops ++ [t]

theorem mem_withTop {u : InstId} :
    u ∈ withTop f tops t ↔ u ∈ tops ∨ (f.isFence t = false ∧ t = u) := by
  unfold withTop
  by_cases hmem : t ∈ tops
  · rw [if_pos (Or.inl hmem)]
    constructor
    · exact Or.inl
    · rintro (hu | ⟨-, rfl⟩)
      · exact hu
      · exact hmem
  · cases hfence : f.isFence t with
    | true => simp
    | false => simp [hmem, eq_comm]

theorem tops_withTop (h : f.WellFormed) (htops : f.Tops tops) (hdst : dst ∈ f.layoutInsts) :
    f.Tops (withTop f tops (f.linearTop dst)) := by
  constructor
  case nodup =>
    unfold withTop
    split
    · exact htops.nodup
    · rename_i hnew
      exact List.nodup_append.mpr ⟨htops.nodup, List.nodup_singleton _, fun u hu v hv huv =>
        hnew (Or.inl (List.mem_singleton.mp hv ▸ huv ▸ hu))⟩
  case laid =>
    intro u hu
    rcases mem_withTop.mp hu with hu | ⟨-, rfl⟩
    · exact htops.laid u hu
    · exact linearTop_mem h hdst
  case top =>
    intro u hu
    rcases mem_withTop.mp hu with hu | ⟨-, rfl⟩
    · exact htops.top u hu
    · exact linearTop_linearTop h hdst
  case open_ =>
    intro u hu
    rcases mem_withTop.mp hu with hu | ⟨hopen, rfl⟩
    · exact htops.open_ u hu
    · exact hopen

/-- Stopping an edge puts a fence before the top of the linear block that it enters, unless that is
a fence or has one. -/
theorem cutBetween_fencedAt (h : f.WellFormed) (htops : f.Tops tops) (hdst : dst ∈ f.layoutInsts) :
    (fencedAt f tops).cutBetween src dst = fencedAt f (withTop f tops (f.linearTop dst)) := by
  have hdecorates := decorates_withFencesBefore h tops
  have hlt : f.linearTop dst < f.insts.size := h.insts_lt _ (linearTop_mem h hdst)
  have hlaid := hdecorates.mem_layoutInsts h hdst
  have hstep : (fencedAt f tops).cutBetween src dst =
      (fencedAt f tops).fenceBefore ((f.withFencesBefore tops).linearTop dst) := if_pos rfl
  rw [hstep]
  by_cases hmem : f.linearTop dst ∈ tops
  · -- the fence that was put there is the top by now
    have htop : (f.withFencesBefore tops).linearTop dst =
        f.insts.size + tops.idxOf (f.linearTop dst) := by
      rw [htops.linearTop h hdst, if_pos hmem]
    have hsame : withTop f tops (f.linearTop dst) = tops := if_pos (Or.inl hmem)
    have hfence : (fencedAt f tops).function.isFence
        (f.insts.size + tops.idxOf (f.linearTop dst)) = true := isFence_withFencesBefore hmem
    rw [hsame, htop]
    unfold fenceBefore
    rw [hfence]
    rfl
  · have htop : (f.withFencesBefore tops).linearTop dst = f.linearTop dst := by
      rw [htops.linearTop h hdst, if_neg hmem]
    have hfence := hdecorates.isFence_eq hlt
    have hopen := hasFenceBefore_linearTop hdecorates.wellFormed hlaid
    have hblock : ((f.withFencesBefore tops).blockOf? (f.linearTop dst)).isNone = false := by
      have hin := linearTop_mem hdecorates.wellFormed hlaid
      rw [htop] at hin
      obtain ⟨b, hb⟩ := hdecorates.wellFormed.mem_layoutInsts.mp hin
      rw [hdecorates.wellFormed.blockOf?_eq_some_iff.mpr hb]
      rfl
    rw [htop] at hopen ⊢
    unfold fenceBefore
    change (if (f.withFencesBefore tops).isFence (f.linearTop dst) ||
      (f.withFencesBefore tops).hasFenceBefore (f.linearTop dst) ||
      ((f.withFencesBefore tops).blockOf? (f.linearTop dst)).isNone then _ else _) = _
    rw [hfence, hopen, hblock, Bool.or_false, Bool.or_false]
    unfold withTop
    by_cases hold : f.isFence (f.linearTop dst) = true
    · rw [if_pos hold, if_pos (Or.inr hold)]
    · rw [if_neg hold, if_neg (not_or.mpr ⟨hmem, hold⟩), fencedAt_concat hmem]
      rfl

variable {weighting : BlockWeighting} {cut : List Edge}

/-- An instruction that the edges of a cut call for a fence before: the top of a linear block that
one of them enters, unless it is a fence. -/
def Entered (f : Function) (weighting : BlockWeighting) (cut : List Edge) (t : InstId) : Prop :=
  f.isFence t = false ∧ ∃ e ∈ cut, ∃ dst,
    (DependenceGraph.ofFunction f weighting).inst? e.dst = some dst ∧ f.linearTop dst = t

theorem place_fencedAt (h : f.WellFormed) (htops : f.Tops tops)
    (hcut : ∀ e ∈ cut, ∃ src dst, Joins f weighting e src dst) :
    ∃ tops', f.Tops tops' ∧
      (fencedAt f tops).place (DependenceGraph.ofFunction f weighting) cut = fencedAt f tops' ∧
      ∀ t, t ∈ tops' ↔ t ∈ tops ∨ Entered f weighting cut t := by
  induction cut generalizing tops with
  | nil => exact ⟨tops, htops, rfl, fun t => by simp [Entered]⟩
  | cons e rest ih =>
    obtain ⟨src, dst, hsrc, hdst, hstep⟩ := hcut e List.mem_cons_self
    have hlaid := h.mem_layoutInsts_of_follows hstep
    obtain ⟨tops', htops', hplace, hmem⟩ := ih (tops_withTop h htops hlaid)
      fun e' he' => hcut e' (List.mem_cons_of_mem e he')
    have hfirst : cutEdge (DependenceGraph.ofFunction f weighting) (fencedAt f tops) e =
        fencedAt f (withTop f tops (f.linearTop dst)) := by
      unfold cutEdge
      rw [hsrc, hdst]
      exact cutBetween_fencedAt h htops hlaid
    refine ⟨tops', htops', ?_, fun t => ?_⟩
    · rw [← hplace, ← hfirst]
      rfl
    · rw [hmem, mem_withTop, or_assoc]
      apply or_congr_right
      unfold Entered
      constructor
      · rintro (⟨hopen, rfl⟩ | ⟨hopen, e', he', hrest⟩)
        · exact ⟨hopen, e, List.mem_cons_self, dst, hdst, rfl⟩
        · exact ⟨hopen, e', List.mem_cons_of_mem e he', hrest⟩
      · rintro ⟨hopen, e', he', dst', hdst', rfl⟩
        rcases List.mem_cons.mp he' with rfl | he'
        · obtain rfl := Option.some_inj.mp (hdst.symm.trans hdst')
          exact Or.inl ⟨hopen, rfl⟩
        · exact Or.inr ⟨hopen, e', he', dst', hdst', rfl⟩

end Steps

section Place

/-- A linear block before and after a cut is placed: it stays as it is, or gets a fence on top if it
does not start with one. -/
inductive Topped (f g : Function) : List InstId → List InstId → Prop
  | kept (seg : List InstId) : Topped f g seg seg
  | fenced {fence t : InstId} {rest : List InstId} (new : f.insts.size ≤ fence)
      (isFence : g.isFence fence = true) (open_ : f.isFence t = false) :
      Topped f g (t :: rest) (fence :: t :: rest)

def renumberFence (σ : Equiv.Perm InstId) (x : PlacedFence) : PlacedFence :=
  ⟨σ x.fence, match x.point with
    | .before i => .before (σ i)
    | .onEdge block source target => .onEdge block source target⟩

structure Renumbered (σ : Equiv.Perm InstId) (p q : Placer) : Prop where
  layout : q.function.layout =
    p.function.layout.map fun l => { l with insts := l.insts.map σ }
  inst : ∀ i, q.function.inst (σ i) = p.function.inst i
  insts_size : q.function.insts.size = p.function.insts.size
  params : q.function.params = p.function.params
  values : q.function.values = p.function.values
  name : q.function.name = p.function.name
  slots : q.function.slots = p.function.slots
  globals : q.function.globals = p.function.globals
  placed : (p.placed.map (renumberFence σ)).Perm q.placed
  split : q.split = p.split
  log : q.log = p.log

theorem topped_linearBlocks (h : f.WellFormed) (htops : f.Tops tops) (b : BlockId) :
    List.Forall₂ (Topped f (f.withFencesBefore tops)) (f.linearBlocks b)
      ((f.withFencesBefore tops).linearBlocks b) := by
  rw [htops.linearBlocks h, List.forall₂_map_right_iff, List.forall₂_same]
  intro seg hseg
  cases seg with
  | nil => exact absurd rfl (ne_nil_of_mem_linearBlocksIn hseg)
  | cons t rest =>
    rw [htops.flatMap_fenced h hseg rfl]
    split
    · rename_i ht
      exact Topped.fenced (Nat.le_add_right _ _) (isFence_withFencesBefore ht) (htops.open_ t ht)
    · exact Topped.kept _

theorem renumbered_fencedAt (h : f.WellFormed) (htops : f.Tops tops) (htops' : f.Tops tops')
    (hperm : tops.Perm tops') :
    Renumbered (renumbering f.insts.size htops.nodup hperm) (fencedAt f tops)
      (fencedAt f tops') := by
  have hinsts : (f.withFencesBefore tops').insts = (f.withFencesBefore tops).insts := by
    rw [insts_withFencesBefore, insts_withFencesBefore, hperm.length_eq]
  constructor
  case layout =>
    change (f.withFencesBefore tops').layout = (f.withFencesBefore tops).layout.map _
    rw [layout_withFencesBefore h htops.nodup (htops.lt h),
      layout_withFencesBefore h htops'.nodup (htops'.lt h), List.map_map]
    apply List.map_congr_left
    intro l hl
    have hlt : ∀ i ∈ l.insts, i < f.insts.size :=
      fun i hi => h.insts_lt i (List.mem_flatMap.mpr ⟨l, hl, hi⟩)
    exact congrArg (LaidBlock.mk l.block) (flatMap_fenced_renumber hperm hlt).symm
  case inst =>
    intro i
    change (f.withFencesBefore tops').inst (renumber f.insts.size tops tops' i) =
      (f.withFencesBefore tops).inst i
    by_cases hi : i < f.insts.size
    · rw [renumber_of_lt hi, inst_withFencesBefore hi, inst_withFencesBefore hi]
    · by_cases hfence : i - f.insts.size < tops.length
      · -- a fence goes to a fence
        have hmem : tops[i - f.insts.size] ∈ tops := List.getElem_mem hfence
        have hnumber : i = f.insts.size + tops.idxOf tops[i - f.insts.size] := by
          rw [htops.nodup.idxOf_getElem, Nat.add_sub_cancel' (Nat.le_of_not_lt hi)]
        rw [hnumber, renumber_fence hmem, inst_withFencesBefore_fence hmem,
          inst_withFencesBefore_fence (hperm.mem_iff.mp hmem)]
      · have hstay : renumber f.insts.size tops tops' i = i := by
          unfold renumber
          rw [if_neg hi, List.getElem?_eq_none (Nat.le_of_not_lt hfence)]
        rw [hstay]
        unfold inst
        rw [hinsts]
  case insts_size => exact congrArg Array.size hinsts
  case params => exact (params_withFencesBefore tops').trans (params_withFencesBefore tops).symm
  case values => exact (values_withFencesBefore tops').trans (values_withFencesBefore tops).symm
  case name =>
    exact (names_withFencesBefore tops').1.trans (names_withFencesBefore tops).1.symm
  case slots =>
    exact (names_withFencesBefore tops').2.1.trans (names_withFencesBefore tops).2.1.symm
  case globals =>
    exact (names_withFencesBefore tops').2.2.trans (names_withFencesBefore tops).2.2.symm
  case placed =>
    change ((tops.map _).map _).Perm (tops'.map _)
    rw [List.map_map]
    have hsame : ∀ t ∈ tops,
        (renumberFence (renumbering f.insts.size htops.nodup hperm) ∘
          fun t => ⟨f.insts.size + tops.idxOf t, .before t⟩) t =
        (⟨f.insts.size + tops'.idxOf t, .before t⟩ : PlacedFence) := by
      intro t ht
      have hfence : renumber f.insts.size tops tops' (f.insts.size + tops.idxOf t) =
          f.insts.size + tops'.idxOf t := renumber_fence ht
      have hplace : renumber f.insts.size tops tops' t = t := renumber_of_lt (htops.lt h t ht)
      change (⟨renumber f.insts.size tops tops' (f.insts.size + tops.idxOf t),
        .before (renumber f.insts.size tops tops' t)⟩ : PlacedFence) = _
      rw [hfence, hplace]
    rw [List.map_congr_left hsame]
    exact hperm.map _
  case split => rfl
  case log => rfl

def placedPerBlock (f : Function) (weighting : BlockWeighting) (cut : List Edge) : Placer :=
  (start f .fencePerBlock).place (DependenceGraph.ofFunction f weighting) cut

/-- With one fence for each linear block, what each edge of a cut leads to has a fence on top of its
linear block; nothing else is put in, and the order of the cut only numbers the fences. -/
theorem linear_blocks_fenced (f : Function) (h : f.WellFormed) (weighting : BlockWeighting)
    (cut : List Edge)
    (hcut : ∀ e ∈ cut, 0 < (DependenceGraph.ofFunction f weighting).control.weight e.src e.dst) :
    (∀ e ∈ cut, ∃ dst, (DependenceGraph.ofFunction f weighting).inst? e.dst = some dst ∧
        (placedPerBlock f weighting cut).function.isFence
          ((placedPerBlock f weighting cut).function.linearTop dst) = true) ∧
      (∀ b, List.Forall₂ (Topped f (placedPerBlock f weighting cut).function) (f.linearBlocks b)
        ((placedPerBlock f weighting cut).function.linearBlocks b)) ∧
      ((placedPerBlock f weighting cut).function.blocks = f.blocks ∧
        (placedPerBlock f weighting cut).function.params = f.params ∧
        (placedPerBlock f weighting cut).split = []) ∧
      ∀ cut' : List Edge, cut'.Perm cut → ∃ σ : Equiv.Perm InstId,
        (∀ i < f.insts.size, σ i = i) ∧
          Renumbered σ (placedPerBlock f weighting cut) (placedPerBlock f weighting cut') := by
  have hjoins : ∀ e ∈ cut, ∃ src dst, Joins f weighting e src dst :=
    fun e he => (DependenceGraph.control_joins_iff h).mp (hcut e he)
  have hempty : f.Tops [] := ⟨List.nodup_nil, by simp, by simp, by simp⟩
  obtain ⟨tops, htops, hplace, hmem⟩ := place_fencedAt h hempty hjoins
  have hplaced : placedPerBlock f weighting cut = fencedAt f tops := hplace
  rw [hplaced]
  refine ⟨?_, topped_linearBlocks h htops, ⟨htops.blocks h, params_withFencesBefore tops, rfl⟩, ?_⟩
  · intro e he
    obtain ⟨src, dst, -, hdst, hstep⟩ := hjoins e he
    refine ⟨dst, hdst, htops.isFence_linearTop h (h.mem_layoutInsts_of_follows hstep) ?_⟩
    rw [hmem]
    cases hfence : f.isFence (f.linearTop dst) with
    | true => exact Or.inr rfl
    | false => exact Or.inl (Or.inr ⟨hfence, e, he, dst, hdst, rfl⟩)
  · intro cut' hcut'
    obtain ⟨tops', htops', hplace', hmem'⟩ := place_fencedAt h hempty
      fun e he => hjoins e (hcut'.mem_iff.mp he)
    have hplaced' : placedPerBlock f weighting cut' = fencedAt f tops' := hplace'
    rw [hplaced']
    have hperm : tops.Perm tops' := by
      rw [List.perm_ext_iff_of_nodup htops.nodup htops'.nodup]
      intro t
      rw [hmem, hmem']
      unfold Entered
      simp only [hcut'.mem_iff]
    exact ⟨renumbering f.insts.size htops.nodup hperm, fun i hi => renumber_of_lt hi,
      renumbered_fencedAt h htops htops' hperm⟩

def loadsAroundCall : Function := .build ⟨.numbered 0 0, [], [],
  [⟨[⟨.i64, 1⟩], [⟨.load, [0], .offset 0, some ⟨.i64, 1⟩, [⟨.i64, 1⟩]⟩,
      ⟨.call, [], .callee 0, none, []⟩,
      ⟨.load, [0], .offset 8, some ⟨.i64, 1⟩, [⟨.i64, 1⟩]⟩,
      ⟨.load, [0], .offset 16, some ⟨.i64, 1⟩, [⟨.i64, 1⟩]⟩,
      ⟨.jump, [], .targets [⟨1, []⟩], none, []⟩]⟩,
    ⟨[], [fenceSpec, ⟨.ret, [], .none, none, []⟩]⟩], none⟩

/-- The edges from the call to the load behind it, on to the next load, into the second block, and
into the call. -/
def aroundCall : List Edge := [⟨2, 3⟩, ⟨3, 4⟩, ⟨5, 6⟩, ⟨1, 2⟩]

/-- The linear block behind the call gets one fence for two edges, the one before gets another, and
the second block keeps its own; the other way round, the two fences change their numbers. -/
theorem linear_blocks_fenced_loadsAroundCall :
    loadsAroundCall.WellFormed ∧
      (∀ e ∈ aroundCall,
        0 < (DependenceGraph.ofFunction loadsAroundCall (.uniform 1)).control.weight e.src e.dst) ∧
      (∃ dst, (DependenceGraph.ofFunction loadsAroundCall (.uniform 1)).inst? 4 = some dst ∧
        (placedPerBlock loadsAroundCall (.uniform 1) aroundCall).function.isFence
          ((placedPerBlock loadsAroundCall (.uniform 1) aroundCall).function.linearTop dst) =
            true) ∧
      List.Forall₂ (Topped loadsAroundCall
          (placedPerBlock loadsAroundCall (.uniform 1) aroundCall).function)
        [[0, 1], [2, 3, 4]] [[8, 0, 1], [7, 2, 3, 4]] ∧
      ∃ σ : Equiv.Perm InstId, (∀ i < 7, σ i = i) ∧
        Renumbered σ (placedPerBlock loadsAroundCall (.uniform 1) aroundCall)
          (placedPerBlock loadsAroundCall (.uniform 1) aroundCall.reverse) := by
  have hwf : loadsAroundCall.WellFormed := build_wellFormed (by decide)
  have hweight : ∀ e ∈ aroundCall,
      0 < (DependenceGraph.ofFunction loadsAroundCall (.uniform 1)).control.weight e.src e.dst := by
    decide +kernel
  obtain ⟨hfenced, hblocks, -, horder⟩ :=
    linear_blocks_fenced loadsAroundCall hwf (.uniform 1) aroundCall hweight
  have hbefore : loadsAroundCall.linearBlocks 0 = [[0, 1], [2, 3, 4]] := by decide +kernel
  have hafter : (placedPerBlock loadsAroundCall (.uniform 1) aroundCall).function.linearBlocks 0 =
      [[8, 0, 1], [7, 2, 3, 4]] := by
    decide +kernel
  have hfirst := hblocks 0
  rw [hbefore, hafter] at hfirst
  exact ⟨hwf, hweight, hfenced ⟨3, 4⟩ (by simp [aroundCall]), hfirst,
    horder _ (List.reverse_perm aroundCall)⟩

end Place

end Placer

end SpecFence
