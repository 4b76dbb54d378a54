import SpecFence.Proofs.ControlFlow

/-!
# Linear blocks

The instructions of a block fall into linear blocks, each of which ends after a call or a branch.
Walking back from an instruction finds the first one of its linear block, and no fence stands
directly before that one.
-/

set_option autoImplicit false

namespace SpecFence

namespace Function

variable {f : Function} {b : BlockId} {i t x : InstId} {l seg : List InstId}

/-- A list of linear blocks with an instruction put in front: into the first of them, or as a linear
block of its own. -/
def joinLinear (f : Function) (i : InstId) (segs : List (List InstId)) : List (List InstId) :=
  if f.endsLinear i then [i] :: segs
  else match segs with
    | [] => [[i]]
    | seg :: segs => (i :: seg) :: segs

def linearBlocksIn (f : Function) (l : List InstId) : List (List InstId) := l.foldr f.joinLinear []

def linearBlocks (f : Function) (b : BlockId) : List (List InstId) :=
  f.linearBlocksIn (f.blockInsts b)

theorem linearBlocksIn_cons (i : InstId) (l : List InstId) :
    f.linearBlocksIn (i :: l) = f.joinLinear i (f.linearBlocksIn l) := rfl

theorem flatten_joinLinear (i : InstId) (segs : List (List InstId)) :
    (f.joinLinear i segs).flatten = i :: segs.flatten := by
  unfold joinLinear
  split
  · rfl
  · cases segs with
    | nil => rfl
    | cons seg segs => rfl

theorem ne_nil_of_mem_linearBlocksIn (hseg : seg ∈ f.linearBlocksIn l) : seg ≠ [] := by
  induction l generalizing seg with
  | nil => exact absurd hseg List.not_mem_nil
  | cons a l ih =>
    rw [linearBlocksIn_cons] at hseg
    unfold joinLinear at hseg
    split at hseg
    · rcases List.mem_cons.mp hseg with rfl | hseg
      · exact List.cons_ne_nil a []
      · exact ih hseg
    · split at hseg
      · obtain rfl := List.mem_singleton.mp hseg
        exact List.cons_ne_nil a []
      · rename_i first segs hsegs
        rcases List.mem_cons.mp hseg with rfl | hseg
        · exact List.cons_ne_nil a first
        · exact ih (hsegs ▸ List.mem_cons_of_mem first hseg)

theorem flatten_linearBlocksIn (l : List InstId) : (f.linearBlocksIn l).flatten = l := by
  induction l with
  | nil => rfl
  | cons a l ih => rw [linearBlocksIn_cons, flatten_joinLinear, ih]

theorem exists_linearBlock (hi : i ∈ l) : ∃ seg ∈ f.linearBlocksIn l, i ∈ seg := by
  rw [← f.flatten_linearBlocksIn l] at hi
  exact List.mem_flatten.mp hi

theorem mem_of_mem_linearBlock (hseg : seg ∈ f.linearBlocksIn l) (hi : i ∈ seg) : i ∈ l := by
  rw [← f.flatten_linearBlocksIn l]
  exact List.mem_flatten.mpr ⟨seg, hseg, hi⟩

theorem head?_linearBlocksIn {segs : List (List InstId)} (h : f.linearBlocksIn l = seg :: segs) :
    seg.head? = l.head? := by
  cases l with
  | nil => cases h
  | cons a l =>
    rw [linearBlocksIn_cons] at h
    unfold joinLinear at h
    split at h
    · rw [← (List.cons.inj h).1]
      rfl
    · split at h
      · rw [← (List.cons.inj h).1]
        rfl
      · rw [← (List.cons.inj h).1]
        rfl

theorem head?_of_linearBlocksIn {segs : List (List InstId)} (h : f.linearBlocksIn l = seg :: segs)
    (i : InstId) : seg.head? = some (l.head?.getD i) := by
  rw [head?_linearBlocksIn h]
  cases l with
  | nil => cases h
  | cons a l => rfl

/-- Walking along a list to an instruction: `top` starts the linear block that the list goes on
with. -/
def linearTopIn (f : Function) (i top : InstId) : List InstId → InstId
  | [] => i
  | a :: rest =>
    if a = i then top
    else if f.endsLinear a then linearTopIn f i (rest.head?.getD i) rest
    else linearTopIn f i top rest

theorem walkBack_eq (hi : i ∈ l) {top : InstId} {before : List InstId}
    (htop : f.walkBack (l.head?.getD i) before = top) :
    f.walkBack i ((l.takeWhile (· != i)).reverse ++ before) = f.linearTopIn i top l := by
  induction l generalizing top before with
  | nil => exact absurd hi List.not_mem_nil
  | cons a rest ih =>
    have hback : f.walkBack a before = top := htop
    rw [linearTopIn]
    by_cases ha : a = i
    · subst ha
      simpa using hback
    · have hrest : i ∈ rest := (List.mem_cons.mp hi).resolve_left (Ne.symm ha)
      rw [if_neg ha, List.takeWhile_cons_of_pos (by simpa using ha), List.reverse_cons,
        List.append_assoc, List.singleton_append]
      split
      · rename_i hends
        exact ih hrest (by rw [walkBack, if_pos hends])
      · rename_i hgoes
        exact ih hrest (by rw [walkBack, if_neg hgoes, hback])

/-- Walking along a list finds the given top for what is in its first linear block, and for anything
else the first instruction of the linear block that it is in. -/
theorem linearTopIn_eq (hl : l.Nodup) (top : InstId) :
    (∀ seg, (f.linearBlocksIn l).head? = some seg → i ∈ seg → f.linearTopIn i top l = top) ∧
      ∀ seg ∈ (f.linearBlocksIn l).tail, i ∈ seg → seg.head? = some (f.linearTopIn i top l) := by
  induction l generalizing top with
  | nil =>
    refine ⟨fun seg hseg => ?_, fun seg hseg => absurd hseg List.not_mem_nil⟩
    cases hseg
  | cons a rest ih =>
    rw [List.nodup_cons] at hl
    have hne : ∀ seg ∈ f.linearBlocksIn rest, i ∈ seg → a ≠ i := by
      rintro seg hseg hi rfl
      exact hl.1 (mem_of_mem_linearBlock hseg hi)
    rw [linearBlocksIn_cons]
    unfold joinLinear linearTopIn
    by_cases hends : f.endsLinear a = true
    · rw [if_pos hends, if_pos hends]
      constructor
      · intro seg hseg hi
        obtain rfl : [a] = seg := Option.some_inj.mp hseg
        exact if_pos (List.mem_singleton.mp hi).symm
      · intro seg hseg hi
        rw [List.tail_cons] at hseg
        rw [if_neg (hne seg hseg hi)]
        cases hsegs : f.linearBlocksIn rest with
        | nil =>
          rw [hsegs] at hseg
          exact absurd hseg List.not_mem_nil
        | cons first segs =>
          rw [hsegs] at hseg
          rcases List.mem_cons.mp hseg with rfl | hseg
          · have hfirst := (ih hl.2 (rest.head?.getD i)).1 seg (by rw [hsegs]; rfl) hi
            rw [hfirst]
            exact head?_of_linearBlocksIn hsegs i
          · exact (ih hl.2 (rest.head?.getD i)).2 seg (by rw [hsegs]; exact hseg) hi
    · rw [if_neg hends, if_neg hends]
      cases hsegs : f.linearBlocksIn rest with
      | nil =>
        constructor
        · intro seg hseg hi
          obtain rfl : [a] = seg := Option.some_inj.mp hseg
          exact if_pos (List.mem_singleton.mp hi).symm
        · intro seg hseg
          exact absurd hseg List.not_mem_nil
      | cons first segs =>
        constructor
        · intro seg hseg hi
          obtain rfl : a :: first = seg := Option.some_inj.mp hseg
          rcases List.mem_cons.mp hi with rfl | hi
          · exact if_pos rfl
          · rw [if_neg (hne first (by rw [hsegs]; exact List.mem_cons_self) hi)]
            exact (ih hl.2 top).1 first (by rw [hsegs]; rfl) hi
        · intro seg hseg hi
          have hin : seg ∈ f.linearBlocksIn rest := by
            rw [hsegs]
            exact List.mem_cons_of_mem first hseg
          rw [if_neg (hne seg hin hi)]
          exact (ih hl.2 top).2 seg (by rw [hsegs]; exact hseg) hi

theorem endsLinear_of_adjacent (hl : l.Nodup) (hseg : seg ∈ f.linearBlocksIn l)
    (hhead : seg.head? = some t) (hadjacent : Adjacent l x t) : f.endsLinear x = true := by
  induction l with
  | nil => exact absurd hadjacent not_adjacent_nil
  | cons a rest ih =>
    rw [List.nodup_cons] at hl
    have ht : t ∈ rest := by
      rcases adjacent_cons.mp hadjacent with ⟨-, hnext⟩ | hrest
      · exact List.mem_of_mem_head? hnext
      · exact hrest.mem_right
    have hat : a ≠ t := by
      rintro rfl
      exact hl.1 ht
    rw [linearBlocksIn_cons] at hseg
    unfold joinLinear at hseg
    split at hseg
    · rename_i hends
      rcases List.mem_cons.mp hseg with rfl | hseg
      · exact absurd (Option.some_inj.mp hhead) hat
      · rcases adjacent_cons.mp hadjacent with ⟨rfl, -⟩ | hrest
        · exact hends
        · exact ih hl.2 hseg hrest
    · split at hseg
      · obtain rfl := List.mem_singleton.mp hseg
        exact absurd (Option.some_inj.mp hhead) hat
      · rename_i first segs hsegs
        rcases List.mem_cons.mp hseg with rfl | hseg
        · exact absurd (Option.some_inj.mp hhead) hat
        · rcases adjacent_cons.mp hadjacent with ⟨-, hnext⟩ | hrest
          · -- the linear block would start as the first one does
            rw [← head?_linearBlocksIn hsegs] at hnext
            have hflatten := f.flatten_linearBlocksIn rest
            rw [hsegs, List.flatten_cons] at hflatten
            rw [← hflatten, List.nodup_append] at hl
            exact absurd rfl (hl.2.2.2 t (List.mem_of_mem_head? hnext) t
              (List.mem_flatten.mpr ⟨seg, hseg, List.mem_of_mem_head? hhead⟩))
          · exact ih hl.2 (hsegs ▸ List.mem_cons_of_mem first hseg) hrest

theorem linearTop_eq (h : f.WellFormed) (hseg : seg ∈ f.linearBlocks b) (hi : i ∈ seg) :
    seg.head? = some (f.linearTop i) := by
  have hmem : i ∈ f.blockInsts b := mem_of_mem_linearBlock hseg hi
  obtain ⟨l, hfind, rfl⟩ := Option.map_eq_some_iff.mp (h.blockOf?_eq_some_iff.mpr hmem)
  have hlist := blockInsts_eq h.blocks_nodup (List.mem_of_find?_eq_some hfind)
  have hnodup := h.nodup_blockInsts l.block
  unfold linearBlocks at hseg
  rw [hlist] at hseg hnodup
  have htop : f.linearTop i = f.linearTopIn i (l.insts.head?.getD i) l.insts := by
    have hwalk : f.walkBack i ((l.insts.takeWhile (· != i)).reverse ++ []) =
        f.linearTopIn i (l.insts.head?.getD i) l.insts := walkBack_eq (hlist ▸ hmem) rfl
    rw [← hwalk, List.append_nil]
    unfold linearTop
    rw [hfind]
  rw [htop]
  have hwalk := linearTopIn_eq (f := f) (i := i) hnodup (l.insts.head?.getD i)
  cases hsegs : f.linearBlocksIn l.insts with
  | nil =>
    rw [hsegs] at hseg
    exact absurd hseg List.not_mem_nil
  | cons first segs =>
    rw [hsegs] at hseg hwalk
    rcases List.mem_cons.mp hseg with rfl | hseg
    · rw [hwalk.1 seg rfl hi]
      exact head?_of_linearBlocksIn hsegs i
    · exact hwalk.2 seg hseg hi

theorem exists_linearTop (h : f.WellFormed) (hi : i ∈ f.layoutInsts) :
    ∃ b, ∃ seg ∈ f.linearBlocks b, i ∈ seg ∧ seg.head? = some (f.linearTop i) := by
  obtain ⟨b, hb⟩ := h.mem_layoutInsts.mp hi
  obtain ⟨seg, hseg, hmem⟩ := exists_linearBlock (f := f) hb
  exact ⟨b, seg, hseg, hmem, linearTop_eq h hseg hmem⟩

theorem linearTop_mem (h : f.WellFormed) (hi : i ∈ f.layoutInsts) :
    f.linearTop i ∈ f.layoutInsts := by
  obtain ⟨b, seg, hseg, -, hhead⟩ := exists_linearTop h hi
  exact h.mem_layoutInsts.mpr ⟨b, mem_of_mem_linearBlock hseg (List.mem_of_mem_head? hhead)⟩

theorem linearTop_linearTop (h : f.WellFormed) (hi : i ∈ f.layoutInsts) :
    f.linearTop (f.linearTop i) = f.linearTop i := by
  obtain ⟨b, seg, hseg, -, hhead⟩ := exists_linearTop h hi
  have htop := linearTop_eq h hseg (List.mem_of_mem_head? hhead)
  exact (Option.some_inj.mp (hhead.symm.trans htop)).symm

theorem endsLinear_of_isFence (hfence : f.isFence i = true) : f.endsLinear i = false := by
  have hopcode : f.opcode i = .fence := beq_iff_eq.mp hfence
  unfold endsLinear
  rw [hopcode]
  rfl

theorem hasFenceBefore_linearTop (h : f.WellFormed) (hi : i ∈ f.layoutInsts) :
    f.hasFenceBefore (f.linearTop i) = false := by
  obtain ⟨b, seg, hseg, -, hhead⟩ := exists_linearTop h hi
  rw [Bool.eq_false_iff]
  intro hbefore
  obtain ⟨c, x, hadjacent, hfence⟩ := h.hasFenceBefore_iff.mp hbefore
  have hmem := mem_of_mem_linearBlock hseg (List.mem_of_mem_head? hhead)
  rw [h.block_unique hadjacent.mem_right hmem] at hadjacent
  have hends := endsLinear_of_adjacent (h.nodup_blockInsts b) hseg hhead hadjacent
  rw [endsLinear_of_isFence hfence] at hends
  cases hends

end Function

end SpecFence
