import SpecFence.Proofs.Editing

/-!
# What placing fences keeps

A function is decorated when only fences have been put directly after its instructions: control
passes between two of its instructions only where it did before, and from one of its instructions to
a new one only if that one is a fence.  Putting a fence before an instruction decorates, and so does
splitting an edge and putting a fence into the new block.
-/

set_option autoImplicit false

namespace SpecFence

namespace Function

/-- One function is another with instructions put in, the first of which on any way is a fence. -/
structure Decorates (f g : Function) : Prop where
  wellFormed : g.WellFormed
  insts_le : f.insts.size ≤ g.insts.size
  params_le : f.params.size ≤ g.params.size
  opcode_eq : ∀ i < f.insts.size, g.opcode i = f.opcode i
  sublist : ∀ b < f.params.size, (f.blockInsts b).Sublist (g.blockInsts b)
  lastInst?_eq : ∀ b < f.params.size, g.lastInst? b = f.lastInst? b
  follows : ∀ a < f.insts.size, ∀ x, g.Follows a x →
    (x < f.insts.size ∧ f.Follows a x) ∨ (f.insts.size ≤ x ∧ g.isFence x = true)

namespace Decorates

variable {f g k : Function}

theorem refl (h : f.WellFormed) : Decorates f f := by
  refine ⟨h, Nat.le_refl _, Nat.le_refl _, fun _ _ => rfl, fun b _ => List.Sublist.refl _,
    fun _ _ => rfl, ?_⟩
  intro a _ x hax
  exact Or.inl ⟨h.lt_of_follows hax, hax⟩

theorem isFence_eq (h : Decorates f g) {i : InstId} (hi : i < f.insts.size) :
    g.isFence i = f.isFence i := by
  unfold isFence
  rw [h.opcode_eq i hi]

theorem terminator?_eq (hf : f.WellFormed) (h : Decorates f g) {b : BlockId}
    (hb : b < f.params.size) : g.terminator? b = f.terminator? b := by
  unfold terminator?
  rw [h.lastInst?_eq b hb]
  cases hlast : f.lastInst? b with
  | none => rfl
  | some i =>
    have hi := hf.lt_of_mem_blockInsts (List.mem_of_mem_getLast? hlast)
    simp only [Option.filter_some, h.opcode_eq i hi]

theorem mem_layoutInsts (hf : f.WellFormed) (h : Decorates f g) {i : InstId}
    (hi : i ∈ f.layoutInsts) : i ∈ g.layoutInsts := by
  obtain ⟨b, hb⟩ := hf.mem_layoutInsts.mp hi
  have hlt : b < f.params.size := hf.blocks_lt b (mem_blocks_of_mem_blockInsts hb)
  exact h.wellFormed.mem_layoutInsts.mpr ⟨b, (h.sublist b hlt).subset hb⟩

theorem trans (hfg : Decorates f g) (hgk : Decorates g k) : Decorates f k := by
  constructor
  case wellFormed => exact hgk.wellFormed
  case insts_le => exact Nat.le_trans hfg.insts_le hgk.insts_le
  case params_le => exact Nat.le_trans hfg.params_le hgk.params_le
  case opcode_eq =>
    intro i hi
    rw [hgk.opcode_eq i (Nat.lt_of_lt_of_le hi hfg.insts_le), hfg.opcode_eq i hi]
  case sublist =>
    intro b hb
    exact (hfg.sublist b hb).trans (hgk.sublist b (Nat.lt_of_lt_of_le hb hfg.params_le))
  case lastInst?_eq =>
    intro b hb
    rw [hgk.lastInst?_eq b (Nat.lt_of_lt_of_le hb hfg.params_le), hfg.lastInst?_eq b hb]
  case follows =>
    intro a ha x hax
    rcases hgk.follows a (Nat.lt_of_lt_of_le ha hfg.insts_le) x hax with ⟨hx, hstep⟩ | ⟨hx, hfence⟩
    · rcases hfg.follows a ha x hstep with hold | ⟨hnew, hfence⟩
      · exact Or.inl hold
      · refine Or.inr ⟨hnew, ?_⟩
        rw [hgk.isFence_eq hx]
        exact hfence
    · exact Or.inr ⟨Nat.le_trans hfg.insts_le hx, hfence⟩

end Decorates

section FenceBefore

variable {new anchor a b : InstId} {l : List InstId}

theorem getLast?_insertBeforeIn : (insertBeforeIn new anchor l).getLast? = l.getLast? := by
  induction l with
  | nil => rfl
  | cons x l ih =>
    rw [insertBeforeIn]
    by_cases hx : x = anchor
    · rw [if_pos hx, List.getLast?_cons_cons]
    · rw [if_neg hx, List.getLast?_cons, ih, List.getLast?_cons]

theorem head?_insertBeforeIn : (insertBeforeIn new anchor l).head? =
    if l.head? = some anchor then some new else l.head? := by
  cases l with
  | nil => rfl
  | cons x l =>
    rw [insertBeforeIn, List.head?_cons]
    by_cases hx : x = anchor
    · rw [if_pos hx, if_pos (congrArg some hx)]
      rfl
    · rw [if_neg hx, if_neg (fun h => hx (Option.some_inj.mp h))]
      rfl

theorem sublist_insertBeforeIn : l.Sublist (insertBeforeIn new anchor l) := by
  induction l with
  | nil => exact List.Sublist.refl _
  | cons x l ih =>
    rw [insertBeforeIn]
    by_cases hx : x = anchor
    · rw [if_pos hx]
      exact List.sublist_cons_self new _
    · rw [if_neg hx]
      exact ih.cons_cons x

theorem adjacent_of_insertBeforeIn (hl : l.Nodup) (hnew : new ∉ l)
    (h : Adjacent (insertBeforeIn new anchor l) a b) :
    (a = new ∧ b = anchor) ∨ (b = new ∧ Adjacent l a anchor) ∨ (b ≠ anchor ∧ Adjacent l a b) := by
  induction l with
  | nil => exact absurd h not_adjacent_nil
  | cons x l ih =>
    rw [List.nodup_cons] at hl
    rw [List.mem_cons, not_or] at hnew
    rw [insertBeforeIn] at h
    by_cases hx : x = anchor
    · rw [if_pos hx] at h
      rcases adjacent_cons.mp h with ⟨rfl, hnext⟩ | hrest
      · exact Or.inl ⟨rfl, hx ▸ (Option.some_inj.mp hnext).symm⟩
      · refine Or.inr (Or.inr ⟨?_, hrest⟩)
        rintro rfl
        rw [hx] at hrest hl
        exact hrest.ne_head (List.nodup_cons.mpr hl) rfl
    · rw [if_neg hx] at h
      rcases adjacent_cons.mp h with ⟨rfl, hnext⟩ | hrest
      · rw [head?_insertBeforeIn] at hnext
        split at hnext
        · rename_i hhead
          exact Or.inr (Or.inl ⟨(Option.some_inj.mp hnext).symm,
            adjacent_cons.mpr (Or.inl ⟨rfl, hhead⟩)⟩)
        · rename_i hne
          refine Or.inr (Or.inr ⟨?_, adjacent_cons.mpr (Or.inl ⟨rfl, hnext⟩)⟩)
          rintro rfl
          exact hne hnext
      · rcases ih hl.2 hnew.2 hrest with hbehind | ⟨hb, hbefore⟩ | ⟨hne, hold⟩
        · exact Or.inl hbehind
        · exact Or.inr (Or.inl ⟨hb, adjacent_cons.mpr (Or.inr hbefore)⟩)
        · exact Or.inr (Or.inr ⟨hne, adjacent_cons.mpr (Or.inr hold)⟩)

theorem adjacent_insertBeforeIn_self (h : anchor ∈ l) :
    Adjacent (insertBeforeIn new anchor l) new anchor := by
  induction l with
  | nil => exact absurd h List.not_mem_nil
  | cons x l ih =>
    rw [insertBeforeIn]
    by_cases hx : x = anchor
    · rw [if_pos hx, hx]
      exact adjacent_cons.mpr (Or.inl ⟨rfl, rfl⟩)
    · rw [if_neg hx]
      have hrest : anchor ∈ l := (List.mem_cons.mp h).resolve_left (Ne.symm hx)
      exact adjacent_cons.mpr (Or.inr (ih hrest))

theorem adjacent_insertBeforeIn (h : Adjacent l a b) : Adjacent (insertBeforeIn new anchor l) a b ∨
      (b = anchor ∧ Adjacent (insertBeforeIn new anchor l) new b) := by
  induction l with
  | nil => exact absurd h not_adjacent_nil
  | cons x l ih =>
    rw [insertBeforeIn]
    by_cases hx : x = anchor
    · rw [if_pos hx]
      exact Or.inl (adjacent_cons.mpr (Or.inr h))
    · rw [if_neg hx]
      rcases adjacent_cons.mp h with ⟨rfl, hnext⟩ | hrest
      · cases l with
        | nil => cases hnext
        | cons y l =>
          obtain rfl := Option.some_inj.mp hnext
          rw [insertBeforeIn]
          by_cases hy : y = anchor
          · rw [if_pos hy]
            exact Or.inr ⟨hy, adjacent_cons.mpr (Or.inr (adjacent_cons.mpr (Or.inl ⟨rfl, rfl⟩)))⟩
          · rw [if_neg hy]
            exact Or.inl (adjacent_cons.mpr (Or.inl ⟨rfl, rfl⟩))
      · rcases ih hrest with hkept | ⟨hb, hnew⟩
        · exact Or.inl (adjacent_cons.mpr (Or.inr hkept))
        · exact Or.inr ⟨hb, adjacent_cons.mpr (Or.inr hnew)⟩

def withFenceBefore (f : Function) (i : InstId) : Function :=
  (f.addInst fenceSpec).2.layBefore f.insts.size i

variable {f : Function} {i : InstId}

theorem blockInsts_withFenceBefore (b : BlockId) :
    (f.withFenceBefore i).blockInsts b = insertBeforeIn f.insts.size i (f.blockInsts b) :=
  blockInsts_layBefore _ _ _ _

theorem inst_withFenceBefore {j : InstId} (hj : j < f.insts.size) :
    (f.withFenceBefore i).inst j = f.inst j :=
  inst_addInst f fenceSpec hj

theorem isFence_withFenceBefore : (f.withFenceBefore i).isFence f.insts.size = true := by
  have hopcode : (f.withFenceBefore i).opcode f.insts.size = .fence :=
    congrArg InstData.opcode (inst_addInst_self f fenceSpec)
  unfold isFence
  rw [hopcode]
  rfl

theorem lastInst?_withFenceBefore (b : BlockId) :
    (f.withFenceBefore i).lastInst? b = f.lastInst? b := by
  unfold lastInst?
  rw [blockInsts_withFenceBefore, getLast?_insertBeforeIn]

theorem flowSuccs_withFenceBefore (h : f.WellFormed) (b : BlockId) :
    (f.withFenceBefore i).flowSuccs b = f.flowSuccs b := by
  unfold flowSuccs flowTargets
  rw [lastInst?_withFenceBefore]
  cases hlast : f.lastInst? b with
  | none => rfl
  | some j =>
    have hj := h.lt_of_mem_blockInsts (List.mem_of_mem_getLast? hlast)
    dsimp only
    unfold opcode targets
    rw [inst_withFenceBefore hj]

theorem withFenceBefore_wellFormed (h : f.WellFormed) : (f.withFenceBefore i).WellFormed := by
  have hadd : (f.addInst fenceSpec).2.WellFormed := by
    apply h.addInst
    intro call hcall
    exact absurd hcall List.not_mem_nil
  refine hadd.layBefore h.fresh_inst ?_
  rw [size_addInst]
  exact Nat.lt_succ_self _

/-- After the fence is put in, an instruction is followed by it, or by what followed before other
than the instruction behind the fence. -/
theorem follows_withFenceBefore (h : f.WellFormed) {x : InstId} (ha : a < f.insts.size)
    (hax : (f.withFenceBefore i).Follows a x) :
    x = f.insts.size ∨ (x ≠ i ∧ f.Follows a x) := by
  rcases hax with ⟨b, hadjacent⟩ | ⟨b, t, hlast, ht, hfirst⟩
  · rw [blockInsts_withFenceBefore] at hadjacent
    have hfresh : f.insts.size ∉ f.blockInsts b :=
      fun hmem => Nat.lt_irrefl _ (h.lt_of_mem_blockInsts hmem)
    rcases adjacent_of_insertBeforeIn (h.nodup_blockInsts b) hfresh hadjacent with
      ⟨hnew, -⟩ | ⟨hx, -⟩ | ⟨hx, hold⟩
    · exact absurd hnew (Nat.ne_of_lt ha)
    · exact Or.inl hx
    · exact Or.inr ⟨hx, Or.inl ⟨b, hold⟩⟩
  · rw [lastInst?_withFenceBefore] at hlast
    rw [flowSuccs_withFenceBefore h] at ht
    unfold firstInst? at hfirst
    rw [blockInsts_withFenceBefore, head?_insertBeforeIn] at hfirst
    split at hfirst
    · exact Or.inl (Option.some_inj.mp hfirst).symm
    · rename_i hne
      refine Or.inr ⟨?_, Or.inr ⟨b, t, hlast, ht, hfirst⟩⟩
      rintro rfl
      exact hne hfirst

theorem decorates_withFenceBefore (h : f.WellFormed) : Decorates f (f.withFenceBefore i) := by
  constructor
  case wellFormed => exact withFenceBefore_wellFormed h
  case insts_le =>
    change _ ≤ (f.addInst fenceSpec).2.insts.size
    rw [size_addInst]
    exact Nat.le_succ _
  case params_le => exact Nat.le_refl _
  case opcode_eq =>
    intro j hj
    unfold opcode
    rw [inst_withFenceBefore hj]
  case sublist =>
    intro b _
    rw [blockInsts_withFenceBefore]
    exact sublist_insertBeforeIn
  case lastInst?_eq => exact fun b _ => lastInst?_withFenceBefore b
  case follows =>
    intro a ha x hax
    rcases follows_withFenceBefore h ha hax with rfl | ⟨-, hold⟩
    · exact Or.inr ⟨Nat.le_refl _, isFence_withFenceBefore⟩
    · exact Or.inl ⟨h.lt_of_follows hold, hold⟩

theorem values_withFenceBefore : (f.withFenceBefore i).values = f.values :=
  Array.append_empty

theorem hasFenceBefore_withFenceBefore (h : f.WellFormed) {j : InstId}
    (hj : f.hasFenceBefore j = true) : (f.withFenceBefore i).hasFenceBefore j = true := by
  obtain ⟨b, x, hadjacent, hfence⟩ := h.hasFenceBefore_iff.mp hj
  rw [(withFenceBefore_wellFormed h).hasFenceBefore_iff]
  have hx : x < f.insts.size := h.lt_of_mem_blockInsts hadjacent.mem_left
  have hlist := blockInsts_withFenceBefore (f := f) (i := i) b
  rcases adjacent_insertBeforeIn hadjacent with hkept | ⟨-, hnew⟩
  · refine ⟨b, x, hlist ▸ hkept, ?_⟩
    unfold isFence opcode at hfence ⊢
    rw [inst_withFenceBefore hx]
    exact hfence
  · exact ⟨b, f.insts.size, hlist ▸ hnew, isFence_withFenceBefore⟩

theorem hasFenceBefore_withFenceBefore_self (h : f.WellFormed) (hi : i ∈ f.layoutInsts) :
    (f.withFenceBefore i).hasFenceBefore i = true := by
  obtain ⟨b, hb⟩ := h.mem_layoutInsts.mp hi
  rw [(withFenceBefore_wellFormed h).hasFenceBefore_iff]
  have hlist := blockInsts_withFenceBefore (f := f) (i := i) b
  exact ⟨b, f.insts.size, hlist ▸ adjacent_insertBeforeIn_self hb, isFence_withFenceBefore⟩

theorem not_follows_withFenceBefore (h : f.WellFormed) (ha : a < f.insts.size)
    (hi : i < f.insts.size) : ¬ (f.withFenceBefore i).Follows a i := by
  intro hfollows
  rcases follows_withFenceBefore h ha hfollows with hnew | ⟨hne, -⟩
  · exact Nat.ne_of_lt hi hnew
  · exact hne rfl

end FenceBefore

section FencedSplit

/-- An edge between two blocks is split by a new block that starts with a fence and jumps on. -/
structure FencedSplit (f g : Function) (source target : BlockId) : Prop where
  decorates : Decorates f g
  params_size : g.params.size = f.params.size + 1
  blockInsts_new : g.blockInsts f.params.size = [f.insts.size + 1, f.insts.size]
  blockInsts_old : ∀ b, b ≠ f.params.size → g.blockInsts b = f.blockInsts b
  flowSuccs_new : ∀ x, x ∈ g.flowSuccs f.params.size ↔ x = target
  flowSuccs_old : ∀ b, b ≠ f.params.size → ∀ x, x ∈ g.flowSuccs b ↔
    (x ∈ f.flowSuccs b ∧ ¬ (b = source ∧ x = target)) ∨ (b = source ∧ x = f.params.size)

variable {f g : Function} {source target : BlockId}

namespace EdgeSplit

theorem blockInsts_fenced (h : f.WellFormed) (hsplit : EdgeSplit f g source target) (b : BlockId) :
    (g.withFenceBefore f.insts.size).blockInsts b =
      if b = f.params.size then [f.insts.size + 1, f.insts.size] else f.blockInsts b := by
  rw [blockInsts_withFenceBefore, hsplit.insts_size]
  by_cases hb : b = f.params.size
  · rw [if_pos hb, hb, hsplit.blockInsts_new, insertBeforeIn, if_pos rfl]
  · rw [if_neg hb, hsplit.blockInsts_old b hb]
    apply insertBeforeIn_of_not_mem
    intro hmem
    exact Nat.lt_irrefl _ (h.lt_of_mem_blockInsts hmem)

theorem follows_fenced (h : f.WellFormed) (hsplit : EdgeSplit f g source target) {a x : InstId}
    (ha : a < f.insts.size) (hax : (g.withFenceBefore f.insts.size).Follows a x) :
    f.Follows a x ∨ x = f.insts.size + 1 := by
  have hold : ∀ b, b ≠ f.params.size →
      (g.withFenceBefore f.insts.size).blockInsts b = f.blockInsts b := by
    intro b hb
    rw [hsplit.blockInsts_fenced h, if_neg hb]
  have hnew : (g.withFenceBefore f.insts.size).blockInsts f.params.size =
      [f.insts.size + 1, f.insts.size] := by
    rw [hsplit.blockInsts_fenced h, if_pos rfl]
  -- the new block has no old instruction
  have hblock : ∀ b, a ∈ (g.withFenceBefore f.insts.size).blockInsts b → b ≠ f.params.size := by
    rintro b hmem rfl
    rw [hnew, List.mem_pair] at hmem
    rcases hmem with rfl | rfl
    · exact absurd ha (Nat.not_lt.mpr (Nat.le_succ _))
    · exact absurd ha (Nat.lt_irrefl _)
  rcases hax with ⟨b, hadjacent⟩ | ⟨b, t, hlast, ht, hfirst⟩
  · rw [hold b (hblock b hadjacent.mem_left)] at hadjacent
    exact Or.inl (Or.inl ⟨b, hadjacent⟩)
  · have hb := hblock b (List.mem_of_mem_getLast? hlast)
    rw [flowSuccs_withFenceBefore hsplit.wellFormed] at ht
    unfold lastInst? at hlast
    rw [hold b hb] at hlast
    unfold firstInst? at hfirst
    by_cases htnew : t = f.params.size
    · rw [htnew, hnew] at hfirst
      exact Or.inr (Option.some_inj.mp hfirst).symm
    · rw [hold t htnew] at hfirst
      rcases (hsplit.flowSuccs_old b hb t).mp ht with ⟨htold, -⟩ | ⟨-, heq⟩
      · exact Or.inl (Or.inr ⟨b, t, hlast, htold, hfirst⟩)
      · exact absurd heq htnew

theorem decorates_fenced (h : f.WellFormed) (hsplit : EdgeSplit f g source target) :
    Decorates f (g.withFenceBefore f.insts.size) := by
  have hafter := decorates_withFenceBefore (i := f.insts.size) hsplit.wellFormed
  have hlt : f.insts.size < g.insts.size := by
    rw [hsplit.insts_size]
    exact Nat.lt_succ_self _
  constructor
  case wellFormed => exact hafter.wellFormed
  case insts_le => exact Nat.le_trans (Nat.le_of_lt hlt) hafter.insts_le
  case params_le => exact Nat.le_trans (hsplit.params_size ▸ Nat.le_succ _) hafter.params_le
  case opcode_eq =>
    intro i hi
    rw [hafter.opcode_eq i (Nat.lt_trans hi hlt), hsplit.opcode_eq i hi]
  case sublist =>
    intro b hb
    rw [hsplit.blockInsts_fenced h, if_neg (Nat.ne_of_lt hb)]
  case lastInst?_eq =>
    intro b hb
    unfold lastInst?
    rw [hsplit.blockInsts_fenced h, if_neg (Nat.ne_of_lt hb)]
  case follows =>
    intro a ha x hax
    rcases hsplit.follows_fenced h ha hax with hold | rfl
    · exact Or.inl ⟨h.lt_of_follows hold, hold⟩
    · refine Or.inr ⟨Nat.le_succ _, ?_⟩
      rw [← hsplit.insts_size]
      exact isFence_withFenceBefore

theorem fencedSplit (h : f.WellFormed) (hsplit : EdgeSplit f g source target) :
    FencedSplit f (g.withFenceBefore f.insts.size) source target := by
  constructor
  case decorates => exact hsplit.decorates_fenced h
  case params_size => exact hsplit.params_size
  case blockInsts_new => rw [hsplit.blockInsts_fenced h, if_pos rfl]
  case blockInsts_old =>
    intro b hb
    rw [hsplit.blockInsts_fenced h, if_neg hb]
  case flowSuccs_new =>
    intro x
    rw [flowSuccs_withFenceBefore hsplit.wellFormed]
    exact hsplit.flowSuccs_new x
  case flowSuccs_old =>
    intro b hb x
    rw [flowSuccs_withFenceBefore hsplit.wellFormed]
    exact hsplit.flowSuccs_old b hb x

end EdgeSplit

end FencedSplit

section AlreadySplit

variable {f g : Function} {a b s t : BlockId}

theorem WellFormed.alreadySplit_iff (h : f.WellFormed) :
    f.alreadySplit s t = true ↔ ∃ mid, f.SolePred s mid ∧ mid ≠ t ∧ f.startsWithFence mid = true ∧
      ∀ x, x ∈ f.flowSuccs mid ↔ x = t := by
  unfold alreadySplit
  rw [List.any_eq_true]
  simp only [Bool.and_eq_true, bne_iff_ne, beq_iff_eq, toList_eq_singleton, h.predBlockCount_eq_one,
    ← AscSet.mem_def]
  constructor
  · rintro ⟨mid, hmid, ⟨⟨hne, hfence⟩, hsuccs⟩, c, hc⟩
    refine ⟨mid, ?_, hne, hfence, hsuccs⟩
    obtain rfl := hc.2 s hmid
    exact hc
  · rintro ⟨mid, hsole, hne, hfence, hsuccs⟩
    exact ⟨mid, hsole.1, ⟨⟨hne, hfence⟩, hsuccs⟩, s, hsole⟩

theorem startsWithFence_iff : f.startsWithFence b = true ↔
    ∃ i, f.firstInst? b = some i ∧ f.isFence i = true :=
  Option.any_eq_true _ _

theorem FenceFree.alreadySplit (h : f.WellFormed) (hfree : f.FenceFree) :
    f.alreadySplit s t = false := by
  rw [Bool.eq_false_iff]
  intro hshape
  obtain ⟨mid, -, -, hfence, -⟩ := h.alreadySplit_iff.mp hshape
  obtain ⟨i, hfirst, hfenceI⟩ := startsWithFence_iff.mp hfence
  have hmem := h.mem_layoutInsts.mpr ⟨mid, List.mem_of_mem_head? hfirst⟩
  rw [hfree i hmem] at hfenceI
  cases hfenceI

/-- A fence put before an instruction does not make an edge look split.  If the instruction starts a
block, what leads there must lead nowhere else. -/
theorem alreadySplit_of_withFenceBefore (h : f.WellFormed) {i : InstId}
    (hfirst : ∀ b, f.firstInst? b = some i → ∀ a, b ∈ f.flowSuccs a → ∀ x ∈ f.flowSuccs a, x = b)
    (hedge : t ∈ f.flowSuccs s) (hsplit : (f.withFenceBefore i).alreadySplit s t = true) :
    f.alreadySplit s t = true := by
  rw [(withFenceBefore_wellFormed h).alreadySplit_iff] at hsplit
  rw [h.alreadySplit_iff]
  unfold SolePred at hsplit ⊢
  simp only [flowSuccs_withFenceBefore h] at hsplit
  obtain ⟨mid, hsole, hne, hfence, hsuccs⟩ := hsplit
  refine ⟨mid, hsole, hne, ?_, hsuccs⟩
  obtain ⟨j, hj, hfencej⟩ := startsWithFence_iff.mp hfence
  have hhead := hj
  unfold firstInst? at hhead
  rw [blockInsts_withFenceBefore, head?_insertBeforeIn] at hhead
  split at hhead
  · rename_i hmid
    exact absurd (hfirst mid hmid s hsole.1 t hedge).symm hne
  · have hlt := h.lt_of_mem_blockInsts (List.mem_of_mem_head? hhead)
    rw [(decorates_withFenceBefore h).isFence_eq hlt] at hfencej
    exact startsWithFence_iff.mpr ⟨j, hhead, hfencej⟩

theorem FencedSplit.alreadySplit (h : f.WellFormed) (hsplit : FencedSplit f g a b)
    (hab : b ∈ f.flowSuccs a) (hedge : t ∈ g.flowSuccs s) (hshape : g.alreadySplit s t = true) :
    t ∈ f.flowSuccs s ∧ f.alreadySplit s t = true := by
  have ha : a ≠ f.params.size := Nat.ne_of_lt (h.blocks_lt a (mem_blocks_of_mem_flowSuccs hab))
  have hb : b ≠ f.params.size := Nat.ne_of_lt (h.flowSucc_lt hab)
  have hfresh : ∀ c, f.params.size ∉ f.flowSuccs c :=
    fun c hc => Nat.lt_irrefl _ (h.flowSucc_lt hc)
  rw [hsplit.decorates.wellFormed.alreadySplit_iff] at hshape
  obtain ⟨mid, ⟨hmid, hsole⟩, hne, hfence, hsuccs⟩ := hshape
  have hs : s ≠ f.params.size := by
    rintro rfl
    rw [hsplit.flowSuccs_new] at hmid hedge
    exact hne (hmid.trans hedge.symm)
  rcases (hsplit.flowSuccs_old s hs t).mp hedge with ⟨htold, hkept⟩ | ⟨rfl, rfl⟩
  case inr =>
    -- only the source leads to the new block, and it does not lead to itself alone
    have hmidsource : mid = s := by
      rcases (hsplit.flowSuccs_old mid hne f.params.size).mp ((hsuccs _).mpr rfl) with
        ⟨hold, -⟩ | ⟨heq, -⟩
      · exact absurd hold (hfresh mid)
      · exact heq
    rw [hmidsource] at hmid hsuccs
    exact absurd ((hsuccs s).mp hmid) ha
  case inl =>
    have hmidnew : mid ≠ f.params.size := by
      rintro rfl
      rcases (hsplit.flowSuccs_old s hs _).mp hmid with ⟨hold, -⟩ | ⟨hsa, -⟩
      · exact hfresh s hold
      · have htb := (hsplit.flowSuccs_new t).mp ((hsuccs t).mpr rfl)
        exact hkept ⟨hsa, htb⟩
    have hmidold : mid ∈ f.flowSuccs s := by
      rcases (hsplit.flowSuccs_old s hs mid).mp hmid with ⟨hold, -⟩ | ⟨-, heq⟩
      · exact hold
      · exact absurd heq hmidnew
    have hmida : mid ≠ a := by
      rintro rfl
      have hnew := (hsuccs _).mp ((hsplit.flowSuccs_old mid hmidnew _).mpr (Or.inr ⟨rfl, rfl⟩))
      rw [← hnew] at htold
      exact hfresh s htold
    refine ⟨htold, h.alreadySplit_iff.mpr ⟨mid, ⟨hmidold, ?_⟩, hne, ?_, ?_⟩⟩
    · intro c hc
      have hcnew : c ≠ f.params.size :=
        Nat.ne_of_lt (h.blocks_lt c (mem_blocks_of_mem_flowSuccs hc))
      by_cases hcut : c = a ∧ mid = b
      · have hnew := hsole _ ((hsplit.flowSuccs_new mid).mpr hcut.2)
        exact absurd hnew.symm hs
      · exact hsole c ((hsplit.flowSuccs_old c hcnew mid).mpr (Or.inl ⟨hc, hcut⟩))
    · obtain ⟨j, hj, hfencej⟩ := startsWithFence_iff.mp hfence
      unfold firstInst? at hj
      rw [hsplit.blockInsts_old mid hmidnew] at hj
      have hlt := h.lt_of_mem_blockInsts (List.mem_of_mem_head? hj)
      rw [hsplit.decorates.isFence_eq hlt] at hfencej
      exact startsWithFence_iff.mpr ⟨j, hj, hfencej⟩
    · intro x
      rw [← hsuccs x, hsplit.flowSuccs_old mid hmidnew]
      simp [hmida]

end AlreadySplit

end Function

end SpecFence
