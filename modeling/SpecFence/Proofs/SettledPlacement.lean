import Mathlib
import SpecFence.Proofs.BlockFences

/-!
# Placing a second time

An edge of the control flow is settled when there is a fence directly before its destination, or when
it has been led through a new block that starts with a fence.  Stopping an edge settles it, settled
edges stay settled, and nothing is done to stop a settled edge.  So whoever places the cut of a
function without fences once more changes nothing.  Since no fence is put before a fence or behind
one, no two of them are next to each other.
-/

set_option autoImplicit false

namespace SpecFence

namespace Function

variable {f g k : Function} {i src dst : InstId} {a b s t m : BlockId}

section FencesApart

/-- No fence stands directly before another. -/
def FencesApart (f : Function) : Prop :=
  ∀ b i j, Adjacent (f.blockInsts b) i j → f.isFence i = true → f.isFence j = false

theorem isFence_of_isBranch (hbranch : (f.opcode i).isBranch = true) : f.isFence i = false := by
  unfold isFence
  rw [beq_eq_false_iff_ne]
  intro hfence
  rw [hfence] at hbranch
  cases hbranch

theorem FencesApart.follows (hapart : f.FencesApart) {j : InstId} (hstep : f.Follows i j)
    (hfence : f.isFence i = true) : f.isFence j = false := by
  rcases hstep with ⟨b, hadjacent⟩ | ⟨s, t, hlast, ht, -⟩
  · exact hapart b i j hadjacent hfence
  · obtain ⟨branch, hlast', hbranch, -⟩ := mem_flowSuccs.mp ht
    obtain rfl := Option.some_inj.mp (hlast.symm.trans hlast')
    rw [isFence_of_isBranch hbranch] at hfence
    cases hfence

theorem FenceFree.fencesApart (h : f.WellFormed) (hfree : f.FenceFree) : f.FencesApart := by
  intro b i j hadjacent hfence
  rw [hfree i (h.mem_layoutInsts.mpr ⟨b, hadjacent.mem_left⟩)] at hfence
  cases hfence

theorem FencesApart.withFenceBefore (h : f.WellFormed) (hapart : f.FencesApart)
    (hi : i < f.insts.size) (hopen : f.isFence i = false) (hbefore : f.hasFenceBefore i = false) :
    (f.withFenceBefore i).FencesApart := by
  have hdecorates := decorates_withFenceBefore (i := i) h
  intro b x y hadjacent hfence
  rw [blockInsts_withFenceBefore] at hadjacent
  have hfresh : f.insts.size ∉ f.blockInsts b :=
    fun hmem => Nat.lt_irrefl _ (h.lt_of_mem_blockInsts hmem)
  rcases adjacent_of_insertBeforeIn (h.nodup_blockInsts b) hfresh hadjacent with
    ⟨-, rfl⟩ | ⟨-, hx⟩ | ⟨-, hold⟩
  · rw [hdecorates.isFence_eq hi]
    exact hopen
  · rw [hdecorates.isFence_eq (h.lt_of_mem_blockInsts hx.mem_left)] at hfence
    rw [h.hasFenceBefore_iff.mpr ⟨b, x, hx, hfence⟩] at hbefore
    cases hbefore
  · rw [hdecorates.isFence_eq (h.lt_of_mem_blockInsts hold.mem_left)] at hfence
    rw [hdecorates.isFence_eq (h.lt_of_mem_blockInsts hold.mem_right)]
    exact hapart b x y hold hfence

end FencesApart

section FencedSplit

variable (h : f.WellFormed) (hedge : t ∈ f.flowSuccs s)

namespace FencedSplit

include h hedge in
theorem isFence_fence (hsplit : FencedSplit f g s t) : g.isFence (f.insts.size + 1) = true := by
  obtain ⟨branch, hlast, -⟩ := mem_flowSuccs.mp hedge
  have hs : s < f.params.size := h.blocks_lt s (mem_blocks_of_mem_flowSuccs hedge)
  have hlast' : g.lastInst? s = some branch := (hsplit.decorates.lastInst?_eq s hs).trans hlast
  have hnew : f.params.size ∈ g.flowSuccs s :=
    (hsplit.flowSuccs_old s (Nat.ne_of_lt hs) _).mpr (Or.inr ⟨rfl, rfl⟩)
  have hfirst : g.firstInst? f.params.size = some (f.insts.size + 1) := by
    unfold firstInst?
    rw [hsplit.blockInsts_new]
    rfl
  have hbranch := h.lt_of_mem_blockInsts (List.mem_of_mem_getLast? hlast)
  have hstep : g.Follows branch (f.insts.size + 1) := Or.inr ⟨s, _, hlast', hnew, hfirst⟩
  rcases hsplit.decorates.follows branch hbranch _ hstep with ⟨hlt, -⟩ | ⟨-, hfence⟩
  · exact absurd hlt (Nat.not_lt.mpr (Nat.le_succ _))
  · exact hfence

theorem isFence_jump (hsplit : FencedSplit f g s t) : g.isFence f.insts.size = false := by
  obtain ⟨jump, hlast, hbranch, -⟩ := mem_flowSuccs.mp ((hsplit.flowSuccs_new t).mpr rfl)
  unfold lastInst? at hlast
  rw [hsplit.blockInsts_new] at hlast
  obtain rfl : f.insts.size = jump := Option.some_inj.mp hlast
  exact isFence_of_isBranch hbranch

include h in
theorem fencesApart (hsplit : FencedSplit f g s t) (hapart : f.FencesApart) : g.FencesApart := by
  intro b x y hadjacent hfence
  by_cases hb : b = f.params.size
  · rw [hb, hsplit.blockInsts_new] at hadjacent
    rcases adjacent_cons.mp hadjacent with ⟨-, hnext⟩ | hrest
    · obtain rfl : f.insts.size = y := Option.some_inj.mp hnext
      exact hsplit.isFence_jump
    · have hlength : 2 ≤ 1 := hrest.length_le
      omega
  · rw [hsplit.blockInsts_old b hb] at hadjacent
    rw [hsplit.decorates.isFence_eq (h.lt_of_mem_blockInsts hadjacent.mem_left)] at hfence
    rw [hsplit.decorates.isFence_eq (h.lt_of_mem_blockInsts hadjacent.mem_right)]
    exact hapart b x y hadjacent hfence

include h hedge in
theorem size_flowSuccs (hsplit : FencedSplit f g s t) (hb : b ≠ f.params.size)
    (hone : (g.flowSuccs b).size = 1) : (f.flowSuccs b).size = 1 := by
  rw [size_eq_one] at hone ⊢
  obtain ⟨y, hy⟩ := hone
  by_cases hbs : b = s
  · -- the new block is the one that the source leads to
    have hnew : f.params.size = y :=
      (hy _).mp ((hsplit.flowSuccs_old b hb _).mpr (Or.inr ⟨hbs, rfl⟩))
    refine ⟨t, fun x => ⟨fun hx => ?_, ?_⟩⟩
    · by_contra hne
      have hxy := (hy x).mp ((hsplit.flowSuccs_old b hb x).mpr (Or.inl ⟨hx, fun heq => hne heq.2⟩))
      rw [hxy, ← hnew] at hx
      exact Nat.lt_irrefl _ (h.flowSucc_lt hx)
    · rintro rfl
      rw [hbs]
      exact hedge
  · refine ⟨y, fun x => ?_⟩
    rw [← hy x, hsplit.flowSuccs_old b hb]
    simp [hbs]

include h hedge in
theorem predBlockCount (hsplit : FencedSplit f g s t) (hb : b ≠ f.params.size)
    (hone : g.predBlockCount b = 1) : f.predBlockCount b = 1 := by
  rw [hsplit.decorates.wellFormed.predBlockCount_eq_one] at hone
  rw [h.predBlockCount_eq_one]
  obtain ⟨a, ha, hsole⟩ := hone
  have hlt : ∀ c, b ∈ f.flowSuccs c → c ≠ f.params.size :=
    fun c hc => Nat.ne_of_lt (h.blocks_lt c (mem_blocks_of_mem_flowSuccs hc))
  by_cases hbt : b = t
  · -- the new block is the one that the target is entered from
    have hnew : f.params.size = a := hsole _ ((hsplit.flowSuccs_new b).mpr hbt)
    refine ⟨s, hbt ▸ hedge, fun c hc => ?_⟩
    by_contra hne
    have hca := hsole c ((hsplit.flowSuccs_old c (hlt c hc) b).mpr
      (Or.inl ⟨hc, fun heq => hne heq.1⟩))
    exact hlt c hc (hca.trans hnew.symm)
  · have hanew : a ≠ f.params.size := by
      rintro rfl
      exact hbt ((hsplit.flowSuccs_new b).mp ha)
    refine ⟨a, ?_, fun c hc => ?_⟩
    · rcases (hsplit.flowSuccs_old a hanew b).mp ha with ⟨hold, -⟩ | ⟨-, heq⟩
      · exact hold
      · exact absurd heq hb
    · exact hsole c ((hsplit.flowSuccs_old c (hlt c hc) b).mpr
        (Or.inl ⟨hc, fun heq => hbt heq.2⟩))

end FencedSplit

end FencedSplit

section SplitOff

/-- The way between two blocks of a function leads through a block that is new, starts with a fence,
and has no other way in or out. -/
structure SplitOff (f g : Function) (s t m : BlockId) : Prop where
  source_lt : s < f.params.size
  target_lt : t < f.params.size
  new : f.params.size ≤ m
  sole : g.SolePred s m
  fence : g.startsWithFence m = true
  onward : ∀ x, x ∈ g.flowSuccs m ↔ x = t

namespace SplitOff

theorem alreadySplit (hg : g.WellFormed) (hoff : SplitOff f g s t m) :
    g.alreadySplit s t = true := by
  have hne : m ≠ t := fun heq => Nat.not_lt.mpr hoff.new (heq ▸ hoff.target_lt)
  exact hg.alreadySplit_iff.mpr ⟨m, hoff.sole, hne, hoff.fence, hoff.onward⟩

theorem withFenceBefore (hg : g.WellFormed) (hopen : g.isFence i = false)
    (hoff : SplitOff f g s t m) : SplitOff f (g.withFenceBefore i) s t m := by
  refine ⟨hoff.source_lt, hoff.target_lt, hoff.new, ?_, ?_, fun x => ?_⟩
  · unfold SolePred
    simp only [flowSuccs_withFenceBefore hg]
    exact hoff.sole
  · obtain ⟨j, hfirst, hfence⟩ := startsWithFence_iff.mp hoff.fence
    have hji : ¬ (g.blockInsts m).head? = some i := by
      intro hhead
      obtain rfl := Option.some_inj.mp (hfirst.symm.trans hhead)
      rw [hopen] at hfence
      cases hfence
    refine startsWithFence_iff.mpr ⟨j, ?_, ?_⟩
    · unfold firstInst?
      rw [blockInsts_withFenceBefore, head?_insertBeforeIn, if_neg hji]
      exact hfirst
    · rw [(decorates_withFenceBefore hg).isFence_eq
        (hg.lt_of_mem_blockInsts (List.mem_of_mem_head? hfirst))]
      exact hfence
  · rw [flowSuccs_withFenceBefore hg]
    exact hoff.onward x

/-- The way through the new block is not split again: that block is neither the source nor the target
of an edge between old blocks. -/
theorem fencedSplit (hg : g.WellFormed) (hstep : FencedSplit g k a b) (ha : a < f.params.size)
    (hb : b < f.params.size) (hoff : SplitOff f g s t m) : SplitOff f k s t m := by
  have hma : m ≠ a := fun heq => Nat.not_lt.mpr hoff.new (heq ▸ ha)
  have hmb : m ≠ b := fun heq => Nat.not_lt.mpr hoff.new (heq ▸ hb)
  have hm : m ≠ g.params.size := Nat.ne_of_lt (hg.flowSucc_lt hoff.sole.1)
  have hs : s ≠ g.params.size :=
    Nat.ne_of_lt (hg.blocks_lt s (mem_blocks_of_mem_flowSuccs hoff.sole.1))
  refine ⟨hoff.source_lt, hoff.target_lt, hoff.new, ⟨?_, fun c hc => ?_⟩, ?_, fun x => ?_⟩
  · exact (hstep.flowSuccs_old s hs m).mpr (Or.inl ⟨hoff.sole.1, fun heq => hmb heq.2⟩)
  · have hcnew : c ≠ g.params.size := by
      rintro rfl
      exact hmb ((hstep.flowSuccs_new m).mp hc)
    rcases (hstep.flowSuccs_old c hcnew m).mp hc with ⟨hold, -⟩ | ⟨-, heq⟩
    · exact hoff.sole.2 c hold
    · exact absurd heq hm
  · obtain ⟨j, hfirst, hfence⟩ := startsWithFence_iff.mp hoff.fence
    refine startsWithFence_iff.mpr ⟨j, ?_, ?_⟩
    · unfold firstInst?
      rw [hstep.blockInsts_old m hm]
      exact hfirst
    · rw [hstep.decorates.isFence_eq (hg.lt_of_mem_blockInsts (List.mem_of_mem_head? hfirst))]
      exact hfence
  · rw [hstep.flowSuccs_old m hm, ← hoff.onward x]
    simp [hma]

theorem of_fencedSplit (hfg : Decorates f g) (hedge : t ∈ g.flowSuccs s) (hs : s < f.params.size)
    (ht : t < f.params.size) (hstep : FencedSplit g k s t) : SplitOff f k s t g.params.size := by
  have hg := hfg.wellFormed
  have hsnew : s ≠ g.params.size := Nat.ne_of_lt (Nat.lt_of_lt_of_le hs hfg.params_le)
  have htnew : t ≠ g.params.size := Nat.ne_of_lt (Nat.lt_of_lt_of_le ht hfg.params_le)
  refine ⟨hs, ht, hfg.params_le, ⟨?_, fun c hc => ?_⟩, ?_, hstep.flowSuccs_new⟩
  · exact (hstep.flowSuccs_old s hsnew _).mpr (Or.inr ⟨rfl, rfl⟩)
  · have hcnew : c ≠ g.params.size := by
      rintro rfl
      exact htnew ((hstep.flowSuccs_new _).mp hc).symm
    rcases (hstep.flowSuccs_old c hcnew _).mp hc with ⟨hold, -⟩ | ⟨heq, -⟩
    · exact absurd (hg.flowSucc_lt hold) (Nat.lt_irrefl _)
    · exact heq
  · refine startsWithFence_iff.mpr ⟨g.insts.size + 1, ?_, hstep.isFence_fence hg hedge⟩
    unfold firstInst?
    rw [hstep.blockInsts_new]
    rfl

end SplitOff

end SplitOff

section Settled

/-- Control no longer passes from the end of one block to the start of another without a fence, or
from an instruction to the next one of its block.  Where the way is split off, it was not the only
one out of the source and into the target. -/
inductive Settled (f g : Function) (src dst : InstId) : Prop
  | fenced (hbefore : g.hasFenceBefore dst = true)
  | splitOff {s t m : BlockId} (hsrc : g.terminator? s = some src) (hdst : g.firstInst? t = some dst)
      (hways : ¬ ((g.flowSuccs s).size = 1 ∧ g.predBlockCount t = 1)) (hoff : SplitOff f g s t m)

namespace Settled

theorem withFenceBefore (hfg : Decorates f g) (hopen : g.isFence i = false)
    (hsettled : Settled f g src dst) : Settled f (g.withFenceBefore i) src dst := by
  have hg := hfg.wellFormed
  cases hsettled with
  | fenced hbefore => exact fenced (hasFenceBefore_withFenceBefore hg hbefore)
  | @splitOff s t m hsrc hdst hways hoff =>
    have hmem := List.mem_of_mem_head? hdst
    by_cases hi : i = dst
    · rw [hi]
      exact fenced (hasFenceBefore_withFenceBefore_self hg (hg.mem_layoutInsts.mpr ⟨t, hmem⟩))
    · have hs := Nat.lt_of_lt_of_le hoff.source_lt hfg.params_le
      refine splitOff ((decorates_withFenceBefore hg).terminator?_eq hg hs |>.trans hsrc) ?_ ?_
        (hoff.withFenceBefore hg hopen)
      · have hne : ¬ (g.blockInsts t).head? = some i := by
          intro hhead
          exact hi (Option.some_inj.mp (hhead.symm.trans hdst))
        unfold firstInst?
        rw [blockInsts_withFenceBefore, head?_insertBeforeIn, if_neg hne]
        exact hdst
      · rw [flowSuccs_withFenceBefore hg, (withFenceBefore_wellFormed hg).predBlockCount_eq_one]
        unfold SolePred
        simp only [flowSuccs_withFenceBefore hg]
        rw [hg.predBlockCount_eq_one] at hways
        exact hways

theorem fencedSplit (hfg : Decorates f g) (hedge : b ∈ g.flowSuccs a) (ha : a < f.params.size)
    (hb : b < f.params.size) (hstep : FencedSplit g k a b) (hsettled : Settled f g src dst) :
    Settled f k src dst := by
  have hg := hfg.wellFormed
  cases hsettled with
  | fenced hbefore =>
    obtain ⟨c, x, hadjacent, hfence⟩ := hg.hasFenceBefore_iff.mp hbefore
    have hc : c ≠ g.params.size :=
      Nat.ne_of_lt (hg.blocks_lt c (mem_blocks_of_mem_blockInsts hadjacent.mem_left))
    refine fenced (hstep.decorates.wellFormed.hasFenceBefore_iff.mpr ⟨c, x, ?_, ?_⟩)
    · rw [hstep.blockInsts_old c hc]
      exact hadjacent
    · rw [hstep.decorates.isFence_eq (hg.lt_of_mem_blockInsts hadjacent.mem_left)]
      exact hfence
  | @splitOff s t m hsrc hdst hways hoff =>
    have hs := Nat.lt_of_lt_of_le hoff.source_lt hfg.params_le
    have ht := Nat.lt_of_lt_of_le hoff.target_lt hfg.params_le
    refine splitOff ((hstep.decorates.terminator?_eq hg hs).trans hsrc) ?_ ?_
      (hoff.fencedSplit hg hstep ha hb)
    · unfold firstInst?
      rw [hstep.blockInsts_old t (Nat.ne_of_lt ht)]
      exact hdst
    · rintro ⟨hsuccs, hpreds⟩
      exact hways ⟨hstep.size_flowSuccs hg hedge (Nat.ne_of_lt hs) hsuccs,
        hstep.predBlockCount hg hedge (Nat.ne_of_lt ht) hpreds⟩

end Settled

end Settled

end Function

namespace Placer

open SpecFence.Function

variable {f : Function} {p q : Placer} {src dst a b : InstId} {weighting : BlockWeighting}
  {cut : List Edge}

section Steps

theorem cutBetween_of_settled (hdecorates : Decorates f p.function)
    (hm : p.mitigation ≠ .fencePerBlock) (hsettled : Settled f p.function src dst) :
    p.cutBetween src dst = p := by
  have hg := hdecorates.wellFormed
  unfold Placer.cutBetween
  rw [if_neg hm]
  cases hsettled with
  | fenced hbefore =>
    have hstay : p.fenceBefore dst = p := by
      unfold fenceBefore
      rw [hbefore, Bool.or_true, Bool.true_or]
      rfl
    split
    · rename_i source target hsource htarget
      have hfirst : ¬ p.function.firstInst? target = some dst := by
        intro hhead
        obtain ⟨c, x, hadjacent, -⟩ := hg.hasFenceBefore_iff.mp hbefore
        rw [hg.block_unique hadjacent.mem_right (List.mem_of_mem_head? hhead)] at hadjacent
        exact hadjacent.ne_head (hg.nodup_blockInsts target) hhead
      dsimp only
      rw [beq_eq_false_iff_ne.mpr hfirst, Bool.and_false, Bool.not_false, Bool.true_or, if_pos rfl]
      exact hstay
    · rfl
  | @splitOff s t m hsrc hdst hways hoff =>
    have hlast : p.function.lastInst? s = some src := (Option.filter_eq_some_iff.mp hsrc).1
    rw [hg.blockOf?_eq_some_iff.mpr (List.mem_of_mem_getLast? hlast),
      hg.blockOf?_eq_some_iff.mpr (List.mem_of_mem_head? hdst)]
    dsimp only
    rw [hsrc, hdst, if_neg (by simpa using hways)]
    unfold fenceOnEdge
    rw [hoff.alreadySplit hg, Bool.or_true]
    rfl

structure Settling (f : Function) (p : Placer) : Prop extends Tracks f p where
  ways : ∀ s t, t ∈ f.flowSuccs s → t ∈ p.function.flowSuccs s ∨ ∃ m, SplitOff f p.function s t m
  edges : ∀ e ∈ p.split, e.target ∈ f.flowSuccs e.source
  once : (p.split.map fun e => (e.source, e.target)).Nodup
  apart : p.function.FencesApart

theorem settling_start (h : f.WellFormed) (hfree : f.FenceFree) :
    Settling f (start f .fencePerEdge) where
  toTracks := tracks_start h
  ways := fun _ _ ht => Or.inl ht
  edges := fun _ he => absurd he List.not_mem_nil
  once := List.nodup_nil
  apart := hfree.fencesApart h

/-- What stopping an edge does: nothing if it is settled; otherwise it puts a fence before the
destination, or splits the edge between two blocks, which was not split before. -/
inductive Stops (f : Function) (src dst : InstId) (p q : Placer) : Prop
  | nothing (same : q = p) (settled : Settled f p.function src dst)
  | fence (function : q.function = p.function.withFenceBefore dst) (split : q.split = p.split)
      (laid : dst ∈ p.function.layoutInsts) (isOpen : p.function.isFence dst = false)
      (bare : p.function.hasFenceBefore dst = false)
  | block {s t : BlockId} (edge : t ∈ f.flowSuccs s) (leads : t ∈ p.function.flowSuccs s)
      (ends : p.function.terminator? s = some src) (starts : p.function.firstInst? t = some dst)
      (ways : ¬ ((p.function.flowSuccs s).size = 1 ∧ p.function.predBlockCount t = 1))
      (step : FencedSplit p.function q.function s t)
      (split : q.split = p.split ++ [⟨s, t, p.function.params.size⟩])

theorem Settling.stops (h : f.WellFormed) (hfree : f.FenceFree) (hp : Settling f p)
    (hstep : f.Follows src dst) : Stops f src dst p (p.cutBetween src dst) := by
  have hg := hp.decorates.wellFormed
  have hm : p.mitigation ≠ .fencePerBlock := by
    rw [hp.mitigation]
    decide
  by_cases hsettled : Settled f p.function src dst
  · exact .nothing (cutBetween_of_settled hp.decorates hm hsettled) hsettled
  obtain ⟨s, t, hs, ht, hsrc, hdst, hkind⟩ := blocks_of_follows h hstep
  have hdstIn := (hp.decorates.sublist t ht).subset hdst
  have hlaid := hg.mem_layoutInsts.mpr ⟨t, hdstIn⟩
  have hopen : p.function.isFence dst = false := by
    rw [hp.decorates.isFence_eq (h.lt_of_mem_blockInsts hdst)]
    exact hfree dst (h.mem_layoutInsts.mpr ⟨t, hdst⟩)
  have hbare : p.function.hasFenceBefore dst = false :=
    Bool.eq_false_iff.mpr fun hbefore => hsettled (.fenced hbefore)
  have hblock := hp.toTracks.blockOf? ht hdst
  unfold Placer.cutBetween
  rw [if_neg hm, hp.toTracks.blockOf? hs hsrc, hblock]
  dsimp only
  split
  · -- with neither a fence there nor one before it, the destination gets one
    rcases fenceBefore_cases p dst with ⟨-, hskip⟩ | ⟨hfunction, hsplit, -⟩
    · rw [hopen, hbare, hblock] at hskip
      simp at hskip
    · exact .fence hfunction hsplit hlaid hopen hbare
  · rename_i hcond
    simp only [Bool.or_eq_true, Bool.not_eq_true', Bool.and_eq_true, Bool.and_eq_false_iff, not_or,
      Bool.not_eq_false, beq_iff_eq] at hcond
    obtain ⟨⟨hends, hstarts⟩, hways⟩ := hcond
    have hlast : f.lastInst? s = some src := by
      rw [hp.decorates.terminator?_eq h hs] at hends
      exact (Option.filter_eq_some_iff.mp hends).1
    rcases hkind with hadjacent | ⟨-, hedge, -⟩
    · rw [h.block_unique hsrc hadjacent.mem_left] at hlast
      exact absurd hlast (hadjacent.ne_getLast (h.nodup_blockInsts t))
    · -- an edge that is there and looks split was split in the function without fences
      have hunsplit : ∀ m, ¬ SplitOff f p.function s t m :=
        fun m hoff => hsettled (.splitOff hends hstarts hways hoff)
      have hleads : t ∈ p.function.flowSuccs s :=
        (hp.ways s t hedge).resolve_right fun ⟨m, hoff⟩ => hunsplit m hoff
      rcases fenceOnEdge_cases hg s t with ⟨-, -, -, hskip⟩ | ⟨-, hfenced, hsplit, -⟩
      · rcases hskip hleads with ⟨e, he, rfl, rfl⟩ | hshape
        · exact absurd hleads (hp.split e he).2.2
        · have hbefore := hp.alreadySplit s t hleads hshape
          rw [hfree.alreadySplit h] at hbefore
          cases hbefore
      · exact .block hedge hleads hends hstarts hways hfenced hsplit

theorem Stops.settled (h : f.WellFormed) (hfg : Decorates f p.function)
    (hstops : Stops f src dst p q) : Settled f q.function src dst := by
  have hg := hfg.wellFormed
  cases hstops with
  | nothing same settled => exact same ▸ settled
  | fence function split laid isOpen bare =>
    rw [function]
    exact .fenced (hasFenceBefore_withFenceBefore_self hg laid)
  | @block s t edge leads ends starts ways step split =>
    have hs : s < f.params.size := h.blocks_lt s (mem_blocks_of_mem_flowSuccs edge)
    have ht : t < f.params.size := h.flowSucc_lt edge
    have hs' := Nat.lt_of_lt_of_le hs hfg.params_le
    have ht' := Nat.lt_of_lt_of_le ht hfg.params_le
    refine .splitOff ((step.decorates.terminator?_eq hg hs').trans ends) ?_ ?_
      (.of_fencedSplit hfg leads hs ht step)
    · unfold firstInst?
      rw [step.blockInsts_old t (Nat.ne_of_lt ht')]
      exact starts
    · rintro ⟨hsuccs, hpreds⟩
      exact ways ⟨step.size_flowSuccs hg leads (Nat.ne_of_lt hs') hsuccs,
        step.predBlockCount hg leads (Nat.ne_of_lt ht') hpreds⟩

theorem Stops.keeps (h : f.WellFormed) (hfg : Decorates f p.function)
    (hstops : Stops f src dst p q) (hsettled : Settled f p.function a b) :
    Settled f q.function a b := by
  cases hstops with
  | nothing same settled => exact same ▸ hsettled
  | fence function split laid isOpen bare =>
    rw [function]
    exact hsettled.withFenceBefore hfg isOpen
  | block edge leads ends starts ways step split =>
    exact hsettled.fencedSplit hfg leads (h.blocks_lt _ (mem_blocks_of_mem_flowSuccs edge))
      (h.flowSucc_lt edge) step

theorem Settling.cutBetween (h : f.WellFormed) (hfree : f.FenceFree) (hp : Settling f p)
    (hstep : f.Follows src dst) : Settling f (p.cutBetween src dst) := by
  have hg := hp.decorates.wellFormed
  have htracks := (hp.toTracks.cutBetween h hstep).1
  cases hp.stops h hfree hstep with
  | nothing same settled => exact same.symm ▸ hp
  | fence function split laid isOpen bare =>
    refine ⟨htracks, fun s t ht => ?_, ?_, ?_, ?_⟩
    · rw [function, flowSuccs_withFenceBefore hg]
      exact (hp.ways s t ht).imp_right fun ⟨m, hoff⟩ => ⟨m, hoff.withFenceBefore hg isOpen⟩
    · rw [split]
      exact hp.edges
    · rw [split]
      exact hp.once
    · rw [function]
      exact hp.apart.withFenceBefore hg (hg.insts_lt dst laid) isOpen bare
  | @block s t edge leads ends starts ways step split =>
    have hs : s < f.params.size := h.blocks_lt s (mem_blocks_of_mem_flowSuccs edge)
    have ht : t < f.params.size := h.flowSucc_lt edge
    refine ⟨htracks, fun s' t' ht' => ?_, ?_, ?_, ?_⟩
    · rcases hp.ways s' t' ht' with hdirect | ⟨m, hoff⟩
      · have hs' : s' ≠ p.function.params.size :=
          Nat.ne_of_lt (hg.blocks_lt s' (mem_blocks_of_mem_flowSuccs hdirect))
        by_cases hsame : s' = s ∧ t' = t
        · obtain ⟨rfl, rfl⟩ := hsame
          exact Or.inr ⟨_, .of_fencedSplit hp.decorates leads hs ht step⟩
        · exact Or.inl ((step.flowSuccs_old s' hs' t').mpr (Or.inl ⟨hdirect, hsame⟩))
      · exact Or.inr ⟨m, hoff.fencedSplit hg step hs ht⟩
    · rw [split, List.forall_mem_append, List.forall_mem_singleton]
      exact ⟨hp.edges, edge⟩
    · rw [split, List.map_append, List.map_singleton, List.nodup_append]
      refine ⟨hp.once, List.nodup_singleton _, ?_⟩
      intro x hx y hy hxy
      obtain ⟨e, he, rfl⟩ := List.mem_map.mp hx
      rw [List.mem_singleton.mp hy, Prod.mk.injEq] at hxy
      obtain ⟨hsource, htarget⟩ := hxy
      exact (hp.split e he).2.2 (hsource ▸ htarget ▸ leads)
    · exact step.fencesApart hg hp.apart

end Steps

section Place

theorem place_eq_self {graph : DependenceGraph} (hstay : ∀ e ∈ cut, cutEdge graph p e = p) :
    p.place graph cut = p := by
  unfold Placer.place
  induction cut with
  | nil => rfl
  | cons e rest ih =>
    rw [List.forall_mem_cons] at hstay
    rw [List.foldl_cons, hstay.1]
    exact ih hstay.2

theorem cutEdge_of_joins {e : Edge} (hjoins : Joins f weighting e src dst) :
    cutEdge (DependenceGraph.ofFunction f weighting) p e = p.cutBetween src dst := by
  unfold cutEdge
  rw [hjoins.1, hjoins.2.1]

theorem Settling.place (h : f.WellFormed) (hfree : f.FenceFree) (hp : Settling f p)
    (hcut : ∀ e ∈ cut, ∃ src dst, Joins f weighting e src dst) :
    Settling f (p.place (DependenceGraph.ofFunction f weighting) cut) ∧
      (∀ a b, Settled f p.function a b →
        Settled f (p.place (DependenceGraph.ofFunction f weighting) cut).function a b) ∧
      ∀ e ∈ cut, ∃ src dst, Joins f weighting e src dst ∧
        Settled f (p.place (DependenceGraph.ofFunction f weighting) cut).function src dst := by
  induction cut generalizing p with
  | nil => exact ⟨hp, fun a b hab => hab, fun e he => absurd he List.not_mem_nil⟩
  | cons e rest ih =>
    rw [List.forall_mem_cons] at hcut
    obtain ⟨⟨src, dst, hjoins⟩, hrest⟩ := hcut
    have hstops := hp.stops h hfree hjoins.2.2
    have hnext := hp.cutBetween h hfree hjoins.2.2
    have hplace : p.place (DependenceGraph.ofFunction f weighting) (e :: rest) =
        (p.cutBetween src dst).place (DependenceGraph.ofFunction f weighting) rest := by
      rw [← cutEdge_of_joins hjoins]
      rfl
    obtain ⟨hlast, hkept, hall⟩ := ih hnext hrest
    rw [hplace]
    refine ⟨hlast, fun a b hab => hkept a b (hstops.keeps h hp.decorates hab), ?_⟩
    rw [List.forall_mem_cons]
    exact ⟨⟨src, dst, hjoins, hkept src dst (hstops.settled h hp.decorates)⟩, hall⟩

theorem fencesApart_withFencesBefore (h : f.WellFormed) (hfree : f.FenceFree)
    {tops : List InstId} (htops : f.Tops tops) : (f.withFencesBefore tops).FencesApart := by
  induction tops using List.reverseRecOn with
  | nil => exact hfree.fencesApart h
  | append_singleton tops t ih =>
    have hmem : t ∈ tops ++ [t] := List.mem_append_right tops List.mem_cons_self
    have hlaid := htops.laid t hmem
    obtain ⟨hnodup, -, hnew⟩ := List.nodup_append.mp htops.nodup
    have ht : t ∉ tops := fun ht => hnew t ht t List.mem_cons_self rfl
    have hsub : ∀ u ∈ tops, u ∈ tops ++ [t] := fun u hu => List.mem_append_left [t] hu
    have hold : f.Tops tops := ⟨hnodup, fun u hu => htops.laid u (hsub u hu),
      fun u hu => htops.top u (hsub u hu), fun u hu => htops.open_ u (hsub u hu)⟩
    have hdecorates := decorates_withFencesBefore h tops
    have hin := hdecorates.mem_layoutInsts h hlaid
    have htop : (f.withFencesBefore tops).linearTop t = t := by
      rw [hold.linearTop h hlaid, htops.top t hmem, if_neg ht]
    have hopen : (f.withFencesBefore tops).isFence t = false := by
      rw [hdecorates.isFence_eq (h.insts_lt t hlaid)]
      exact htops.open_ t hmem
    have hbare := hasFenceBefore_linearTop hdecorates.wellFormed hin
    rw [htop] at hbare
    rw [withFencesBefore_concat]
    exact (ih hold).withFenceBefore hdecorates.wellFormed (hdecorates.wellFormed.insts_lt t hin)
      hopen hbare

/-- What has become of a function and a cut is as it would be after placing the cut once more. -/
structure PlacedOnce (f : Function) (graph : DependenceGraph) (cut : List Edge) (m : Mitigation)
    (p : Placer) : Prop where
  again : p.place graph cut = p
  afresh : (start p.function m).place graph cut = start p.function m
  edges : ∀ e ∈ p.split, e.target ∈ f.flowSuccs e.source
  once : (p.split.map fun e => (e.source, e.target)).Nodup
  apart : ∀ i j, p.function.Follows i j → p.function.isFence i = true →
    p.function.isFence j = false

theorem placedOnce_fencePerEdge (h : f.WellFormed) (hfree : f.FenceFree)
    (hcut : ∀ e ∈ cut, ∃ src dst, Joins f weighting e src dst) :
    PlacedOnce f (DependenceGraph.ofFunction f weighting) cut .fencePerEdge
      ((start f .fencePerEdge).place (DependenceGraph.ofFunction f weighting) cut) := by
  obtain ⟨hp, -, hsettled⟩ := (settling_start h hfree).place h hfree hcut
  have hstay : ∀ q : Placer, q.mitigation = .fencePerEdge → q.function =
      ((start f .fencePerEdge).place (DependenceGraph.ofFunction f weighting) cut).function →
      q.place (DependenceGraph.ofFunction f weighting) cut = q := by
    intro q hm hq
    apply place_eq_self
    intro e he
    obtain ⟨src, dst, hjoins, hdone⟩ := hsettled e he
    rw [cutEdge_of_joins hjoins]
    refine cutBetween_of_settled (hq ▸ hp.decorates) ?_ (hq ▸ hdone)
    rw [hm]
    decide
  exact ⟨hstay _ hp.mitigation rfl, hstay _ rfl rfl, hp.edges, hp.once,
    fun i j hstep => hp.apart.follows hstep⟩

theorem placedOnce_fencePerBlock (h : f.WellFormed) (hfree : f.FenceFree)
    (hcut : ∀ e ∈ cut, ∃ src dst, Joins f weighting e src dst) :
    PlacedOnce f (DependenceGraph.ofFunction f weighting) cut .fencePerBlock
      ((start f .fencePerBlock).place (DependenceGraph.ofFunction f weighting) cut) := by
  have hempty : f.Tops [] := ⟨List.nodup_nil, by simp, by simp, by simp⟩
  obtain ⟨tops, htops, hplace, hmem⟩ := place_fencedAt h hempty hcut
  have hplaced : (start f .fencePerBlock).place (DependenceGraph.ofFunction f weighting) cut =
      fencedAt f tops := hplace
  rw [hplaced]
  have hstay : ∀ q : Placer, q.mitigation = .fencePerBlock →
      q.function = f.withFencesBefore tops →
      q.place (DependenceGraph.ofFunction f weighting) cut = q := by
    intro q hm hq
    apply place_eq_self
    intro e he
    obtain ⟨src, dst, hjoins⟩ := hcut e he
    have hlaid := h.mem_layoutInsts_of_follows hjoins.2.2
    have htop : f.linearTop dst ∈ tops := (hmem _).mpr (Or.inr
      ⟨hfree _ (linearTop_mem h hlaid), e, he, dst, hjoins.2.1, rfl⟩)
    have hfence : q.function.isFence (q.function.linearTop dst) = true := by
      rw [hq]
      exact htops.isFence_linearTop h hlaid (Or.inl htop)
    rw [cutEdge_of_joins hjoins]
    unfold Placer.cutBetween
    rw [if_pos hm]
    unfold fenceBefore
    rw [hfence, Bool.true_or, Bool.true_or]
    rfl
  exact ⟨hstay _ rfl rfl, hstay _ rfl rfl, fun e he => absurd he List.not_mem_nil, List.nodup_nil,
    fun i j hstep => (fencesApart_withFencesBefore h hfree htops).follows hstep⟩

/-- Placing a cut of a function without fences is done once and for all, with fences on the edges as
with one fence for each linear block. -/
theorem place_idempotent (f : Function) (h : f.WellFormed) (hfree : f.FenceFree)
    (weighting : BlockWeighting) (cut : List Edge)
    (hcut : ∀ e ∈ cut, 0 < (DependenceGraph.ofFunction f weighting).control.weight e.src e.dst)
    (m : Mitigation) (hm : m = .fencePerEdge ∨ m = .fencePerBlock) :
    PlacedOnce f (DependenceGraph.ofFunction f weighting) cut m
      ((start f m).place (DependenceGraph.ofFunction f weighting) cut) := by
  have hjoins : ∀ e ∈ cut, ∃ src dst, Joins f weighting e src dst :=
    fun e he => (DependenceGraph.control_joins_iff h).mp (hcut e he)
  rcases hm with rfl | rfl
  · exact placedOnce_fencePerEdge h hfree hjoins
  · exact placedOnce_fencePerBlock h hfree hjoins

def loopBetween : Function := .build ⟨.numbered 0 0, [], [],
  [⟨[⟨.i32, 1⟩], [⟨.iconst, [], .immediate 7, some ⟨.i32, 1⟩, [⟨.i32, 1⟩]⟩,
      ⟨.jump, [], .targets [⟨1, []⟩], none, []⟩]⟩,
    ⟨[], [⟨.jump, [], .targets [⟨2, []⟩], none, []⟩]⟩,
    ⟨[], [⟨.brif, [0], .targets [⟨2, []⟩, ⟨3, []⟩], none, []⟩]⟩,
    ⟨[], [⟨.ret, [], .none, none, []⟩]⟩], none⟩

/-- The straight line to the first jump, the only way from there, the ways into the loop and around
it, and the way out. -/
def loopEdges : List Edge := [⟨1, 2⟩, ⟨2, 3⟩, ⟨3, 4⟩, ⟨4, 4⟩, ⟨4, 5⟩]

/-- The first two edges get a fence each, the others are split; then nothing is left to do. -/
theorem place_idempotent_loopBetween :
    loopBetween.WellFormed ∧ loopBetween.FenceFree ∧
      (∀ e ∈ loopEdges,
        0 < (DependenceGraph.ofFunction loopBetween (.uniform 1)).control.weight e.src e.dst) ∧
      ((start loopBetween .fencePerEdge).place
        (DependenceGraph.ofFunction loopBetween (.uniform 1)) loopEdges).placed.map
          PlacedFence.point = [.before 1, .before 2, .onEdge 4 1 2, .onEdge 5 2 2, .onEdge 6 2 3] ∧
      PlacedOnce loopBetween (DependenceGraph.ofFunction loopBetween (.uniform 1)) loopEdges
        .fencePerEdge ((start loopBetween .fencePerEdge).place
          (DependenceGraph.ofFunction loopBetween (.uniform 1)) loopEdges) ∧
      PlacedOnce loopBetween (DependenceGraph.ofFunction loopBetween (.uniform 1)) loopEdges
        .fencePerBlock ((start loopBetween .fencePerBlock).place
          (DependenceGraph.ofFunction loopBetween (.uniform 1)) loopEdges) := by
  have hwf : loopBetween.WellFormed := build_wellFormed (by decide)
  have hfree : loopBetween.FenceFree := by decide +kernel
  have hweight : ∀ e ∈ loopEdges,
      0 < (DependenceGraph.ofFunction loopBetween (.uniform 1)).control.weight e.src e.dst := by
    decide +kernel
  have hplaced := place_idempotent loopBetween hwf hfree (.uniform 1) loopEdges hweight
  exact ⟨hwf, hfree, hweight, by cbv, hplaced .fencePerEdge (Or.inl rfl),
    hplaced .fencePerBlock (Or.inr rfl)⟩

end Place

end Placer

end SpecFence
