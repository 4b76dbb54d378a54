import SpecFence.Proofs.Built
import SpecFence.Proofs.Dependence
import SpecFence.Proofs.Placement

/-!
# Cut edges are stopped

A placer takes the edges of a cut one after the other.  What it has done so far is described by what
control passes to afterwards and by which edges it has rerouted; each further edge keeps that, and is
stopped unless it is taken for one that was split before.
-/

set_option autoImplicit false

namespace SpecFence

open SpecFence.Function

namespace Placer

variable {f : Function} {p : Placer} {i src dst : InstId} {s t : BlockId}

/-- A placer with all that it has done to a function so far. -/
structure Tracks (f : Function) (p : Placer) : Prop where
  decorates : Decorates f p.function
  mitigation : p.mitigation = .fencePerEdge
  split : ∀ e ∈ p.split, e.source < f.params.size ∧ e.target < f.params.size ∧
    e.target ∉ p.function.flowSuccs e.source
  rerouted : ∀ s t, t ∈ f.flowSuccs s → t ∈ p.function.flowSuccs s ∨
    ∃ m, f.params.size ≤ m ∧ m ∈ p.function.flowSuccs s ∧ ∀ x, x ∈ p.function.flowSuccs m ↔ x = t
  alreadySplit : ∀ s t, t ∈ p.function.flowSuccs s → p.function.alreadySplit s t = true →
    f.alreadySplit s t = true

theorem tracks_start (h : f.WellFormed) : Tracks f (start f .fencePerEdge) := by
  refine ⟨Decorates.refl h, rfl, ?_, fun s t ht => Or.inl ht, fun s t _ hsplit => hsplit⟩
  intro e he
  exact absurd he List.not_mem_nil

section Steps

theorem fenceBefore_cases (p : Placer) (i : InstId) :
    (p.fenceBefore i = p ∧ (p.function.isFence i = true ∨ p.function.hasFenceBefore i = true ∨
        p.function.blockOf? i = none)) ∨
      ((p.fenceBefore i).function = p.function.withFenceBefore i ∧
        (p.fenceBefore i).split = p.split ∧ (p.fenceBefore i).mitigation = p.mitigation) := by
  unfold fenceBefore
  split
  · rename_i hskip
    refine Or.inl ⟨rfl, ?_⟩
    simpa [or_assoc] using hskip
  · exact Or.inr ⟨rfl, rfl, rfl⟩

theorem Tracks.fenceBefore (htracks : Tracks f p)
    (hfirst : ∀ b, p.function.firstInst? b = some i →
      ∀ a, b ∈ p.function.flowSuccs a → ∀ x ∈ p.function.flowSuccs a, x = b) :
    Tracks f (p.fenceBefore i) ∧ Decorates p.function (p.fenceBefore i).function := by
  have hwf := htracks.decorates.wellFormed
  rcases fenceBefore_cases p i with ⟨hsame, -⟩ | ⟨hfunction, hsplit, hmitigation⟩
  · rw [hsame]
    exact ⟨htracks, Decorates.refl hwf⟩
  · have hstep := decorates_withFenceBefore (i := i) hwf
    rw [← hfunction] at hstep
    refine ⟨?_, hstep⟩
    have hsuccs : ∀ b, (p.fenceBefore i).function.flowSuccs b = p.function.flowSuccs b := by
      intro b
      rw [hfunction, flowSuccs_withFenceBefore hwf]
    constructor
    case decorates => exact htracks.decorates.trans hstep
    case mitigation => exact hmitigation.trans htracks.mitigation
    case split =>
      intro e he
      rw [hsplit] at he
      rw [hsuccs]
      exact htracks.split e he
    case rerouted =>
      intro s t ht
      simp only [hsuccs]
      exact htracks.rerouted s t ht
    case alreadySplit =>
      intro s t ht hshape
      rw [hsuccs] at ht
      rw [hfunction] at hshape
      exact htracks.alreadySplit s t ht (alreadySplit_of_withFenceBefore hwf hfirst ht hshape)

/-- A fence before an instruction stops what comes from the instruction before, unless one of the
two is a fence. -/
theorem follows_fenceBefore (h : p.function.WellFormed) (hsrc : src < p.function.insts.size)
    (hdst : dst < p.function.insts.size)
    (hfollows : (p.fenceBefore dst).function.Follows src dst) :
    p.function.isFence src = true ∨ p.function.isFence dst = true := by
  rcases fenceBefore_cases p dst with ⟨hsame, hskip⟩ | ⟨hfunction, -⟩
  · rw [hsame] at hfollows
    rcases hskip with hdst | hbefore | hnone
    · exact Or.inr hdst
    · obtain ⟨b, y, hadjacent, hfence⟩ := h.hasFenceBefore_iff.mp hbefore
      rcases hfollows with ⟨c, hadjacent'⟩ | ⟨c, t, -, -, hfirst⟩
      · obtain rfl := h.block_unique hadjacent.mem_right hadjacent'.mem_right
        obtain rfl := hadjacent.left_unique (h.nodup_blockInsts b) hadjacent'
        exact Or.inl hfence
      · obtain rfl := h.block_unique hadjacent.mem_right (List.mem_of_mem_head? hfirst)
        exact absurd hfirst (hadjacent.ne_head (h.nodup_blockInsts b))
    · have hmem : ∃ b, dst ∈ p.function.blockInsts b := by
        rcases hfollows with ⟨b, hadjacent⟩ | ⟨-, t, -, -, hfirst⟩
        · exact ⟨b, hadjacent.mem_right⟩
        · exact ⟨t, List.mem_of_mem_head? hfirst⟩
      obtain ⟨b, hb⟩ := hmem
      rw [h.blockOf?_eq_some_iff.mpr hb] at hnone
      cases hnone
  · rw [hfunction] at hfollows
    exact absurd hfollows (not_follows_withFenceBefore h hsrc hdst)

theorem fenceOnEdge_of_open {g : Function} (hskip : ¬ ((p.split.any fun e =>
      e.source == s && e.target == t) || p.function.alreadySplit s t) = true)
    (hedge : t ∈ p.function.flowSuccs s)
    (hg : p.function.splitEdge? s t = some (p.function.params.size, g))
    (hsplit : EdgeSplit p.function g s t) : p.fenceOnEdge s t = { p with
      function := g.withFenceBefore p.function.insts.size
      split := p.split ++ [⟨s, t, p.function.params.size⟩]
      placed := p.placed ++ [⟨g.insts.size, .onEdge p.function.params.size s t⟩] } := by
  have hfirst : (g.addInst fenceSpec).2.firstInst? p.function.params.size =
      some p.function.insts.size := by
    change (g.blockInsts p.function.params.size).head? = _
    rw [hsplit.blockInsts_new]
    rfl
  unfold fenceOnEdge
  rw [if_neg hskip, if_neg (not_not_intro hedge), hg]
  dsimp only
  rw [hfirst]
  rfl

theorem fenceOnEdge_cases (h : p.function.WellFormed) (s t : BlockId) :
    ((p.fenceOnEdge s t).function = p.function ∧ (p.fenceOnEdge s t).split = p.split ∧
        (p.fenceOnEdge s t).mitigation = p.mitigation ∧
        (t ∈ p.function.flowSuccs s →
          (∃ e ∈ p.split, e.source = s ∧ e.target = t) ∨ p.function.alreadySplit s t = true)) ∨
      (t ∈ p.function.flowSuccs s ∧
        FencedSplit p.function (p.fenceOnEdge s t).function s t ∧
        (p.fenceOnEdge s t).split = p.split ++ [⟨s, t, p.function.params.size⟩] ∧
        (p.fenceOnEdge s t).mitigation = p.mitigation) := by
  by_cases hskip : ((p.split.any fun e => e.source == s && e.target == t) ||
      p.function.alreadySplit s t) = true
  · have hsame : p.fenceOnEdge s t = p := if_pos hskip
    rw [hsame]
    refine Or.inl ⟨rfl, rfl, rfl, fun _ => ?_⟩
    rcases Bool.or_eq_true_iff.mp hskip with hany | hshape
    · obtain ⟨e, he, hboth⟩ := List.any_eq_true.mp hany
      exact Or.inl ⟨e, he, by simpa using hboth⟩
    · exact Or.inr hshape
  · by_cases hedge : t ∈ p.function.flowSuccs s
    · obtain ⟨g, hg, hsplit⟩ := h.splitEdge?_edgeSplit hedge
      rw [fenceOnEdge_of_open hskip hedge hg hsplit]
      exact Or.inr ⟨hedge, hsplit.fencedSplit h, rfl, rfl⟩
    · have hwarn : (p.fenceOnEdge s t).function = p.function ∧ (p.fenceOnEdge s t).split = p.split ∧
          (p.fenceOnEdge s t).mitigation = p.mitigation := by
        unfold fenceOnEdge
        rw [if_neg hskip, if_pos hedge]
        exact ⟨rfl, rfl, rfl⟩
      exact Or.inl ⟨hwarn.1, hwarn.2.1, hwarn.2.2, fun hmem => absurd hmem hedge⟩

theorem rerouted_of_fencedSplit {g k : Function} (hfg : Decorates f g) (hgk : FencedSplit g k s t)
    (hs : s < f.params.size) (ht : t < f.params.size) {a b : BlockId} (ha : a < f.params.size)
    (hab : b ∈ g.flowSuccs a ∨
      ∃ m, f.params.size ≤ m ∧ m ∈ g.flowSuccs a ∧ ∀ x, x ∈ g.flowSuccs m ↔ x = b) :
    b ∈ k.flowSuccs a ∨
      ∃ m, f.params.size ≤ m ∧ m ∈ k.flowSuccs a ∧ ∀ x, x ∈ k.flowSuccs m ↔ x = b := by
  have hanew : a ≠ g.params.size := Nat.ne_of_lt (Nat.lt_of_lt_of_le ha hfg.params_le)
  rcases hab with hdirect | ⟨m, hm, ham, hmb⟩
  · by_cases hcut : a = s ∧ b = t
    · refine Or.inr ⟨g.params.size, hfg.params_le, ?_, ?_⟩
      · exact (hgk.flowSuccs_old a hanew _).mpr (Or.inr ⟨hcut.1, rfl⟩)
      · intro x
        rw [hgk.flowSuccs_new, hcut.2]
    · exact Or.inl ((hgk.flowSuccs_old a hanew b).mpr (Or.inl ⟨hdirect, hcut⟩))
  · -- the way through a new block is not split again
    have hms : m ≠ s := fun heq => Nat.not_lt.mpr hm (heq ▸ hs)
    have hmt : m ≠ t := fun heq => Nat.not_lt.mpr hm (heq ▸ ht)
    have hmnew : m ≠ g.params.size := Nat.ne_of_lt (hfg.wellFormed.flowSucc_lt ham)
    refine Or.inr ⟨m, hm, ?_, ?_⟩
    · exact (hgk.flowSuccs_old a hanew m).mpr (Or.inl ⟨ham, fun h => hmt h.2⟩)
    · intro x
      rw [hgk.flowSuccs_old m hmnew x, ← hmb x]
      simp [hms]

theorem Tracks.fenceOnEdge (h : f.WellFormed) (htracks : Tracks f p) (hedge : t ∈ f.flowSuccs s) :
    Tracks f (p.fenceOnEdge s t) ∧ Decorates p.function (p.fenceOnEdge s t).function := by
  have hwf := htracks.decorates.wellFormed
  have hs : s < f.params.size := h.blocks_lt s (mem_blocks_of_mem_flowSuccs hedge)
  have ht : t < f.params.size := h.flowSucc_lt hedge
  have hparams := htracks.decorates.params_le
  rcases fenceOnEdge_cases hwf s t with
    ⟨hfunction, hsplit, hmitigation, -⟩ | ⟨hmem, hstep, hsplit, hmitigation⟩
  · rw [hfunction]
    refine ⟨⟨?_, ?_, ?_, ?_, ?_⟩, Decorates.refl hwf⟩
    all_goals simp only [hfunction, hsplit, hmitigation]
    · exact htracks.decorates
    · exact htracks.mitigation
    · exact htracks.split
    · exact htracks.rerouted
    · exact htracks.alreadySplit
  · refine ⟨?_, hstep.decorates⟩
    constructor
    case decorates => exact htracks.decorates.trans hstep.decorates
    case mitigation => exact hmitigation.trans htracks.mitigation
    case split =>
      intro e he
      rw [hsplit] at he
      have hold : e.source < f.params.size ∧ e.target < f.params.size ∧
          ¬ (e.target ∈ p.function.flowSuccs e.source ∧ ¬ (e.source = s ∧ e.target = t)) := by
        rcases List.mem_append.mp he with he | he
        · obtain ⟨hsource, htarget, hnot⟩ := htracks.split e he
          exact ⟨hsource, htarget, fun h => hnot h.1⟩
        · obtain rfl := List.mem_singleton.mp he
          exact ⟨hs, ht, fun h => h.2 ⟨rfl, rfl⟩⟩
      obtain ⟨hsource, htarget, hnot⟩ := hold
      refine ⟨hsource, htarget, ?_⟩
      rw [hstep.flowSuccs_old _ (Nat.ne_of_lt (Nat.lt_of_lt_of_le hsource hparams))]
      rintro (hkept | ⟨-, heq⟩)
      · exact hnot hkept
      · exact Nat.ne_of_lt (Nat.lt_of_lt_of_le htarget hparams) heq
    case rerouted =>
      intro a b hab
      have ha := h.blocks_lt a (mem_blocks_of_mem_flowSuccs hab)
      exact rerouted_of_fencedSplit htracks.decorates hstep hs ht ha (htracks.rerouted a b hab)
    case alreadySplit =>
      intro a b hab hshape
      obtain ⟨hold, hshape'⟩ := hstep.alreadySplit hwf hmem hab hshape
      exact htracks.alreadySplit a b hold hshape'

theorem follows_fenceOnEdge (htracks : Tracks f p) (hs : s < f.params.size)
    (hlast : p.function.lastInst? s = some src) (hfirst : p.function.firstInst? t = some dst)
    (hfollows : (p.fenceOnEdge s t).function.Follows src dst) :
    p.function.alreadySplit s t = true ∧ t ∈ p.function.flowSuccs s := by
  have hwf := htracks.decorates.wellFormed
  have hsnew := Nat.ne_of_lt (Nat.lt_of_lt_of_le hs htracks.decorates.params_le)
  rcases fenceOnEdge_cases hwf s t with
    ⟨hfunction, -, -, hskip⟩ | ⟨hmem, hstep, -, -⟩
  · rw [hfunction, hwf.follows_iff_flowSuccs hlast hfirst] at hfollows
    refine ⟨?_, hfollows⟩
    rcases hskip hfollows with ⟨e, he, rfl, rfl⟩ | hshape
    · exact absurd hfollows (htracks.split e he).2.2
    · exact hshape
  · have htnew := Nat.ne_of_lt (hwf.flowSucc_lt hmem)
    have hlast' : (p.fenceOnEdge s t).function.lastInst? s = some src := by
      unfold lastInst?
      rw [hstep.blockInsts_old s hsnew]
      exact hlast
    have hfirst' : (p.fenceOnEdge s t).function.firstInst? t = some dst := by
      unfold firstInst?
      rw [hstep.blockInsts_old t htnew]
      exact hfirst
    rw [hstep.decorates.wellFormed.follows_iff_flowSuccs hlast' hfirst',
      hstep.flowSuccs_old s hsnew] at hfollows
    rcases hfollows with ⟨-, hnot⟩ | ⟨-, heq⟩
    · exact absurd ⟨rfl, rfl⟩ hnot
    · exact absurd heq htnew

end Steps

section Edges

theorem head?_ne_of_adjacent {l l' : List InstId} (hl : l'.Nodup) (hsub : l.Sublist l')
    (hadjacent : Adjacent l src dst) : l'.head? ≠ some dst := by
  intro hhead
  obtain ⟨rest, rfl⟩ : ∃ rest, l' = dst :: rest := List.head?_eq_some_iff.mp hhead
  have hpair : [src, dst].Sublist (dst :: rest) := hadjacent.sublist.trans hsub
  have hrest : dst ∈ rest := by
    rcases List.sublist_cons_iff.mp hpair with hin | ⟨r, hr, hin⟩
    · exact hin.subset (by simp)
    · obtain ⟨-, rfl⟩ := List.cons_eq_cons.mp hr
      exact hin.subset (by simp)
  exact (List.nodup_cons.mp hl).1 hrest

/-- The edge between the blocks of two instructions looks as if it had been split, although control
still passes along it. -/
def LooksSplit (f : Function) (src dst : InstId) : Prop :=
  ∃ s t, f.lastInst? s = some src ∧ f.firstInst? t = some dst ∧ t ∈ f.flowSuccs s ∧
    f.alreadySplit s t = true

theorem blocks_of_follows (h : f.WellFormed) (hstep : f.Follows src dst) :
    ∃ s t, s < f.params.size ∧ t < f.params.size ∧ src ∈ f.blockInsts s ∧ dst ∈ f.blockInsts t ∧
      (Adjacent (f.blockInsts t) src dst ∨
        (f.lastInst? s = some src ∧ t ∈ f.flowSuccs s ∧ f.firstInst? t = some dst)) := by
  have hlt : ∀ {b i}, i ∈ f.blockInsts b → b < f.params.size :=
    fun hi => h.blocks_lt _ (mem_blocks_of_mem_blockInsts hi)
  rcases hstep with ⟨b, hadjacent⟩ | ⟨s, t, hlast, ht, hfirst⟩
  · exact ⟨b, b, hlt hadjacent.mem_left, hlt hadjacent.mem_left, hadjacent.mem_left,
      hadjacent.mem_right, Or.inl hadjacent⟩
  · have hs := List.mem_of_mem_getLast? hlast
    have hd := List.mem_of_mem_head? hfirst
    exact ⟨s, t, hlt hs, hlt hd, hs, hd, Or.inr ⟨hlast, ht, hfirst⟩⟩

theorem Tracks.blockOf? (htracks : Tracks f p) (hs : s < f.params.size) (hi : i ∈ f.blockInsts s) :
    p.function.blockOf? i = some s :=
  htracks.decorates.wellFormed.blockOf?_eq_some_iff.mpr ((htracks.decorates.sublist s hs).subset hi)

/-- The only way between two blocks is one along which each leads to and from the other alone, also
when the edge has been rerouted. -/
theorem Tracks.only_succ (htracks : Tracks f p) (hedge : t ∈ f.flowSuccs s)
    (hsuccs : (p.function.flowSuccs s).size = 1) (hpreds : p.function.predBlockCount t = 1)
    {a x : BlockId} (ha : t ∈ p.function.flowSuccs a) (hx : x ∈ p.function.flowSuccs a) : x = t := by
  obtain ⟨c, -, hsole⟩ := htracks.decorates.wellFormed.predBlockCount_eq_one.mp hpreds
  obtain ⟨y, hy⟩ := size_eq_one.mp hsuccs
  have hac := hsole a ha
  rcases htracks.rerouted s t hedge with hdirect | ⟨m, -, -, hmt⟩
  · have hsc := hsole s hdirect
    rw [hac, ← hsc] at hx
    exact ((hy x).mp hx).trans ((hy t).mp hdirect).symm
  · have hmc := hsole m ((hmt t).mpr rfl)
    rw [hac, ← hmc] at hx
    exact (hmt x).mp hx

/-- Stopping one edge keeps what was done before, and the edge is stopped unless it starts or ends
at a fence or looks split. -/
theorem Tracks.cutBetween (h : f.WellFormed) (htracks : Tracks f p) (hstep : f.Follows src dst) :
    Tracks f (p.cutBetween src dst) ∧ Decorates p.function (p.cutBetween src dst).function ∧
      ((p.cutBetween src dst).function.Follows src dst →
        f.isFence src = true ∨ f.isFence dst = true ∨ LooksSplit f src dst) := by
  have hwf := htracks.decorates.wellFormed
  obtain ⟨s, t, hs, ht, hsrc, hdst, hkind⟩ := blocks_of_follows h hstep
  have hsrcLt := h.lt_of_mem_blockInsts hsrc
  have hdstLt := h.lt_of_mem_blockInsts hdst
  have hdstIn := (htracks.decorates.sublist t ht).subset hdst
  have hinsts := htracks.decorates.insts_le
  unfold Placer.cutBetween
  rw [if_neg (by rw [htracks.mitigation]; decide), htracks.blockOf? hs hsrc, htracks.blockOf? ht hdst]
  dsimp only
  rw [htracks.decorates.terminator?_eq h hs]
  split
  · rename_i hcond
    have hfirst : ∀ b, p.function.firstInst? b = some dst → ∀ a, b ∈ p.function.flowSuccs a →
        ∀ x ∈ p.function.flowSuccs a, x = b := by
      intro b hb a ha x hx
      obtain rfl := hwf.block_unique hdstIn (List.mem_of_mem_head? hb)
      rcases hkind with hadjacent | ⟨hlast, hedge, -⟩
      · exact absurd hb
          (head?_ne_of_adjacent (hwf.nodup_blockInsts t) (htracks.decorates.sublist t ht) hadjacent)
      · rw [terminator?_of_mem_flowSuccs hedge, hlast, hb] at hcond
        simp only [BEq.rfl, Bool.and_self, Bool.not_true, Bool.false_or, Bool.and_eq_true,
          beq_iff_eq] at hcond
        exact htracks.only_succ hedge hcond.1 hcond.2 ha hx
    refine ⟨(htracks.fenceBefore hfirst).1, (htracks.fenceBefore hfirst).2, ?_⟩
    intro hfollows
    rw [← htracks.decorates.isFence_eq hsrcLt, ← htracks.decorates.isFence_eq hdstLt]
    have hor := follows_fenceBefore hwf (Nat.lt_of_lt_of_le hsrcLt hinsts)
      (Nat.lt_of_lt_of_le hdstLt hinsts) hfollows
    exact hor.imp_right Or.inl
  · rename_i hcond
    simp only [Bool.or_eq_true, Bool.not_eq_true', Bool.and_eq_false_iff, not_or,
      Bool.not_eq_false, beq_iff_eq] at hcond
    obtain ⟨⟨hterminator, hfirst⟩, -⟩ := hcond
    have hlast : f.lastInst? s = some src := (Option.filter_eq_some_iff.mp hterminator).1
    rcases hkind with hadjacent | ⟨-, hedge, hfirst'⟩
    · have hst := h.block_unique hsrc hadjacent.mem_left
      rw [hst] at hlast
      exact absurd hlast (hadjacent.ne_getLast (h.nodup_blockInsts t))
    · refine ⟨(htracks.fenceOnEdge h hedge).1, (htracks.fenceOnEdge h hedge).2, ?_⟩
      intro hfollows
      have hlast' : p.function.lastInst? s = some src :=
        (htracks.decorates.lastInst?_eq s hs).trans hlast
      obtain ⟨hshape, hmem⟩ := follows_fenceOnEdge htracks hs hlast' hfirst hfollows
      exact Or.inr (Or.inr ⟨s, t, hlast, hfirst', hedge, htracks.alreadySplit s t hmem hshape⟩)

end Edges

section Place

variable {weighting : BlockWeighting} {e : Edge} {cut : List Edge}

/-- An instruction after which another comes on no way without a fence, unless one of the two is a
fence or the edge between them looks split. -/
def Stopped (f g : Function) (src dst : InstId) : Prop :=
  g.Follows src dst → f.isFence src = true ∨ f.isFence dst = true ∨ LooksSplit f src dst

theorem Stopped.mono {g k : Function} (hgk : Decorates g k) (hsrc : src < g.insts.size)
    (hdst : dst < g.insts.size) (hstopped : Stopped f g src dst) : Stopped f k src dst := by
  intro hfollows
  rcases hgk.follows src hsrc dst hfollows with ⟨-, hold⟩ | ⟨hnew, -⟩
  · exact hstopped hold
  · exact absurd hdst (Nat.not_lt.mpr hnew)

/-- The instructions that a control edge of the dependence graph joins. -/
def Joins (f : Function) (weighting : BlockWeighting) (e : Edge) (src dst : InstId) : Prop :=
  (DependenceGraph.ofFunction f weighting).inst? e.src = some src ∧
    (DependenceGraph.ofFunction f weighting).inst? e.dst = some dst ∧ f.Follows src dst

theorem Tracks.cutEdge (h : f.WellFormed) (htracks : Tracks f p) (hjoins : Joins f weighting e src dst) :
    Tracks f (cutEdge (DependenceGraph.ofFunction f weighting) p e) ∧
      Decorates p.function (cutEdge (DependenceGraph.ofFunction f weighting) p e).function ∧
      Stopped f (cutEdge (DependenceGraph.ofFunction f weighting) p e).function src dst := by
  obtain ⟨hsrc, hdst, hstep⟩ := hjoins
  unfold Placer.cutEdge
  rw [hsrc, hdst]
  exact htracks.cutBetween h hstep

/-- All edges of a cut are stopped by taking one after the other: what has been stopped stays so. -/
theorem Tracks.place (h : f.WellFormed) (htracks : Tracks f p)
    (hcut : ∀ e ∈ cut, ∃ src dst, Joins f weighting e src dst) :
    Tracks f (p.place (DependenceGraph.ofFunction f weighting) cut) ∧
      Decorates p.function (p.place (DependenceGraph.ofFunction f weighting) cut).function ∧
      ∀ e ∈ cut, ∀ src dst, Joins f weighting e src dst →
        Stopped f (p.place (DependenceGraph.ofFunction f weighting) cut).function src dst := by
  induction cut generalizing p with
  | nil =>
    refine ⟨htracks, Decorates.refl htracks.decorates.wellFormed, ?_⟩
    intro e he
    exact absurd he List.not_mem_nil
  | cons e rest ih =>
    obtain ⟨src, dst, hjoins⟩ := hcut e List.mem_cons_self
    obtain ⟨hnext, hdecorates, hstopped⟩ := htracks.cutEdge h hjoins
    obtain ⟨hlast, hrest, hall⟩ := ih hnext (fun e' he' => hcut e' (List.mem_cons_of_mem e he'))
    refine ⟨hlast, hdecorates.trans hrest, ?_⟩
    intro e' he' src' dst' hjoins'
    rcases List.mem_cons.mp he' with rfl | he'
    · obtain ⟨hsrc, hdst, hstep⟩ := hjoins
      obtain rfl := Option.some_inj.mp (hsrc.symm.trans hjoins'.1)
      obtain rfl := Option.some_inj.mp (hdst.symm.trans hjoins'.2.1)
      have hle := hnext.decorates.insts_le
      refine hstopped.mono hrest (Nat.lt_of_lt_of_le ?_ hle)
        (Nat.lt_of_lt_of_le (h.lt_of_follows hstep) hle)
      obtain ⟨s, -, -, -, hmem, -⟩ := blocks_of_follows h hstep
      exact h.lt_of_mem_blockInsts hmem
    · exact hall e' he' src' dst' hjoins'

/-- A way from one instruction to another on which no other instruction of a function is executed,
after instructions have been put into it. -/
structure Way (f g : Function) (src dst : InstId) (between : List InstId) : Prop where
  chain : (src :: (between ++ [dst])).IsChain g.Follows
  between_new : ∀ i ∈ between, i ∉ f.layoutInsts

theorem Way.exists_fence {g : Function} {between : List InstId} (h : f.WellFormed)
    (hdecorates : Decorates f g) (hsrc : src < f.insts.size) (hdst : dst < f.insts.size)
    (hstopped : Stopped f g src dst) (hlooks : ¬ LooksSplit f src dst)
    (hway : Way f g src dst between) : ∃ i ∈ src :: (between ++ [dst]), g.isFence i = true := by
  cases between with
  | nil =>
    have hstep : g.Follows src dst := (List.isChain_cons_cons.mp hway.chain).1
    rcases hstopped hstep with hfence | hfence | hshape
    · rw [← hdecorates.isFence_eq hsrc] at hfence
      exact ⟨src, List.mem_cons_self, hfence⟩
    · rw [← hdecorates.isFence_eq hdst] at hfence
      exact ⟨dst, by simp, hfence⟩
    · exact absurd hshape hlooks
  | cons i between =>
    have hstep : g.Follows src i := (List.isChain_cons_cons.mp hway.chain).1
    rcases hdecorates.follows src hsrc i hstep with ⟨-, hold⟩ | ⟨-, hfence⟩
    · exact absurd (h.mem_layoutInsts_of_follows hold)
        (hway.between_new i List.mem_cons_self)
    · exact ⟨i, by simp, hfence⟩

/-- After a cut has been placed, every way between the ends of one of its edges has a fence on it,
unless the edge looks split already. -/
theorem place_fences_every_way (f : Function) (h : f.WellFormed) (weighting : BlockWeighting)
    (cut : List Edge)
    (hcut : ∀ e ∈ cut, 0 < (DependenceGraph.ofFunction f weighting).control.weight e.src e.dst) :
    ∀ e ∈ cut, ∃ src dst, (DependenceGraph.ofFunction f weighting).inst? e.src = some src ∧
      (DependenceGraph.ofFunction f weighting).inst? e.dst = some dst ∧
      (¬ LooksSplit f src dst → ∀ between,
        Way f ((start f .fencePerEdge).place (DependenceGraph.ofFunction f weighting) cut).function
          src dst between →
        ∃ i ∈ src :: (between ++ [dst]),
          ((start f .fencePerEdge).place (DependenceGraph.ofFunction f weighting)
            cut).function.isFence i = true) := by
  have hjoins : ∀ e ∈ cut, ∃ src dst, Joins f weighting e src dst :=
    fun e he => (DependenceGraph.control_joins_iff h).mp (hcut e he)
  obtain ⟨htracks, -, hstopped⟩ := (tracks_start h).place h hjoins
  intro e he
  obtain ⟨src, dst, hsrc, hdst, hstep⟩ := hjoins e he
  refine ⟨src, dst, hsrc, hdst, ?_⟩
  intro hlooks between hway
  obtain ⟨s, -, -, -, hmem, -⟩ := blocks_of_follows h hstep
  exact hway.exists_fence h htracks.decorates (h.lt_of_mem_blockInsts hmem) (h.lt_of_follows hstep)
    (hstopped e he src dst ⟨hsrc, hdst, hstep⟩) hlooks

def branchPast : Function := .build ⟨.numbered 0 0, [], [],
  [⟨[⟨.i32, 1⟩], [⟨.brif, [0], .targets [⟨2, []⟩, ⟨1, []⟩], none, []⟩]⟩,
    ⟨[], [⟨.jump, [], .targets [⟨2, []⟩], none, []⟩]⟩,
    ⟨[], [⟨.ret, [], .none, none, []⟩]⟩], none⟩

/-- The edge from the branch to the join is stopped. -/
theorem place_branchPast :
    0 < (DependenceGraph.ofFunction branchPast (.uniform 1)).control.weight 1 3 ∧
      ∀ between, Way branchPast ((start branchPast .fencePerEdge).place
          (DependenceGraph.ofFunction branchPast (.uniform 1)) [⟨1, 3⟩]).function 0 2 between →
        ∃ i ∈ 0 :: (between ++ [2]), ((start branchPast .fencePerEdge).place
          (DependenceGraph.ofFunction branchPast (.uniform 1)) [⟨1, 3⟩]).function.isFence i = true := by
  have hwf : branchPast.WellFormed := build_wellFormed (by decide)
  have hweight : 0 < (DependenceGraph.ofFunction branchPast (.uniform 1)).control.weight 1 3 := by
    decide +kernel
  have hlooks : ¬ LooksSplit branchPast 0 2 := by
    rintro ⟨s, t, hlast, hfirst, -, hshape⟩
    have hs : (0 : InstId) ∈ branchPast.blockInsts 0 := by decide +kernel
    have ht : (2 : InstId) ∈ branchPast.blockInsts 2 := by decide +kernel
    obtain rfl := hwf.block_unique hs (List.mem_of_mem_getLast? hlast)
    obtain rfl := hwf.block_unique ht (List.mem_of_mem_head? hfirst)
    exact absurd hshape (by decide +kernel)
  have hall := place_fences_every_way branchPast hwf (.uniform 1) [⟨1, 3⟩] (by
    intro e he
    obtain rfl := List.mem_singleton.mp he
    exact hweight)
  obtain ⟨src, dst, hsrc, hdst, hways⟩ := hall ⟨1, 3⟩ List.mem_cons_self
  have hsrc0 : (DependenceGraph.ofFunction branchPast (.uniform 1)).inst? 1 = some 0 := by
    decide +kernel
  have hdst2 : (DependenceGraph.ofFunction branchPast (.uniform 1)).inst? 3 = some 2 := by
    decide +kernel
  obtain rfl := Option.some_inj.mp (hsrc0.symm.trans hsrc)
  obtain rfl := Option.some_inj.mp (hdst2.symm.trans hdst)
  exact ⟨hweight, hways hlooks⟩

/-- An edge that looks split is left alone, although nothing has been put into the function yet. -/
theorem cutBetween_looksSplit (h : f.WellFormed) (hlooks : LooksSplit f src dst) :
    (start f .fencePerEdge).cutBetween src dst = start f .fencePerEdge := by
  obtain ⟨s, t, hlast, hfirst, hedge, hshape⟩ := hlooks
  have hsrc : (start f .fencePerEdge).function.blockOf? src = some s :=
    h.blockOf?_eq_some_iff.mpr (List.mem_of_mem_getLast? hlast)
  have hdst : (start f .fencePerEdge).function.blockOf? dst = some t :=
    h.blockOf?_eq_some_iff.mpr (List.mem_of_mem_head? hfirst)
  -- the block that makes it look so is one more way out of the first block
  have hways : (f.flowSuccs s).size ≠ 1 := by
    intro hone
    obtain ⟨y, hy⟩ := size_eq_one.mp hone
    obtain ⟨m, hm, hmid⟩ := List.any_eq_true.mp hshape
    simp only [Bool.and_eq_true, bne_iff_ne] at hmid
    exact hmid.1.1.1 (((hy m).mp hm).trans ((hy t).mp hedge).symm)
  unfold Placer.cutBetween
  rw [if_neg (show (start f .fencePerEdge).mitigation ≠ .fencePerBlock by rintro ⟨⟩), hsrc, hdst]
  dsimp only
  rw [if_neg, fenceOnEdge, if_pos]
  · exact Bool.or_eq_true_iff.mpr (Or.inr hshape)
  · simp [start, terminator?_of_mem_flowSuccs hedge, hlast, hfirst, hways]

/-- A branch to a load, past a block that starts with a fence of its own and jumps to the load. -/
def fencedDetour : Function := .build ⟨.numbered 0 0, [], [],
  [⟨[⟨.i64, 1⟩], [⟨.brif, [0], .targets [⟨2, []⟩, ⟨1, []⟩], none, []⟩]⟩,
    ⟨[], [fenceSpec, ⟨.jump, [], .targets [⟨2, []⟩], none, []⟩]⟩,
    ⟨[], [⟨.load, [0], .offset 0, some ⟨.i64, 1⟩, [⟨.i64, 1⟩]⟩, ⟨.ret, [], .none, none, []⟩]⟩],
  none⟩

theorem place_fencedDetour :
    fencedDetour.WellFormed ∧
      0 < (DependenceGraph.ofFunction fencedDetour (.uniform 1)).control.weight 1 4 ∧
      (DependenceGraph.ofFunction fencedDetour (.uniform 1)).inst? 1 = some 0 ∧
      (DependenceGraph.ofFunction fencedDetour (.uniform 1)).inst? 4 = some 3 ∧
      LooksSplit fencedDetour 0 3 ∧
      ∃ between, Way fencedDetour ((start fencedDetour .fencePerEdge).place
          (DependenceGraph.ofFunction fencedDetour (.uniform 1)) [⟨1, 4⟩]).function 0 3 between ∧
        ∀ i ∈ 0 :: (between ++ [3]), ((start fencedDetour .fencePerEdge).place
          (DependenceGraph.ofFunction fencedDetour (.uniform 1)) [⟨1, 4⟩]).function.isFence i =
            false := by
  have hwf : fencedDetour.WellFormed := build_wellFormed (by decide)
  have hsrc : (DependenceGraph.ofFunction fencedDetour (.uniform 1)).inst? 1 = some 0 := by
    decide +kernel
  have hdst : (DependenceGraph.ofFunction fencedDetour (.uniform 1)).inst? 4 = some 3 := by
    decide +kernel
  have hlooks : LooksSplit fencedDetour 0 3 :=
    ⟨0, 2, by decide +kernel, by decide +kernel, by decide +kernel, by decide +kernel⟩
  have hplace : ((start fencedDetour .fencePerEdge).place
      (DependenceGraph.ofFunction fencedDetour (.uniform 1)) [⟨1, 4⟩]).function = fencedDetour := by
    rw [Placer.place, List.foldl_cons, List.foldl_nil, Placer.cutEdge, hsrc, hdst]
    exact congrArg Placer.function (cutBetween_looksSplit hwf hlooks)
  refine ⟨hwf, by decide +kernel, hsrc, hdst, hlooks, [], ?_, ?_⟩
  · obtain ⟨s, t, hlast, hfirst, hedge, -⟩ := hlooks
    rw [hplace]
    exact ⟨List.isChain_cons_cons.mpr ⟨Or.inr ⟨s, t, hlast, hedge, hfirst⟩, .singleton _⟩,
      fun i hi => absurd hi List.not_mem_nil⟩
  · rw [hplace]
    decide +kernel

/-- A fence with a load after it. -/
def fenceThenLoad : Function := .build ⟨.numbered 0 0, [], [],
  [⟨[⟨.i64, 1⟩], [fenceSpec, ⟨.load, [0], .offset 0, some ⟨.i64, 1⟩, [⟨.i64, 1⟩]⟩,
    ⟨.ret, [], .none, none, []⟩]⟩], none⟩

/-- Where a cut edge starts at a fence, that fence is all there is between its ends. -/
theorem place_fenceThenLoad :
    fenceThenLoad.WellFormed ∧
      0 < (DependenceGraph.ofFunction fenceThenLoad (.uniform 1)).control.weight 1 2 ∧
      (DependenceGraph.ofFunction fenceThenLoad (.uniform 1)).inst? 1 = some 0 ∧
      (DependenceGraph.ofFunction fenceThenLoad (.uniform 1)).inst? 2 = some 1 ∧
      ¬ ∀ between, Way fenceThenLoad ((start fenceThenLoad .fencePerEdge).place
          (DependenceGraph.ofFunction fenceThenLoad (.uniform 1)) [⟨1, 2⟩]).function 0 1 between →
        ∃ i ∈ between ++ [1], ((start fenceThenLoad .fencePerEdge).place
          (DependenceGraph.ofFunction fenceThenLoad (.uniform 1)) [⟨1, 2⟩]).function.isFence i =
            true := by
  refine ⟨build_wellFormed (by decide), by decide +kernel, by decide +kernel, by decide +kernel, ?_⟩
  intro hall
  have hinsts : ((start fenceThenLoad .fencePerEdge).place
      (DependenceGraph.ofFunction fenceThenLoad (.uniform 1)) [⟨1, 2⟩]).function.blockInsts 0 =
        [0, 1, 2] := by
    decide +kernel
  have hstep : ((start fenceThenLoad .fencePerEdge).place
      (DependenceGraph.ofFunction fenceThenLoad (.uniform 1)) [⟨1, 2⟩]).function.Follows 0 1 := by
    refine Or.inl ⟨0, ?_⟩
    rw [hinsts]
    exact adjacent_cons.mpr (Or.inl ⟨rfl, rfl⟩)
  obtain ⟨i, hi, hfence⟩ := hall [] ⟨List.isChain_cons_cons.mpr ⟨hstep, .singleton _⟩,
    fun i hi => absurd hi List.not_mem_nil⟩
  obtain rfl := List.mem_singleton.mp hi
  exact absurd hfence (by decide +kernel)

end Place

end Placer

end SpecFence
