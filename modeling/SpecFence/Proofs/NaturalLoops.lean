import SpecFence.Ir.Loop
import SpecFence.Proofs.Dominance
import SpecFence.Proofs.Postorder

/-!
# Natural loops

The natural loop of a header has the header and all blocks from which a path leads to one of its
latches around it.  Where natural loops nest, the loops that are gathered are the natural loops, and
only there; so the loop depth of a block is the number of natural loops that it is in.
Natural loops nest unless blocks that are never reached lead into them.
-/

set_option autoImplicit false

namespace SpecFence

open Relation

namespace Function

/-- A reached block from which a header is entered although it is on every path to the block. -/
structure Latch (f : Function) (header b : BlockId) : Prop where
  reached : f.Reached b
  enters : header ∈ f.flowSuccs b
  dominated : f.OnEveryPath header b

def naturalLoop (f : Function) (header : BlockId) : Set BlockId :=
  {b | ∃ latch, f.Latch header latch ∧ (b = header ∨ ∃ path, f.Path b latch path ∧ header ∉ path)}

/-- Two natural loops are disjoint, or one has all blocks of the other. -/
def LoopsNest (f : Function) : Prop := ∀ a b, f.naturalLoop a ⊆ f.naturalLoop b ∨
  f.naturalLoop b ⊆ f.naturalLoop a ∨ ∀ x ∈ f.naturalLoop a, x ∉ f.naturalLoop b

variable {f : Function} {a b c d t header : BlockId} {path : List BlockId} {l : FlowLoop}
  {found : List FlowLoop} {through : BlockId → Prop}

section NaturalLoop

theorem Latch.header_reached (h : f.Latch header t) : f.Reached header := by
  obtain ⟨path, hpath⟩ := h.reached.2
  exact h.reached.of_mem hpath (h.dominated path hpath)

theorem Latch.header_mem (h : f.Latch header t) : header ∈ f.naturalLoop header :=
  ⟨t, h, Or.inl rfl⟩

theorem Latch.mem (h : f.Latch header t) : t ∈ f.naturalLoop header := by
  refine ⟨t, h, ?_⟩
  by_cases ht : t = header
  · exact Or.inl ht
  · exact Or.inr ⟨[t], .single t, by simpa using Ne.symm ht⟩

theorem mem_naturalLoop_of_entering (hb : b ∈ f.naturalLoop header) (hne : b ≠ header)
    (hstep : b ∈ f.flowSuccs a) : a ∈ f.naturalLoop header := by
  obtain ⟨t, ht, rfl | ⟨path, hpath, hout⟩⟩ := hb
  · exact absurd rfl hne
  · refine ⟨t, ht, ?_⟩
    by_cases ha : a = header
    · exact Or.inl ha
    · exact Or.inr ⟨a :: path, .cons hstep hpath, by simp [hout, Ne.symm ha]⟩

theorem onEveryPath_of_mem_naturalLoop (hb : b ∈ f.naturalLoop header) :
    f.OnEveryPath header b := by
  obtain ⟨t, ht, rfl | ⟨rest, hrest, hout⟩⟩ := hb
  · exact onEveryPath_self
  · rintro path ⟨e, he, hpath⟩
    obtain ⟨way, hway, hall⟩ := hpath.trans hrest
    exact (hall header (ht.dominated way ⟨e, he, hway⟩)).resolve_right hout

theorem naturalLoop_subset (h : a ∈ f.naturalLoop b) : f.naturalLoop a ⊆ f.naturalLoop b := by
  have hdominated : f.OnEveryPath b a := onEveryPath_of_mem_naturalLoop h
  obtain ⟨s, hs, rfl | ⟨path, hpath, hb⟩⟩ := h
  · exact subset_rfl
  rintro x ⟨t, ht, rfl | ⟨rest, hrest, ha⟩⟩
  · exact ⟨s, hs, Or.inr ⟨path, hpath, hb⟩⟩
  -- the way to the latch of the inner loop stays clear of the outer header, which is not inside
  have hclear : b ∉ rest := by
    intro hmem
    obtain ⟨way, hway, hall⟩ := hrest.exists_suffix hmem
    have hinner : b ∈ f.naturalLoop a := ⟨t, ht, Or.inr ⟨way, hway, fun h => ha (hall a h)⟩⟩
    obtain ⟨path', hpath'⟩ := hs.header_reached.2
    obtain rfl := (onEveryPath_of_mem_naturalLoop hinner).antisymm hdominated hpath'
    exact hb hpath.source_mem
  obtain ⟨way, hway, hall⟩ := (hrest.snoc ht.enters).trans hpath
  refine ⟨s, hs, Or.inr ⟨way, hway, fun hmem => ?_⟩⟩
  rcases hall b hmem with hfirst | hsecond
  · rcases List.mem_append.mp hfirst with hmem | hmem
    · exact hclear hmem
    · obtain rfl := List.mem_singleton.mp hmem
      exact hb hpath.source_mem
  · exact hb hsecond

theorem reached_of_mem_naturalLoop (hpreds : ∀ a b, b ∈ f.flowSuccs a → f.Reached b → f.Reached a)
    (hb : b ∈ f.naturalLoop header) : f.Reached b := by
  obtain ⟨t, ht, rfl | ⟨path, hpath, -⟩⟩ := hb
  · exact ht.header_reached
  · have ht' := ht.reached
    clear ht
    induction hpath with
    | single b => exact ht'
    | cons hstep _ ih => exact hpreds _ _ hstep (ih ht')

/-- Natural loops nest when all that enters a reached block is reached: of the headers of two loops
with a common block, the one that a path passes last on its way to the block is in the other
loop. -/
theorem loopsNest_of_reached (hpreds : ∀ a b, b ∈ f.flowSuccs a → f.Reached b → f.Reached a) :
    f.LoopsNest := by
  have hlast : ∀ {a b x way}, x ∈ f.naturalLoop b → f.Path a x way → b ∉ way →
      a ∈ f.naturalLoop b := by
    rintro a b x way ⟨t, ht, rfl | ⟨rest, hrest, hb⟩⟩ hway hout
    · exact absurd hway.target_mem hout
    · obtain ⟨path, hpath, hall⟩ := hway.trans hrest
      exact ⟨t, ht, Or.inr ⟨path, hpath, fun hmem => (hall b hmem).elim hout hb⟩⟩
  intro a b
  rw [or_iff_not_imp_left, or_iff_not_imp_left]
  intro hab hba x ha hb
  have hne : a ≠ b := by
    rintro rfl
    exact hab subset_rfl
  obtain ⟨path, hpath⟩ := (reached_of_mem_naturalLoop hpreds ha).2
  have hmema := onEveryPath_of_mem_naturalLoop ha path hpath
  have hmemb := onEveryPath_of_mem_naturalLoop hb path hpath
  obtain ⟨e, -, hpath⟩ := hpath
  rcases hpath.last_of_two hne hmema hmemb with ⟨way, hway, hout⟩ | ⟨way, hway, hout⟩
  · exact hab (naturalLoop_subset (hlast hb hway hout))
  · exact hba (naturalLoop_subset (hlast ha hway hout))

end NaturalLoop

section Headers

variable (h : f.WellFormed)
include h

theorem mem_latches : t ∈ f.latches header ↔ f.Latch header t := by
  have hmem : t ∈ f.latches header ↔ (header ∈ f.flowSuccs t ∧ f.reachable.has t = true) ∧
      f.OnEveryPath header t := by
    simp only [latches, predBlocks, List.mem_filter, h.mem_flowPreds, Bool.and_eq_true,
      Bool.or_eq_true, beq_iff_eq, Bool.not_eq_true', ← onEveryPath_iff h, and_assoc]
    refine and_congr_right fun _ => and_congr_right fun _ => or_iff_right_of_imp ?_
    rintro rfl
    exact onEveryPath_self
  rw [hmem]
  constructor
  · rintro ⟨⟨henters, hreachable⟩, hevery⟩
    exact ⟨(reached_iff h).mpr ⟨mem_blocks_of_mem_flowSuccs henters, hreachable⟩, henters, hevery⟩
  · rintro ⟨hreached, henters, hevery⟩
    exact ⟨⟨henters, ((reached_iff h).mp hreached).2⟩, hevery⟩

omit h in
theorem exists_pathTo_of_led (hled : Search.LedThrough
    (fun b => (f.flowTargets b).map BlockCall.block) f.entry?.toList through b) :
    ∃ path, f.PathTo b path ∧ ∀ x ∈ path, x = b ∨ through x := by
  obtain ⟨e, he, hsteps⟩ := hled
  have hsteps' : ReflTransGen (fun s t => t ∈ f.flowSuccs s ∧ through s) e b := by
    simpa [flowSuccs, AscSet.mem_ofList] using hsteps
  obtain ⟨path, hpath, hall⟩ := exists_path_of_steps hsteps'
  exact ⟨path, ⟨e, Option.mem_toList.mp he, hpath⟩, hall⟩

omit h in
theorem led_of_pathTo (hpath : f.PathTo b path) : Search.LedThrough
    (fun b => (f.flowTargets b).map BlockCall.block) f.entry?.toList (fun _ => True) b := by
  obtain ⟨e, he, hpath⟩ := hpath
  have hsteps := hpath.reflTransGen (P := fun _ => True) fun _ _ => trivial
  exact ⟨e, Option.mem_toList.mpr he, by simpa [flowSuccs, AscSet.mem_ofList] using hsteps⟩

/-- The headers are the blocks that have latches.  None comes after a header that it is on every
path to. -/
theorem headers_spec : f.headers.Nodup ∧
    (∀ header, header ∈ f.headers ↔ ∃ t, f.Latch header t) ∧
    f.headers.Pairwise fun a b => ¬ f.OnEveryPath a b := by
  have hstarts : ∀ e ∈ f.entry?.toList, e < f.params.size :=
    fun e he => h.blocks_lt e (List.mem_of_mem_head? (Option.mem_toList.mp he))
  have hnext : ∀ b, ∀ a ∈ (f.flowTargets b).map BlockCall.block, a < f.params.size :=
    fun b a ha => h.flowSucc_lt (AscSet.mem_ofList.mpr ha)
  obtain ⟨hnodup, hmem, hled⟩ := Search.postorder_spec hstarts hnext
  refine ⟨hnodup.filter _, fun header => ?_, List.Pairwise.filter _ ?_⟩
  · have hlatches : (!(f.latches header).isEmpty) = true ↔ ∃ t, f.Latch header t := by
      simp only [Bool.not_eq_true', List.isEmpty_eq_false_iff_exists_mem, mem_latches h]
    unfold headers
    rw [List.mem_filter, hlatches, and_iff_right_iff_imp]
    rintro ⟨t, ht⟩
    obtain ⟨path, hpath⟩ := ht.header_reached.2
    exact (hmem header).mpr (led_of_pathTo hpath)
  · rw [List.pairwise_iff_forall_sublist]
    intro a b hsub hevery
    obtain ⟨earlier, rest, hlist, ha, hb⟩ := List.cons_sublist_iff.mp hsub
    obtain ⟨between, later, rfl⟩ := List.append_of_mem (List.singleton_sublist.mp hb)
    rw [← List.append_assoc] at hlist
    obtain ⟨path, hpath, hall⟩ := exists_pathTo_of_led (hled _ _ _ hlist)
    rw [hlist] at hnodup
    have hdisjoint := (List.nodup_append.mp hnodup).2.2 a (List.mem_append_left _ ha)
    rcases hall a (hevery path hpath) with rfl | hlater
    · exact hdisjoint a List.mem_cons_self rfl
    · exact hdisjoint a (List.mem_cons_of_mem _ hlater) rfl

end Headers

section Gathering

/-- What is kept when the loop of a header is gathered, given those of the headers before it, holds
of all loops. -/
theorem loops_induction {P : List FlowLoop → Prop} (hnil : P [])
    (hstep : ∀ earlier header later found, f.headers = earlier ++ header :: later →
      found.map FlowLoop.header = earlier.reverse → P found → P (f.loopOf found header :: found)) :
    f.loops.map FlowLoop.header = f.headers.reverse ∧ P f.loops := by
  have hrun : ∀ later earlier found, f.headers = earlier ++ later →
      found.map FlowLoop.header = earlier.reverse ∧ P found →
      (later.foldl (fun found h => f.loopOf found h :: found) found).map FlowLoop.header =
          f.headers.reverse ∧
        P (later.foldl (fun found h => f.loopOf found h :: found) found) := by
    intro later
    induction later with
    | nil =>
      intro earlier found hlist hfound
      rwa [hlist, List.append_nil]
    | cons header later ih =>
      intro earlier found hlist hfound
      refine ih (earlier ++ [header]) _ (by simp [hlist]) ⟨?_, ?_⟩
      · simp [loopOf, hfound.1]
      · exact hstep earlier header later found hlist hfound.1 hfound.2
  exact hrun f.headers [] [] rfl ⟨rfl, hnil⟩

/-- A loop has its header and latches, and all that enters a block of it apart from the header. -/
structure Encloses (f : Function) (l : FlowLoop) : Prop where
  header : l.body.has l.header = true
  latch : ∀ t, f.Latch l.header t → l.body.has t = true
  entering : ∀ a b, b ∈ f.flowSuccs a → l.body.has b = true → b ≠ l.header → l.body.has a = true

theorem Encloses.has (hl : f.Encloses l) (hb : b ∈ f.naturalLoop l.header) :
    l.body.has b = true := by
  obtain ⟨t, ht, rfl | ⟨path, hpath, hout⟩⟩ := hb
  · exact hl.header
  · have hlatch := hl.latch t ht
    clear ht
    induction hpath with
    | single b => exact hlatch
    | cons hstep hpath ih =>
      rw [List.mem_cons, not_or] at hout
      refine hl.entering _ _ hstep (ih hout.2 hlatch) ?_
      rintro rfl
      exact hout.2 hpath.source_mem

variable (h : f.WellFormed)
include h

theorem mem_joining (hb : b ≠ header) : a ∈ f.joining found header b ↔
    (∃ inner, found.find? (·.body.has b) = some inner ∧
      (inner.body.has a = true ∨ inner.header ∈ f.flowSuccs a)) ∨
    found.find? (·.body.has b) = none ∧ b ∈ f.flowSuccs a := by
  unfold joining
  rw [if_neg hb]
  cases found.find? (·.body.has b) <;>
    simp [predBlocks, Marks.mem_members, ← h.mem_flowPreds]

theorem has_loopOf : (f.loopOf found header).body.has b = true ↔
    ∃ s, (s = header ∨ f.Latch header s) ∧ s < f.params.size ∧
      ReflTransGen (Search.Step (f.joining found header) f.params.size) s b := by
  unfold loopOf
  rw [Search.has_spread_iff]
  simp only [List.mem_cons, mem_latches h]

theorem encloses_loopOf (hheader : header ∈ f.headers) (hfound : ∀ l ∈ found, f.Encloses l) :
    f.Encloses (f.loopOf found header) := by
  obtain ⟨t, ht⟩ := ((headers_spec h).2.1 header).mp hheader
  constructor
  case header =>
    rw [has_loopOf h]
    exact ⟨header, Or.inl rfl, h.flowSucc_lt ht.enters, ReflTransGen.refl⟩
  case latch =>
    intro t ht
    rw [has_loopOf h]
    exact ⟨t, Or.inr ht, h.blocks_lt t ht.reached.1, ReflTransGen.refl⟩
  case entering =>
    intro a b hstep hb (hne : b ≠ header)
    rw [has_loopOf h] at hb ⊢
    obtain ⟨s, hs, hlt, hway⟩ := hb
    refine ⟨s, hs, hlt, hway.tail ⟨?_, h.blocks_lt a (mem_blocks_of_mem_flowSuccs hstep)⟩⟩
    rw [mem_joining h hne]
    cases hfind : found.find? (·.body.has b) with
    | none => exact Or.inr ⟨rfl, hstep⟩
    | some inner =>
      have hinner := hfound inner (List.mem_of_find?_eq_some hfind)
      have hmem : inner.body.has b = true := by simpa using List.find?_some hfind
      refine Or.inl ⟨inner, rfl, ?_⟩
      by_cases hb : b = inner.header
      · exact Or.inr (hb ▸ hstep)
      · exact Or.inl (hinner.entering a b hstep hmem hb)

theorem loops_enclose :
    f.loops.map FlowLoop.header = f.headers.reverse ∧ ∀ l ∈ f.loops, f.Encloses l := by
  refine loops_induction (P := fun found => ∀ l ∈ found, f.Encloses l) (by simp) ?_
  intro earlier header later found hlist _ hfound
  rw [List.forall_mem_cons]
  exact ⟨encloses_loopOf h (by simp [hlist]) hfound, hfound⟩

/-- Where natural loops nest, a loop has nothing but its natural loop, if none of the loops before it
has more and none of their headers is on every path to its header. -/
theorem loopOf_subset (hnest : f.LoopsNest)
    (hfound : ∀ l ∈ found, ¬ f.OnEveryPath l.header header ∧
      ∀ x, l.body.has x = true → x ∈ f.naturalLoop l.header)
    (hheader : header ∈ f.headers) (hb : (f.loopOf found header).body.has b = true) :
    b ∈ f.naturalLoop header := by
  obtain ⟨t, ht⟩ := ((headers_spec h).2.1 header).mp hheader
  obtain ⟨s, hs, -, hway⟩ := (has_loopOf h).mp hb
  clear hb
  induction hway with
  | refl =>
    rcases hs with rfl | hs
    · exact ht.header_mem
    · exact hs.mem
  | @tail b a _ hstep ih =>
    by_cases hb : b = header
    · have hnone : f.joining found header b = [] := if_pos hb
      simp [Search.Step, hnone] at hstep
    rcases (mem_joining h hb).mp hstep.1 with ⟨inner, hfind, ha⟩ | ⟨-, ha⟩
    · obtain ⟨hevery, hinner⟩ := hfound inner (List.mem_of_find?_eq_some hfind)
      have hmem := hinner b (by simpa using List.find?_some hfind)
      -- the loops share a block, and the header of the found one does not lie around this header
      have hsub : f.naturalLoop inner.header ⊆ f.naturalLoop header := by
        rcases hnest inner.header header with hsub | hsup | hdisjoint
        · exact hsub
        · exact absurd (onEveryPath_of_mem_naturalLoop (hsup ht.header_mem)) hevery
        · exact absurd ih (hdisjoint b hmem)
      rcases ha with ha | ha
      · exact hsub (hinner a ha)
      · obtain ⟨t', ht', -⟩ := hmem
        refine mem_naturalLoop_of_entering (hsub ht'.header_mem) ?_ ha
        intro heq
        exact hevery (heq ▸ onEveryPath_self)
    · exact mem_naturalLoop_of_entering ih hb ha

theorem loops_exact (hnest : f.LoopsNest) : ∀ l ∈ f.loops, ∀ b,
    l.body.has b = true ↔ b ∈ f.naturalLoop l.header := by
  have hsub : ∀ l ∈ f.loops, ∀ b, l.body.has b = true → b ∈ f.naturalLoop l.header := by
    refine (loops_induction (P := fun found => ∀ l ∈ found, ∀ b, l.body.has b = true →
      b ∈ f.naturalLoop l.header) (by simp) ?_).2
    intro earlier header later found hlist hheaders hfound
    have hheader : header ∈ f.headers := by simp [hlist]
    rw [List.forall_mem_cons]
    refine ⟨fun b hb => loopOf_subset h hnest (fun l hl => ⟨?_, hfound l hl⟩) hheader hb, hfound⟩
    have hpairwise := (headers_spec h).2.2
    rw [hlist, List.pairwise_append] at hpairwise
    have hearlier : l.header ∈ earlier := by
      rw [← List.mem_reverse, ← hheaders]
      exact List.mem_map_of_mem hl
    exact hpairwise.2.2 l.header hearlier header List.mem_cons_self
  intro l hl b
  exact ⟨hsub l hl b, ((loops_enclose h).2 l hl).has⟩

/-- Of two gathered loops with a common block the later one has all of the earlier one, unless some
header is in a loop that was gathered before its own. -/
theorem loops_contain (hclean : f.loops.Pairwise fun m l => ¬ l.body.has m.header = true) :
    f.loops.Pairwise fun m l => ∀ x, m.body.has x = true → l.body.has x = true →
      ∀ y, l.body.has y = true → m.body.has y = true := by
  refine (loops_induction (P := fun found => (∀ l ∈ found, l.body.size = f.params.size) ∧
    (found.Pairwise (fun m l => ¬ l.body.has m.header = true) →
      found.Pairwise fun m l => ∀ x, m.body.has x = true → l.body.has x = true →
        ∀ y, l.body.has y = true → m.body.has y = true)) (by simp) ?_).2.2 hclean
  intro earlier header later found _ _ ⟨hsize, hfound⟩
  constructor
  · rw [List.forall_mem_cons]
    exact ⟨by simp [loopOf, Search.size_spread], hsize⟩
  intro hclean
  rw [List.pairwise_cons] at hclean ⊢
  have hcontain := hfound hclean.2
  refine ⟨fun l hl x hx hlx y hly => ?_, hcontain⟩
  have hne : x ≠ header := by
    rintro rfl
    exact hclean.1 l hl hlx
  have hsome : (found.find? (·.body.has x)).isSome = true := List.find?_isSome.mpr ⟨l, hl, hlx⟩
  obtain ⟨inner, hfind⟩ := Option.isSome_iff_exists.mp hsome
  have hinner : inner.body.has y = true := by
    obtain ⟨hix, before, after, rfl, hbefore⟩ := List.find?_eq_some_iff_append.mp hfind
    rcases List.mem_append.mp hl with hl | hl
    · simpa [hlx] using hbefore l hl
    rcases List.mem_cons.mp hl with rfl | hl
    · exact hly
    · have hafter := (List.pairwise_append.mp hcontain).2.1
      exact (List.pairwise_cons.mp hafter).1 l hl x hix hlx y hly
  obtain ⟨s, hs, hlt, hway⟩ := (has_loopOf h).mp hx
  refine (has_loopOf h).mpr ⟨s, hs, hlt, hway.tail ⟨?_, ?_⟩⟩
  · exact (mem_joining h hne).mpr (Or.inl ⟨inner, hfind, Or.inl hinner⟩)
  · rw [← hsize inner (List.mem_of_find?_eq_some hfind)]
    exact Marks.lt_of_has hinner

theorem loops_clean (hexact : ∀ l ∈ f.loops, ∀ b, f.Reached b → l.body.has b = true →
      b ∈ f.naturalLoop l.header) :
    f.loops.Pairwise fun m l => ¬ l.body.has m.header = true := by
  obtain ⟨-, hmem, horder⟩ := headers_spec h
  have hheaders := (loops_enclose h).1
  have hreached : ∀ l ∈ f.loops, f.Reached l.header := by
    intro l hl
    have hheader : l.header ∈ f.headers := by
      rw [← List.mem_reverse, ← hheaders]
      exact List.mem_map_of_mem hl
    obtain ⟨t, ht⟩ := (hmem l.header).mp hheader
    exact ht.header_reached
  rw [← List.pairwise_reverse, ← hheaders, List.pairwise_map] at horder
  refine horder.imp_of_mem fun {m l} hm hl hevery hhas => hevery ?_
  exact onEveryPath_of_mem_naturalLoop (hexact l hl _ (hreached m hm) hhas)

/-- Where natural loops nest, going outwards from the innermost loop of a block meets every loop that
has the block. -/
theorem loopDepth_eq_countP (hnest : f.LoopsNest) (b : BlockId) :
    f.loopDepth b = f.loops.countP (·.body.has b) := by
  have hclean := loops_clean h fun l hl b _ => (loops_exact h hnest l hl b).mp
  have hcontain := loops_contain h hclean
  have hheader : ∀ l ∈ f.loops.reverse, l.body.has l.header = true := fun l hl =>
    ((loops_enclose h).2 l (List.mem_reverse.mp hl)).header
  rw [← List.pairwise_reverse] at hcontain
  unfold loopDepth
  rw [← List.countP_reverse]
  generalize f.loops.reverse = loops at hcontain hheader
  induction loops generalizing b with
  | nil => rfl
  | cons l later ih =>
    obtain ⟨hl, hcontain⟩ := List.pairwise_cons.mp hcontain
    obtain ⟨hown, hheader⟩ := List.forall_mem_cons.mp hheader
    rw [FlowLoop.around, List.countP_cons]
    split
    · rename_i hb
      -- a later loop has the header of this one exactly if it has the block
      have hsame : later.countP (·.body.has l.header) = later.countP (·.body.has b) := by
        refine List.countP_congr fun m hm => ⟨fun hhas => ?_, fun hhas => ?_⟩
        · exact hl m hm l.header hhas hown b hb
        · exact hl m hm b hhas hb l.header hown
      rw [List.length_cons, ih l.header hcontain hheader, hsame]
    · rw [ih b hcontain hheader, Nat.add_zero]

open Classical in
theorem loopDepth_eq (hnest : f.LoopsNest) :
    f.loopDepth b = {header | b ∈ f.naturalLoop header}.ncard := by
  obtain ⟨hnodup, hmem, -⟩ := headers_spec h
  have hcount : f.loopDepth b = f.headers.countP fun header => b ∈ f.naturalLoop header := by
    rw [loopDepth_eq_countP h hnest, ← List.countP_reverse (l := f.headers), ← (loops_enclose h).1,
      List.countP_map]
    refine List.countP_congr fun l hl => ?_
    simp [loops_exact h hnest l hl b]
  have hset : {header | b ∈ f.naturalLoop header} =
      {header | header ∈ f.headers.filter fun header => b ∈ f.naturalLoop header} := by
    ext header
    simp only [Set.mem_ofPred_eq, List.mem_filter, decide_eq_true_eq, iff_and_self]
    rintro ⟨t, ht, -⟩
    exact (hmem header).mpr ⟨t, ht⟩
  rw [hcount, hset, ncard_of_nodup (hnodup.filter _), List.countP_eq_length_filter]

theorem loopsNest_iff : f.LoopsNest ↔ ∀ l ∈ f.loops, ∀ b, f.Reached b →
    (l.body.has b = true ↔ b ∈ f.naturalLoop l.header) := by
  constructor
  · exact fun hnest l hl b _ => loops_exact h hnest l hl b
  intro hexact
  obtain ⟨-, hmem, -⟩ := headers_spec h
  obtain ⟨hheaders, henclose⟩ := loops_enclose h
  have hloop : ∀ header, (∃ t, f.Latch header t) ↔ ∃ l ∈ f.loops, l.header = header := by
    intro header
    rw [← hmem, ← List.mem_reverse, ← hheaders, List.mem_map]
  have hreached : ∀ l ∈ f.loops, f.Reached l.header := by
    intro l hl
    obtain ⟨t, ht⟩ := (hloop l.header).mpr ⟨l, hl, rfl⟩
    exact ht.header_reached
  have hclean := loops_clean h fun l hl b hb => (hexact l hl b hb).mp
  -- the earlier of two loops with a common block lies in the later one, so its header does
  have hpair : f.loops.Pairwise fun m l => ∀ x ∈ f.naturalLoop m.header,
      x ∈ f.naturalLoop l.header → f.naturalLoop m.header ⊆ f.naturalLoop l.header ∨
        f.naturalLoop l.header ⊆ f.naturalLoop m.header := by
    refine (loops_contain h hclean).imp_of_mem fun {m l} hm hl hcontain x hmx hlx => Or.inr ?_
    apply naturalLoop_subset
    rw [← hexact m hm _ (hreached l hl)]
    exact hcontain x ((henclose m hm).has hmx) ((henclose l hl).has hlx) _ (henclose l hl).header
  have hsymm : Std.Symm fun m l : FlowLoop => ∀ x ∈ f.naturalLoop m.header,
      x ∈ f.naturalLoop l.header → f.naturalLoop m.header ⊆ f.naturalLoop l.header ∨
        f.naturalLoop l.header ⊆ f.naturalLoop m.header :=
    ⟨fun m l hml x hl hm => (hml x hm hl).symm⟩
  intro a b
  rw [← or_assoc, or_iff_not_imp_right]
  push Not
  rintro ⟨x, ⟨s, hs, ha⟩, ⟨t, ht, hb⟩⟩
  obtain ⟨l, hl, rfl⟩ := (hloop a).mp ⟨s, hs⟩
  obtain ⟨m, hm, rfl⟩ := (hloop b).mp ⟨t, ht⟩
  by_cases hlm : l = m
  · exact Or.inl (hlm ▸ subset_rfl)
  · exact hpair.forall hl hm hlm x ⟨s, hs, ha⟩ ⟨t, ht, hb⟩

end Gathering

end Function

end SpecFence
