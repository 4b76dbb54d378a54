import SpecFence.Cut.Strategy
import SpecFence.Proofs.Iterated
import SpecFence.Proofs.Progress

/-!
# The search keeps a valid cut

The search starts from a cut that separates every group and replaces it only by a set of finite
edges for which no walk was found.  So whatever the budget, and whichever way to cut the settings
ask for, the cut that comes out separates every group.
-/

set_option autoImplicit false

namespace SpecFence

namespace CutSearch

variable {p : LabelProblem}

/-- A set of edge numbers of finite weight that leaves no walk through the stages of a group. -/
structure Sound (p : LabelProblem) (cut : EdgeSet) : Prop where
  finite : ∀ i ∈ cut, p.edgeWeight i < Weight.infinite
  separated : ∀ c ∈ p.groups, ¬ c.Satisfiable (p.Passable cut)

theorem foldlM_invariant {α ε σ : Type} {f : σ → α → Except ε σ} {P : σ → Prop} (l : List α)
    (hstep : ∀ s a t, a ∈ l → P s → f s a = .ok t → P t) {s t : σ} (hs : P s)
    (h : l.foldlM f s = .ok t) : P t := by
  induction l generalizing s with
  | nil =>
    cases Except.pure_eq_ok_iff.mp h
    exact hs
  | cons a l ih =>
    rw [List.foldlM_cons] at h
    obtain ⟨x, hx, hrest⟩ := Except.bind_eq_ok_iff.mp h
    exact ih (fun s b t hb => hstep s b t (List.mem_cons_of_mem a hb))
      (hstep s a x List.mem_cons_self hs hx) hrest

theorem mem_branches {walk : List Nat} {i : Nat} :
    i ∈ branches p walk ↔ i ∈ walk ∧ p.edgeWeight i < Weight.infinite := by
  unfold branches
  rw [List.mem_mergeSort, List.mem_eraseDups, List.mem_filter, decide_eq_true_eq]

def visit (p : LabelProblem) (budget : Nat) (cancelled : Bool) (depth : Nat) (cut : EdgeSet)
    (weight : Nat) (s : CutSearch) : Except CutError CutSearch :=
  match depth with
  | 0 => .ok s
  | depth + 1 => do
    checkCancelled cancelled
    if budget ≤ s.visited then return s
    let s := { s with visited := s.visited + 1 }
    if s.bestWeight ≤ weight then return s
    match p.witness? cut with
    | none => return { s with best := cut, bestWeight := weight }
    | some walk =>
      (branches p walk).foldlM (fun s i =>
        visit p budget cancelled depth (cut.insert i) (Weight.add weight (p.edgeWeight i)) s) s

theorem foldlM_beside {α ε σ τ : Type} {f : σ → α → Except ε σ} {g : σ × τ → α → Except ε (σ × τ)}
    {b : τ} (l : List α) (h : ∀ s, ∀ x ∈ l, g (s, b) x = (f s x).map fun t => (t, b)) (s : σ) :
    l.foldlM g (s, b) = (l.foldlM f s).map fun t => (t, b) := by
  induction l generalizing s with
  | nil => rfl
  | cons x l ih =>
    obtain ⟨hx, hl⟩ := List.forall_mem_cons.mp (fun x hx s => h s x hx)
    rw [List.foldlM_cons, List.foldlM_cons, hx s]
    cases f s x with
    | error e => rfl
    | ok t => exact ih (fun s x hx => hl x hx s) t

/-- An edge of a walk that avoids the set is not in it, so taking it out again leaves the set as it
was: a visit gives the set back. -/
theorem visitInPlace_eq (hp : p.WellFormed) (budget : Nat) (cancelled : Bool) (depth : Nat)
    (cut : EdgeSet) (weight : Nat) (s : CutSearch) :
    visitInPlace p budget cancelled depth weight s cut =
      (visit p budget cancelled depth cut weight s).map fun t => (t, cut) := by
  induction depth generalizing cut weight s with
  | zero => rfl
  | succ depth ih =>
    rw [visitInPlace, visit]
    cases checkCancelled cancelled with
    | error e => rfl
    | ok _ =>
      simp only [bind, Except.bind]
      split
      · rfl
      · split
        · rfl
        · cases hwalk : p.witness? cut with
          | none => rfl
          | some walk =>
            refine foldlM_beside _ (fun s i hi => ?_) _
            have hout : i ∉ cut :=
              ((LabelProblem.witness?_some hp hwalk).1 i (mem_branches.mp hi).1).2
            have hback : (cut.insert i).filter (· != i) = cut := by
              ext j
              rw [AscSet.mem_filter, AscSet.mem_insert, bne_iff_ne]
              constructor
              · rintro ⟨hj, hne⟩
                exact hj.resolve_left hne
              · exact fun hj => ⟨.inr hj, fun heq => hout (heq ▸ hj)⟩
            rw [ih]
            cases visit p budget cancelled depth (cut.insert i)
              (Weight.add weight (p.edgeWeight i)) s with
            | error e => rfl
            | ok t => exact congrArg (fun c => Except.ok (t, c)) hback

theorem solve_eq (hp : p.WellFormed) (budget : Nat) (incumbent : EdgeSet) (cancelled : Bool) :
    p.solve budget incumbent cancelled = do
      let s ← visit p (max budget 1) cancelled (p.edges.size + 1) .empty 0
        ⟨0, incumbent, p.weight incumbent⟩
      return ⟨s.best, s.visited < max budget 1⟩ := by
  unfold LabelProblem.solve
  dsimp only
  rw [visitInPlace_eq hp]
  cases visit p (max budget 1) cancelled (p.edges.size + 1) .empty 0
    ⟨0, incumbent, p.weight incumbent⟩ with
  | error e => rfl
  | ok s => rfl

theorem visit_sound (hp : p.WellFormed) {budget : Nat} {cancelled : Bool} {depth : Nat}
    {cut : EdgeSet} {weight : Nat} {s t : CutSearch}
    (hcut : ∀ i ∈ cut, p.edgeWeight i < Weight.infinite) (hs : Sound p s.best)
    (h : visit p budget cancelled depth cut weight s = .ok t) : Sound p t.best := by
  induction depth generalizing cut weight s t with
  | zero =>
    cases h
    exact hs
  | succ depth ih =>
    rw [visit] at h
    obtain ⟨-, -, h⟩ := Except.bind_eq_ok_iff.mp h
    split at h
    · cases Except.pure_eq_ok_iff.mp h
      exact hs
    · simp only at h
      split at h
      · cases Except.pure_eq_ok_iff.mp h
        exact hs
      · split at h
        · rename_i hwitness
          cases Except.pure_eq_ok_iff.mp h
          exact ⟨hcut, LabelProblem.witness?_none hp hwitness⟩
        · rename_i walk _
          refine foldlM_invariant (P := fun s => Sound p s.best) (branches p walk) ?_ ?_ h
          · intro s i t hi hs hvisit
            refine ih ?_ hs hvisit
            intro j hj
            rcases AscSet.mem_insert.mp hj with rfl | hj
            · exact (mem_branches.mp hi).2
            · exact hcut j hj
          · exact hs

theorem solve_sound (hp : p.WellFormed) {budget : Nat} {incumbent : EdgeSet} {cancelled : Bool}
    (hincumbent : Sound p incumbent) {solution : Solution}
    (h : p.solve budget incumbent cancelled = .ok solution) : Sound p solution.cut := by
  rw [solve_eq hp] at h
  obtain ⟨s, hvisit, h⟩ := Except.bind_eq_ok_iff.mp h
  cases Except.pure_eq_ok_iff.mp h
  refine visit_sound hp ?_ hincumbent hvisit
  intro i hi
  exact absurd hi (AscSet.not_mem_empty i)

end CutSearch

section Strategies

variable {graph : Digraph} {groups : List WaypointGroup}

theorem edgeWeight_eq {p : LabelProblem} {i : Nat} {e : Edge} {w : Nat}
    (h : p.edges[i]? = some (e, w)) : p.edgeWeight i = w := by
  unfold LabelProblem.edgeWeight
  rw [h]
  rfl

theorem sound_of_separatesAll (hg : graph.Consistent)
    (hgroups : ∀ g ∈ groups, g.WellPosed graph.size) {seed : Cut}
    (hseed : SeparatesAll graph groups seed) :
    CutSearch.Sound (LabelProblem.encode graph groups)
      (.ofList (seed.toList.filterMap (LabelProblem.encode graph groups).edgeIndex?)) := by
  have hp := LabelProblem.encode_wellFormed hg hgroups
  have hsrc : ∀ e ∈ seed, e.src < (LabelProblem.encode graph groups).size := by
    intro e he
    exact hg.src_lt e.src e.dst (hseed.finite e he).1
  have hmem : ∀ i, i ∈ (AscSet.ofList (seed.toList.filterMap
      (LabelProblem.encode graph groups).edgeIndex?) : EdgeSet) ↔
      ∃ e ∈ seed, ∃ w, (LabelProblem.encode graph groups).edges[i]? = some (e, w) := by
    intro i
    rw [AscSet.mem_ofList, List.mem_filterMap]
    constructor
    · rintro ⟨e, he, hindex⟩
      exact ⟨e, he, (LabelProblem.edgeIndex?_eq_some_iff hp (hsrc e he)).mp hindex⟩
    · rintro ⟨e, he, hedge⟩
      exact ⟨e, he, (LabelProblem.edgeIndex?_eq_some_iff hp (hsrc e he)).mpr hedge⟩
  constructor
  · intro i hi
    obtain ⟨e, he, w, hedge⟩ := (hmem i).mp hi
    rw [edgeWeight_eq hedge, ← (LabelProblem.weight_of_encode hg hedge).2]
    exact (hseed.finite e he).2
  · intro c hc hsatisfiable
    obtain ⟨g, hmemGroup, horiginal⟩ :=
      (LabelProblem.exists_satisfiable_collapse hgroups).mp ⟨c, hc, hsatisfiable⟩
    refine hseed.separated g hmemGroup (horiginal.mono ?_)
    intro u v huv
    refine ⟨(LabelProblem.uncut_of_passable hg hgroups huv).1, ?_⟩
    intro hcut
    obtain ⟨i, w, hedge, hfree⟩ := huv
    exact hfree ((hmem i).mpr ⟨⟨u, v⟩, hcut, w, hedge⟩)

theorem separatesAll_of_sound (hg : graph.Consistent)
    (hgroups : ∀ g ∈ groups, g.WellPosed graph.size) {cut : EdgeSet}
    (hcut : CutSearch.Sound (LabelProblem.encode graph groups) cut) :
    SeparatesAll graph groups ((LabelProblem.encode graph groups).cutEdges cut) := by
  constructor
  · intro e he
    obtain ⟨i, hi, w, hedge⟩ := LabelProblem.mem_cutEdges.mp he
    obtain ⟨hpos, hw⟩ := LabelProblem.weight_of_encode hg hedge
    have hfinite := hcut.finite i hi
    rw [edgeWeight_eq hedge] at hfinite
    rw [hw]
    exact ⟨hpos, hfinite⟩
  · exact (LabelProblem.separates_iff hg hgroups).mp hcut.separated

theorem SeparatesAll.of_same {prepared : List WaypointGroup} {cut : Cut}
    (hsame : ∀ g, g ∈ prepared ↔ g ∈ groups) (h : SeparatesAll graph prepared cut) :
    SeparatesAll graph groups cut := by
  refine ⟨h.finite, ?_⟩
  intro g hg
  exact h.separated g ((hsame g).mpr hg)

theorem SeparatesAll.of_nil : SeparatesAll graph [] .empty := by
  constructor
  · intro e he
    exact absurd he (AscSet.not_mem_empty e)
  · intro g hg
    exact absurd hg List.not_mem_nil

theorem exactCut_separatesAll (hg : graph.Consistent) {passLimit budget : Nat} {cancelled : Bool}
    {cut : Cut} (h : (exactCut passLimit budget cancelled graph groups).result = .ok cut) :
    SeparatesAll graph groups cut := by
  obtain ⟨prepared, hprepare, h⟩ := Recorded.bind_result_eq_ok_iff.mp h
  obtain ⟨hwell, hsame⟩ := prepareGroups_eq_ok hprepare
  have hprepared : ∀ g ∈ prepared, g.WellPosed graph.size := by
    intro g hmem
    exact hwell g ((hsame g).mp hmem)
  refine SeparatesAll.of_same hsame ?_
  split at h
  · rename_i hempty
    cases Recorded.pure_result_eq_ok_iff.mp h
    rw [List.isEmpty_iff.mp hempty]
    exact SeparatesAll.of_nil
  · obtain ⟨seed, hseed, h⟩ := Recorded.bind_result_eq_ok_iff.mp h
    have hall := iteratedCut_separatesAll hg hseed
    obtain ⟨solution, hsolve, h⟩ := Recorded.bind_result_eq_ok_iff.mp h
    obtain ⟨-, -, h⟩ := Recorded.bind_result_eq_ok_iff.mp h
    cases Recorded.pure_result_eq_ok_iff.mp h
    have hp := LabelProblem.encode_wellFormed hg hprepared
    exact separatesAll_of_sound hg hprepared
      (CutSearch.solve_sound hp (sound_of_separatesAll hg hprepared hall) hsolve)

theorem separate_separatesAll (hg : graph.Consistent) {settings : Settings} {cancelled : Bool}
    {cut : Cut} (h : (separate graph groups settings cancelled).result = .ok cut) :
    SeparatesAll graph groups cut := by
  unfold separate at h
  split at h
  · rename_i hempty
    cases Recorded.pure_result_eq_ok_iff.mp h
    rw [List.isEmpty_iff.mp hempty]
    exact SeparatesAll.of_nil
  · split at h
    · obtain ⟨found, hfound, h⟩ := Recorded.bind_result_eq_ok_iff.mp h
      obtain ⟨-, -, h⟩ := Recorded.bind_result_eq_ok_iff.mp h
      cases Recorded.pure_result_eq_ok_iff.mp h
      obtain ⟨inner, hinner, hfound⟩ := Recorded.bind_result_eq_ok_iff.mp hfound
      obtain ⟨-, -, hfound⟩ := Recorded.bind_result_eq_ok_iff.mp hfound
      cases Recorded.pure_result_eq_ok_iff.mp hfound
      exact iteratedCut_separatesAll hg hinner
    · obtain ⟨found, hfound, h⟩ := Recorded.bind_result_eq_ok_iff.mp h
      obtain ⟨-, -, h⟩ := Recorded.bind_result_eq_ok_iff.mp h
      cases Recorded.pure_result_eq_ok_iff.mp h
      exact exactCut_separatesAll hg hfound

end Strategies

end SpecFence
