import SpecFence.Proofs.Optimality

/-!
# A search that can stop at any time

The search can be stopped by its budget in the middle of a visit.  Up to then it does what it would
do with any larger budget, and what it would do later only makes the kept cut lighter, so raising
the budget never makes the answer heavier.  What is kept is the incumbent until something lighter is
found, and this is made of finite edges, whatever the incumbent is made of.  The levels that a visit
may go down are no bound on the search: more of them change nothing.
-/

set_option autoImplicit false

namespace SpecFence

namespace CutSearch

variable {p : LabelProblem} {budget budget' depth weight : Nat} {cut incumbent : EdgeSet}
  {s t t' : CutSearch} {f f' : CutSearch → Nat → Except CutError CutSearch} {l : List Nat}

section Depth

theorem foldlM_congr (h : ∀ s, ∀ i ∈ l, f s i = f' s i) (s : CutSearch) :
    l.foldlM f s = l.foldlM f' s := by
  induction l generalizing s with
  | nil => rfl
  | cons i l ih =>
    rw [List.foldlM_cons, List.foldlM_cons, h s i List.mem_cons_self]
    exact congrArg _ (funext fun t => ih (fun s j hj => h s j (List.mem_cons_of_mem i hj)) t)

theorem visit_more_depth (hp : p.WellFormed) (hinside : Inside p depth cut weight) (more : Nat)
    (s : CutSearch) :
    visit p budget false (depth + more) cut weight s = visit p budget false depth cut weight s := by
  induction depth generalizing cut weight s with
  | zero => exact hinside.not_zero.elim
  | succ depth ih =>
    rw [Nat.succ_add, visit, visit]
    cases hwitness : p.witness? cut with
    | none => rfl
    | some walk =>
      have hfold : ∀ s, (branches p walk).foldlM (fun s i => visit p budget false (depth + more)
            (cut.insert i) (Weight.add weight (p.edgeWeight i)) s) s =
          (branches p walk).foldlM (fun s i => visit p budget false depth
            (cut.insert i) (Weight.add weight (p.edgeWeight i)) s) s :=
        foldlM_congr fun s i hi => ih (hinside.insert hp hwitness hi) s
      simp only [hfold]

end Depth

section Budget

theorem visit_spent (hspent : budget ≤ s.visited)
    (h : visit p budget false depth cut weight s = .ok t) : t = s := by
  cases depth with
  | zero => exact (Except.ok.inj h).symm
  | succ depth =>
    rcases visit_cases h with ⟨-, heq⟩ | ⟨hleft, -⟩ | ⟨hleft, -⟩ | ⟨walk, hleft, -⟩
    · exact heq
    all_goals omega

/-- A search and one with a larger budget are in the same state, or the first one has spent its
budget and the other has gone on. -/
def Ahead (budget : Nat) (t t' : CutSearch) : Prop := t = t' ∨ (budget ≤ t.visited ∧ Later t t')

theorem ahead_foldlM
    (hstep : ∀ s i t t', i ∈ l → f s i = .ok t → f' s i = .ok t' → Ahead budget t t')
    (hspent : ∀ s i t, i ∈ l → budget ≤ s.visited → f s i = .ok t → t = s)
    (hlater : ∀ s i t, i ∈ l → f' s i = .ok t → Later s t)
    (h : l.foldlM f s = .ok t) (h' : l.foldlM f' s = .ok t') : Ahead budget t t' := by
  induction l generalizing s with
  | nil =>
    cases Except.pure_eq_ok_iff.mp h
    cases Except.pure_eq_ok_iff.mp h'
    exact Or.inl rfl
  | cons i l ih =>
    rw [List.foldlM_cons] at h h'
    obtain ⟨x, hx, h⟩ := Except.bind_eq_ok_iff.mp h
    obtain ⟨x', hx', h'⟩ := Except.bind_eq_ok_iff.mp h'
    rcases hstep s i x x' List.mem_cons_self hx hx' with rfl | ⟨hdone, hahead⟩
    · exact ih (fun s j t t' hj => hstep s j t t' (List.mem_cons_of_mem i hj))
        (fun s j t hj => hspent s j t (List.mem_cons_of_mem i hj))
        (fun s j t hj => hlater s j t (List.mem_cons_of_mem i hj)) h h'
    · -- the first search has stopped here and waits for the other one to end
      have hstopped : t = x := by
        refine foldlM_invariant (P := fun y => y = x) l (fun y j z hj hy hz => ?_) rfl h
        exact (hspent y j z (List.mem_cons_of_mem i hj) (hy ▸ hdone) hz).trans hy
      have hrest := later_foldlM (fun s j t hj => hlater s j t (List.mem_cons_of_mem i hj)) h'
      rw [hstopped]
      exact Or.inr ⟨hdone, hahead.trans hrest⟩

theorem ahead_visit (hbudget : budget ≤ budget')
    (h : visit p budget false depth cut weight s = .ok t)
    (h' : visit p budget' false depth cut weight s = .ok t') : Ahead budget t t' := by
  induction depth generalizing cut weight s t t' with
  | zero =>
    cases h
    cases h'
    exact Or.inl rfl
  | succ depth ih =>
    rcases visit_cases h with ⟨hspent, rfl⟩ | ⟨hleft, hbound, rfl⟩ | ⟨hleft, hbound, hnone, rfl⟩ |
      ⟨walk, hleft, hbound, hwalk, hfold⟩
    · exact Or.inr ⟨hspent, later_visit h'⟩
    all_goals rcases visit_cases h' with ⟨hspent', -⟩ | ⟨-, hbound', heq'⟩ |
      ⟨-, hbound', hnone', heq'⟩ | ⟨walk', -, hbound', hwalk', hfold'⟩
    all_goals try omega
    · exact Or.inl heq'.symm
    · exact Or.inl heq'.symm
    · rw [hnone] at hwalk'
      cases hwalk'
    · rw [hwalk] at hnone'
      cases hnone'
    · rw [hwalk] at hwalk'
      cases hwalk'
      exact ahead_foldlM (fun s i t t' _ => ih) (fun s i t _ hspent => visit_spent hspent)
        (fun s i t _ => later_visit) hfold hfold'

theorem Ahead.bestWeight_le (h : Ahead budget t t') : t'.bestWeight ≤ t.bestWeight := by
  rcases h with rfl | ⟨-, hlater⟩
  · exact Nat.le_refl _
  · exact hlater.bestWeight

end Budget

section Kept

def Kept (p : LabelProblem) (incumbent : EdgeSet) (s : CutSearch) : Prop :=
  (s.best = incumbent ∧ s.bestWeight = p.weight incumbent) ∨
    (s.bestWeight < p.weight incumbent ∧
      (∀ i ∈ s.best, i < p.edges.size ∧ p.edgeWeight i < Weight.infinite) ∧ p.Leaves s.best)

theorem Kept.bestWeight_le (h : Kept p incumbent s) : s.bestWeight ≤ p.weight incumbent := by
  rcases h with ⟨-, heq⟩ | ⟨hlt, -⟩
  · exact heq.le
  · exact hlt.le

theorem kept_visit (hp : p.WellFormed)
    (hcut : ∀ i ∈ cut, i < p.edges.size ∧ p.edgeWeight i < Weight.infinite)
    (hs : Kept p incumbent s) (h : visit p budget false depth cut weight s = .ok t) :
    Kept p incumbent t := by
  induction depth generalizing cut weight s t with
  | zero =>
    cases h
    exact hs
  | succ depth ih =>
    rcases visit_cases h with ⟨-, rfl⟩ | ⟨-, -, rfl⟩ | ⟨-, hbound, hnone, rfl⟩ |
      ⟨walk, -, -, hwalk, hfold⟩
    · exact hs
    · exact hs
    · exact Or.inr ⟨hbound.trans_le hs.bestWeight_le, hcut, LabelProblem.witness?_none hp hnone⟩
    · refine foldlM_invariant (P := Kept p incumbent) (branches p walk) ?_ (by exact hs) hfold
      intro x i y hi hx hy
      refine ih (fun j hj => ?_) hx hy
      rcases AscSet.mem_insert.mp hj with rfl | hj
      · obtain ⟨hmem, hfinite⟩ := mem_branches.mp hi
        exact ⟨((LabelProblem.witness?_some hp hwalk).1 j hmem).1, hfinite⟩
      · exact hcut j hj

end Kept

end CutSearch

/-- A valid answer to a valid incumbent: the incumbent itself or a lighter set of finite edges, and
with the flag none of finite edges is lighter still. -/
structure LabelProblem.Answers (p : LabelProblem) (incumbent : EdgeSet) (solution : Solution) :
    Prop where
  valid : p.isValid solution.cut = true
  kept : solution.cut = incumbent ∨ (p.weight solution.cut < p.weight incumbent ∧
    ∀ i ∈ solution.cut, i < p.edges.size ∧ p.edgeWeight i < Weight.infinite)
  lightest : solution.optimal = true → ∀ other : EdgeSet,
    (∀ i ∈ other, p.edgeWeight i < Weight.infinite) → p.isValid other = true →
      p.weight solution.cut ≤ p.weight other

namespace LabelProblem

variable {p : LabelProblem} {budget budget' : Nat} {incumbent : EdgeSet}
  {solution solution' : Solution}

def searchStart (p : LabelProblem) (incumbent : EdgeSet) : CutSearch :=
  ⟨0, incumbent, p.weight incumbent⟩

theorem solve_eq_ok_iff (hp : p.WellFormed) : p.solve budget incumbent false = .ok solution ↔
    ∃ t, CutSearch.visit p (max budget 1) false (p.edges.size + 1) .empty 0
        (p.searchStart incumbent) = .ok t ∧ solution = ⟨t.best, t.visited < max budget 1⟩ := by
  rw [CutSearch.solve_eq hp]
  refine Except.bind_eq_ok_iff.trans (exists_congr fun t => and_congr_right fun _ => ?_)
  rw [Except.pure_eq_ok_iff, eq_comm]

theorem weighed_of_search (hp : p.WellFormed) {t : CutSearch}
    (h : CutSearch.visit p budget false (p.edges.size + 1) .empty 0 (p.searchStart incumbent) =
      .ok t) : t.bestWeight = p.weight t.best := by
  have hstart : CutSearch.Weighed p (p.searchStart incumbent) := rfl
  exact CutSearch.weighed_visit hp (.start p) hstart h

theorem answers_of_solve (hp : p.WellFormed) (hvalid : p.isValid incumbent = true)
    (h : p.solve budget incumbent false = .ok solution) : p.Answers incumbent solution := by
  obtain ⟨found, hfound, -, hlightest⟩ := exists_solve hp budget incumbent
  rw [h] at hfound
  cases hfound
  obtain ⟨t, ht, hsolution⟩ := (solve_eq_ok_iff hp).mp h
  have hbest : solution.cut = t.best := congrArg Solution.cut hsolution
  have hkept : CutSearch.Kept p incumbent t :=
    CutSearch.kept_visit hp (fun i hi => absurd hi (AscSet.not_mem_empty i)) (Or.inl ⟨rfl, rfl⟩) ht
  unfold CutSearch.Kept at hkept
  rw [weighed_of_search hp ht, ← hbest] at hkept
  constructor
  case valid =>
    rcases hkept with ⟨hsame, -⟩ | ⟨-, -, hleaves⟩
    · rw [hsame]
      exact hvalid
    · exact (isValid_iff hp).mpr hleaves
  case kept => exact hkept.imp And.left fun hless => ⟨hless.1, hless.2.1⟩
  case lightest =>
    intro hoptimal other hfinite hother
    exact hlightest hoptimal other hfinite ((isValid_iff hp).mp hother)

theorem weight_le_of_budget_le (hp : p.WellFormed) (hbudget : budget ≤ budget')
    (h : p.solve budget incumbent false = .ok solution)
    (h' : p.solve budget' incumbent false = .ok solution') :
    p.weight solution'.cut ≤ p.weight solution.cut := by
  obtain ⟨t, ht, rfl⟩ := (solve_eq_ok_iff hp).mp h
  obtain ⟨t', ht', rfl⟩ := (solve_eq_ok_iff hp).mp h'
  have hmax : max budget 1 ≤ max budget' 1 := by omega
  change p.weight t'.best ≤ p.weight t.best
  rw [← weighed_of_search hp ht, ← weighed_of_search hp ht']
  exact (CutSearch.ahead_visit hmax ht ht').bestWeight_le

/-- From a valid incumbent the search for a lightest cut of the groups answers within any budget,
and more levels than it is given would not change the answer.  The answer does not get heavier as
the budget is raised. -/
theorem solve_anytime (graph : Digraph) (hg : graph.Consistent) (groups : List WaypointGroup)
    (hgroups : ∀ g ∈ groups, g.fault? graph.size = none) (p : LabelProblem)
    (hp : p = .encode graph groups) (incumbent : EdgeSet)
    (hvalid : p.isValid incumbent = true) :
    (∀ budget, ∃ solution, p.solve budget incumbent false = .ok solution ∧
      p.Answers incumbent solution ∧
      ∀ more, ∃ t, CutSearch.visitInPlace p (max budget 1) false (p.edges.size + 1 + more) 0
          (p.searchStart incumbent) .empty = .ok (t, .empty) ∧
        solution = ⟨t.best, t.visited < max budget 1⟩) ∧
    ∀ budget budget' solution solution', budget ≤ budget' →
      p.solve budget incumbent false = .ok solution →
        p.solve budget' incumbent false = .ok solution' →
          p.weight solution'.cut ≤ p.weight solution.cut := by
  have hwell : p.WellFormed := by
    rw [hp]
    exact encode_wellFormed hg fun g hmem => WaypointGroup.wellPosed_of_fault? (hgroups g hmem)
  constructor
  · intro budget
    obtain ⟨solution, hsolve, -⟩ := exists_solve hwell budget incumbent
    refine ⟨solution, hsolve, answers_of_solve hwell hvalid hsolve, fun more => ?_⟩
    obtain ⟨t, ht, hsolution⟩ := (solve_eq_ok_iff hwell).mp hsolve
    refine ⟨t, ?_, hsolution⟩
    rw [CutSearch.visitInPlace_eq hwell, CutSearch.visit_more_depth hwell (.start p), ht]
    rfl
  · intro budget budget' solution solution' hbudget h h'
    exact weight_le_of_budget_le hwell hbudget h h'

def heavyFirstChain : WeightedGraph :=
  (WeightedGraph.withNodes 3).putAll [(⟨0, 1⟩, Weight.infinite), (⟨1, 2⟩, 3)]

/-- The incumbent has the infinite edge.  It is kept if nothing else can be visited, and else gives
way to the finite edge. -/
theorem solve_anytime_heavyFirstChain :
    (encode heavyFirstChain.digraph [⟨[.singleton 0, .singleton 2]⟩]).solve 1 (.singleton 0) false =
        .ok ⟨.singleton 0, false⟩ ∧
      (encode heavyFirstChain.digraph [⟨[.singleton 0, .singleton 2]⟩]).solve 9 (.singleton 0)
        false = .ok ⟨.singleton 1, true⟩ ∧
      (encode heavyFirstChain.digraph [⟨[.singleton 0, .singleton 2]⟩]).Answers (.singleton 0)
        ⟨.singleton 1, true⟩ ∧
      (encode heavyFirstChain.digraph [⟨[.singleton 0, .singleton 2]⟩]).weight (.singleton 1) ≤
        (encode heavyFirstChain.digraph [⟨[.singleton 0, .singleton 2]⟩]).weight (.singleton 0) := by
  obtain ⟨hanswers, hlighter⟩ := solve_anytime heavyFirstChain.digraph
    heavyFirstChain.digraph_consistent [⟨[.singleton 0, .singleton 2]⟩] (by decide +kernel) _ rfl
    (.singleton 0) (by cbv)
  have hone : (encode heavyFirstChain.digraph [⟨[.singleton 0, .singleton 2]⟩]).solve 1
      (.singleton 0) false = .ok ⟨.singleton 0, false⟩ := by cbv
  have hnine : (encode heavyFirstChain.digraph [⟨[.singleton 0, .singleton 2]⟩]).solve 9
      (.singleton 0) false = .ok ⟨.singleton 1, true⟩ := by cbv
  obtain ⟨solution, hsolve, hanswer, -⟩ := hanswers 9
  obtain rfl := Except.ok.inj (hnine.symm.trans hsolve)
  exact ⟨hone, hnine, hanswer, hlighter 1 9 _ _ (by decide) hone hnine⟩

end LabelProblem

end SpecFence
