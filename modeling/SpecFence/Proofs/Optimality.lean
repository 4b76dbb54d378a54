import Mathlib
import SpecFence.Proofs.Validity

/-!
# The search is exact

A set of edges that leaves no walk has an edge of every walk that was found, so below a set of edges
the search reaches every valid set that contains it, unless the bound shows that the set is no
better than what was found, or the budget runs out.  When it does not run out, the kept cut is
therefore the lightest of all; and in any case the cut is no heavier than the one that the search
starts from.
-/

set_option autoImplicit false

namespace SpecFence

namespace Weight

theorem total_cons (w : Nat) (ws : List Nat) : total (w :: ws) = add (total ws) w := by
  rw [total_eq, total_eq, sum, add]
  omega

theorem total_map_le {α : Type} (weight : α → Nat) {l m : List α} (hl : l.Nodup)
    (hlm : ∀ a ∈ l, a ∈ m) : total (l.map weight) ≤ total (m.map weight) := by
  obtain ⟨rest, hperm, hsublist⟩ := hl.subperm hlm
  have hsum : (rest.map weight).sum ≤ (m.map weight).sum :=
    (hsublist.map weight).sum_le_sum fun _ _ => Nat.zero_le _
  rw [← total_eq_of_perm (hperm.map weight), total_eq, total_eq, sum_eq, sum_eq]
  omega

end Weight

theorem cutWeight_mono {graph : Digraph} {cut other : Cut} (h : ∀ e ∈ cut, e ∈ other) :
    cutWeight graph cut.toList ≤ cutWeight graph other.toList :=
  Weight.total_map_le _ (AscSet.nodup_toList cut) h

namespace LabelProblem

variable {p : LabelProblem}

theorem nodup_edgeSet (cut : EdgeSet) : cut.toList.Nodup := Digraph.nodup_of_ascending cut.ascending

theorem weight_mono {cut other : EdgeSet} (h : ∀ i ∈ cut, i ∈ other) :
    p.weight cut ≤ p.weight other :=
  Weight.total_map_le _ (nodup_edgeSet cut) h

theorem perm_insert {cut : EdgeSet} {i : Nat} (hi : i ∉ cut) :
    (cut.insert i).toList.Perm (i :: cut.toList) := by
  refine (List.perm_ext_iff_of_nodup (nodup_edgeSet _)
    (List.nodup_cons.mpr ⟨hi, nodup_edgeSet cut⟩)).mpr fun x => ?_
  exact AscSet.mem_insert.trans List.mem_cons.symm

theorem weight_insert {cut : EdgeSet} {i : Nat} (hi : i ∉ cut) :
    p.weight (cut.insert i) = Weight.add (p.weight cut) (p.edgeWeight i) := by
  unfold weight
  rw [Weight.total_eq_of_perm ((perm_insert hi).map _), List.map_cons, Weight.total_cons]

theorem size_insert {cut : EdgeSet} {i : Nat} (hi : i ∉ cut) :
    (cut.insert i).size = cut.size + 1 :=
  (perm_insert hi).length_eq

theorem size_le_of_forall_lt {cut : EdgeSet} {n : Nat} (h : ∀ i ∈ cut, i < n) : cut.size ≤ n := by
  have hsub : cut.toList.Subperm (List.range n) :=
    (nodup_edgeSet cut).subperm fun i hi => List.mem_range.mpr (h i hi)
  have hle := hsub.length_le
  rwa [List.length_range] at hle

def Leaves (p : LabelProblem) (cut : EdgeSet) : Prop :=
  ∀ c ∈ p.groups, ¬ c.Satisfiable (p.Passable cut)

theorem Leaves.exists_mem (h : p.WellFormed) {cut other : EdgeSet} {walk : List Nat}
    (hother : p.Leaves other) (hwalk : p.witness? cut = some walk) : ∃ i ∈ walk, i ∈ other := by
  obtain ⟨-, c, hc, hsatisfiable⟩ := witness?_some h hwalk
  by_contra hnone
  refine hother c hc (hsatisfiable.mono fun u v huv => ?_)
  obtain ⟨i, hi, w, hedge⟩ := huv
  exact ⟨i, w, hedge, fun hmem => hnone ⟨i, hi, hmem⟩⟩

end LabelProblem

namespace CutSearch

variable {p : LabelProblem} {budget depth weight : Nat} {cut : EdgeSet} {s t : CutSearch}

structure Later (s t : CutSearch) : Prop where
  visited : s.visited ≤ t.visited
  bestWeight : t.bestWeight ≤ s.bestWeight

theorem Later.refl (s : CutSearch) : Later s s := ⟨Nat.le_refl _, Nat.le_refl _⟩

theorem Later.trans {u : CutSearch} (hst : Later s t) (htu : Later t u) : Later s u :=
  ⟨hst.visited.trans htu.visited, htu.bestWeight.trans hst.bestWeight⟩

theorem later_foldlM {l : List Nat} {f : CutSearch → Nat → Except CutError CutSearch}
    (hstep : ∀ s i t, i ∈ l → f s i = .ok t → Later s t) (h : l.foldlM f s = .ok t) : Later s t :=
  foldlM_invariant (P := Later s) l
    (fun x i y hi hx hy => hx.trans (hstep x i y hi hy)) (Later.refl s) h

theorem exists_turn {l : List Nat} {f : CutSearch → Nat → Except CutError CutSearch}
    (hstep : ∀ s i t, i ∈ l → f s i = .ok t → Later s t) (h : l.foldlM f s = .ok t) {i : Nat}
    (hi : i ∈ l) : ∃ x y, Later s x ∧ f x i = .ok y ∧ Later y t := by
  obtain ⟨before, after, rfl⟩ := List.append_of_mem hi
  rw [List.foldlM_append] at h
  obtain ⟨x, hx, h⟩ := Except.bind_eq_ok_iff.mp h
  rw [List.foldlM_cons] at h
  obtain ⟨y, hy, h⟩ := Except.bind_eq_ok_iff.mp h
  refine ⟨x, y, later_foldlM (fun s i t hi => hstep s i t (by simp [hi])) hx, hy, ?_⟩
  exact later_foldlM (fun s i t hi => hstep s i t (by simp [hi])) h

theorem visit_cases (h : visit p budget false (depth + 1) cut weight s = .ok t) :
    (budget ≤ s.visited ∧ t = s) ∨
    (s.visited < budget ∧ s.bestWeight ≤ weight ∧ t = { s with visited := s.visited + 1 }) ∨
    (s.visited < budget ∧ weight < s.bestWeight ∧ p.witness? cut = none ∧
      t = ⟨s.visited + 1, cut, weight⟩) ∨
    ∃ walk, s.visited < budget ∧ weight < s.bestWeight ∧ p.witness? cut = some walk ∧
      (branches p walk).foldlM (fun s i =>
        visit p budget false depth (cut.insert i) (Weight.add weight (p.edgeWeight i)) s)
        { s with visited := s.visited + 1 } = .ok t := by
  rw [visit] at h
  obtain ⟨-, -, h⟩ := Except.bind_eq_ok_iff.mp h
  split at h
  · rename_i hbudget
    cases Except.pure_eq_ok_iff.mp h
    exact Or.inl ⟨hbudget, rfl⟩
  · rename_i hbudget
    dsimp only at h
    split at h
    · rename_i hbound
      cases Except.pure_eq_ok_iff.mp h
      exact Or.inr (Or.inl ⟨by omega, hbound, rfl⟩)
    · rename_i hbound
      split at h
      · rename_i hwitness
        cases Except.pure_eq_ok_iff.mp h
        exact Or.inr (Or.inr (Or.inl ⟨by omega, by omega, hwitness, rfl⟩))
      · rename_i walk hwitness
        exact Or.inr (Or.inr (Or.inr ⟨walk, by omega, by omega, hwitness, h⟩))

theorem later_visit (h : visit p budget false depth cut weight s = .ok t) : Later s t := by
  induction depth generalizing cut weight s t with
  | zero =>
    cases h
    exact Later.refl s
  | succ depth ih =>
    have hnext : Later s { s with visited := s.visited + 1 } := ⟨Nat.le_succ _, Nat.le_refl _⟩
    rcases visit_cases h with ⟨-, rfl⟩ | ⟨-, -, rfl⟩ | ⟨-, hbound, -, rfl⟩ | ⟨walk, -, -, -, hfold⟩
    · exact Later.refl _
    · exact hnext
    · exact ⟨Nat.le_succ _, hbound.le⟩
    · exact hnext.trans (later_foldlM (fun x i y _ hy => ih hy) hfold)

theorem exists_visit (p : LabelProblem) (budget depth : Nat) (cut : EdgeSet) (weight : Nat)
    (s : CutSearch) : ∃ t, visit p budget false depth cut weight s = .ok t := by
  induction depth generalizing cut weight s with
  | zero => exact ⟨s, rfl⟩
  | succ depth ih =>
    have hfold : ∀ (l : List Nat) (s : CutSearch), ∃ t, l.foldlM (fun s i =>
        visit p budget false depth (cut.insert i) (Weight.add weight (p.edgeWeight i)) s) s =
          .ok t := by
      intro l
      induction l with
      | nil => exact fun s => ⟨s, rfl⟩
      | cons i l ihl =>
        intro s
        obtain ⟨x, hx⟩ := ih (cut.insert i) (Weight.add weight (p.edgeWeight i)) s
        obtain ⟨t, ht⟩ := ihl x
        exact ⟨t, by rw [List.foldlM_cons]; exact Except.bind_eq_ok_iff.mpr ⟨x, hx, ht⟩⟩
    rw [visit]
    simp only [Except.bind_eq_ok_iff]
    refine exists_comm.mp ⟨(), ?_⟩
    simp only [exists_and_left]
    refine ⟨rfl, ?_⟩
    split
    · exact ⟨_, rfl⟩
    · split
      · exact ⟨_, rfl⟩
      · split
        · exact ⟨_, rfl⟩
        · exact hfold _ _

/-- What the sets of edges that are visited have in common: they weigh what they are said to weigh,
and the levels left are enough for all edges that are not in them. -/
structure Inside (p : LabelProblem) (depth : Nat) (cut : EdgeSet) (weight : Nat) : Prop where
  bound : ∀ i ∈ cut, i < p.edges.size
  room : p.edges.size < depth + cut.size
  weighed : weight = p.weight cut

theorem Inside.start (p : LabelProblem) : Inside p (p.edges.size + 1) .empty 0 :=
  ⟨fun i hi => absurd hi (AscSet.not_mem_empty i), Nat.lt_succ_self _, rfl⟩

theorem Inside.not_zero (h : Inside p 0 cut weight) : False := by
  have hsize := LabelProblem.size_le_of_forall_lt h.bound
  have hroom := h.room
  omega

theorem Inside.insert (hp : p.WellFormed) (h : Inside p (depth + 1) cut weight) {walk : List Nat}
    {i : Nat} (hwalk : p.witness? cut = some walk) (hi : i ∈ branches p walk) :
    Inside p depth (cut.insert i) (Weight.add weight (p.edgeWeight i)) := by
  obtain ⟨hlt, hfree⟩ := (LabelProblem.witness?_some hp hwalk).1 i (mem_branches.mp hi).1
  constructor
  · intro j hj
    rcases AscSet.mem_insert.mp hj with rfl | hj
    · exact hlt
    · exact h.bound j hj
  · have hroom := h.room
    rw [LabelProblem.size_insert hfree]
    omega
  · rw [LabelProblem.weight_insert hfree, h.weighed]

def Weighed (p : LabelProblem) (s : CutSearch) : Prop := s.bestWeight = p.weight s.best

theorem weighed_visit (hp : p.WellFormed) (hinside : Inside p depth cut weight) (hs : Weighed p s)
    (h : visit p budget false depth cut weight s = .ok t) : Weighed p t := by
  induction depth generalizing cut weight s t with
  | zero =>
    cases h
    exact hs
  | succ depth ih =>
    rcases visit_cases h with ⟨-, rfl⟩ | ⟨-, -, rfl⟩ | ⟨-, -, -, rfl⟩ | ⟨walk, -, -, hwalk, hfold⟩
    · exact hs
    · exact hs
    · exact hinside.weighed
    · refine foldlM_invariant (P := Weighed p) (branches p walk) ?_ (by exact hs) hfold
      intro x i y hi hx hy
      exact ih (hinside.insert hp hwalk hi) hx hy

/-- A search that ends within its budget keeps a cut that is no heavier than any set of finite edges
that contains the visited one and leaves no walk. -/
theorem bestWeight_le (hp : p.WellFormed) (hinside : Inside p depth cut weight)
    (h : visit p budget false depth cut weight s = .ok t) (hbudget : t.visited < budget)
    {other : EdgeSet} (hsub : ∀ i ∈ cut, i ∈ other)
    (hfinite : ∀ i ∈ other, p.edgeWeight i < Weight.infinite) (hother : p.Leaves other) :
    t.bestWeight ≤ p.weight other := by
  induction depth generalizing cut weight s t with
  | zero => exact hinside.not_zero.elim
  | succ depth ih =>
    have hle : weight ≤ p.weight other := by
      rw [hinside.weighed]
      exact LabelProblem.weight_mono hsub
    rcases visit_cases h with ⟨hspent, rfl⟩ | ⟨-, hbound, rfl⟩ | ⟨-, -, -, rfl⟩ |
      ⟨walk, -, -, hwalk, hfold⟩
    · omega
    · exact hbound.trans hle
    · exact hle
    · -- the other set has an edge of the walk, and below that edge the search compared with it
      obtain ⟨i, hi, hmem⟩ := hother.exists_mem hp hwalk
      have hbranch : i ∈ branches p walk := mem_branches.mpr ⟨hi, hfinite i hmem⟩
      obtain ⟨x, y, -, hvisit, hlater⟩ :=
        exists_turn (fun _ _ _ _ hy => later_visit hy) hfold hbranch
      have hsub' : ∀ j ∈ cut.insert i, j ∈ other := by
        intro j hj
        rcases AscSet.mem_insert.mp hj with rfl | hj
        · exact hmem
        · exact hsub j hj
      have hspent := hlater.visited
      exact hlater.bestWeight.trans
        (ih (hinside.insert hp hwalk hbranch) hvisit (by omega) hsub')

end CutSearch

/-- From a set of edges that leaves no walk, the search gives one that weighs no more; and when it
says so, one that weighs no more than any set of finite edges that leaves no walk. -/
theorem LabelProblem.exists_solve {p : LabelProblem} (hp : p.WellFormed) (budget : Nat)
    (incumbent : EdgeSet) :
    ∃ solution, p.solve budget incumbent false = .ok solution ∧
      p.weight solution.cut ≤ p.weight incumbent ∧
      (solution.optimal = true → ∀ other : EdgeSet,
        (∀ i ∈ other, p.edgeWeight i < Weight.infinite) → p.Leaves other →
          p.weight solution.cut ≤ p.weight other) := by
  obtain ⟨t, ht⟩ := CutSearch.exists_visit p (max budget 1) (p.edges.size + 1) .empty 0
    ⟨0, incumbent, p.weight incumbent⟩
  have hinside := CutSearch.Inside.start p
  have hstart : CutSearch.Weighed p ⟨0, incumbent, p.weight incumbent⟩ := rfl
  have hweighed : t.bestWeight = p.weight t.best := CutSearch.weighed_visit hp hinside hstart ht
  have hsolve : p.solve budget incumbent false = .ok ⟨t.best, t.visited < max budget 1⟩ := by
    rw [CutSearch.solve_eq hp]
    exact Except.bind_eq_ok_iff.mpr ⟨t, ht, rfl⟩
  refine ⟨_, hsolve, ?_, ?_⟩
  · rw [← hweighed]
    exact (CutSearch.later_visit ht).bestWeight
  · intro hoptimal other hfinite hother
    rw [← hweighed]
    exact CutSearch.bestWeight_le hp hinside ht (of_decide_eq_true hoptimal)
      (fun i hi => absurd hi (AscSet.not_mem_empty i)) hfinite hother

section Strategies

variable {graph : Digraph} {groups prepared : List WaypointGroup}

theorem prepareGroups_idem (h : prepareGroups graph groups = .ok prepared) :
    prepareGroups graph prepared = .ok prepared := by
  unfold prepareGroups at h ⊢
  split at h
  · cases h
  · rename_i hnone
    cases h
    have hsame : (AscSet.ofList (AscSet.ofList groups).toList : AscSet WaypointGroup) =
        AscSet.ofList groups :=
      AscSet.ext fun g => AscSet.mem_ofList
    have hall : (AscSet.ofList groups).toList.findSome?
        (fun g => (g.fault? graph.size).map (g, ·)) = none := by
      refine List.findSome?_eq_none_iff.mpr fun g hg => ?_
      exact List.findSome?_eq_none_iff.mp hnone g (AscSet.mem_ofList.mp hg)
    rw [hall, hsame]

theorem CutState.passes_cancelled {s : CutState} {group : WaypointGroup}
    {rest : List WaypointGroup} {made left : Nat} {history : List (List Cut)} :
    (s.passes true (group :: rest) made history (left + 1)).result = .error .cancelled := rfl

theorem iteratedCut_cancelled {passLimit : Nat} {before : CutProgress} {group : WaypointGroup}
    {rest : List WaypointGroup} (hprepare : prepareGroups graph groups = .ok (group :: rest)) :
    (iteratedCut passLimit true before graph groups).outcome.result = .error .cancelled := by
  obtain ⟨left, hleft⟩ : ∃ left, max passLimit 1 = left + 1 := ⟨max passLimit 1 - 1, by omega⟩
  unfold iteratedCut
  rw [hprepare]
  dsimp only
  unfold IteratedRun.ofPrepared
  dsimp only
  rw [hleft, CutState.passes_cancelled]

theorem not_cancelled_of_iteratedCut {passLimit : Nat} {cancelled : Bool} {before : CutProgress}
    {seed : Cut} {group : WaypointGroup} {rest : List WaypointGroup}
    (hprepare : prepareGroups graph groups = .ok (group :: rest))
    (h : (iteratedCut passLimit cancelled before graph groups).outcome.result = .ok seed) :
    cancelled = false := by
  cases cancelled with
  | false => rfl
  | true =>
    rw [iteratedCut_cancelled hprepare] at h
    cases h

theorem iteratedCut_prepared {passLimit : Nat} {cancelled : Bool} {before : CutProgress}
    {group : WaypointGroup} {rest : List WaypointGroup}
    (hprepare : prepareGroups graph groups = .ok (group :: rest)) :
    (iteratedCut passLimit cancelled .initial graph (group :: rest)).outcome =
      (iteratedCut passLimit cancelled before graph groups).outcome := by
  unfold iteratedCut
  rw [hprepare, prepareGroups_idem hprepare]

theorem weight_ofIndices_le (hg : graph.Consistent) (hgroups : ∀ g ∈ groups, g.WellPosed graph.size)
    (cut : Cut) :
    (LabelProblem.encode graph groups).weight
        (.ofList (cut.toList.filterMap (LabelProblem.encode graph groups).edgeIndex?)) ≤
      cutWeight graph cut.toList := by
  rw [LabelProblem.weight_eq_cutWeight hg hgroups]
  refine cutWeight_mono fun e he => ?_
  obtain ⟨i, hi, w, hedge⟩ := LabelProblem.mem_cutEdges.mp he
  obtain ⟨x, hx, y, hedge'⟩ := (LabelProblem.mem_ofIndices_iff hg hgroups).mp hi
  rw [hedge] at hedge'
  cases hedge'
  exact hx

/-- The search from the edges of a cut gives a cut that is no heavier, and when it says so the
lightest one that separates the groups. -/
theorem exists_lightest (hg : graph.Consistent) (hgroups : ∀ g ∈ groups, g.WellPosed graph.size)
    (budget : Nat) (seed : Cut) :
    ∃ solution, (LabelProblem.encode graph groups).solve budget
        (.ofList (seed.toList.filterMap (LabelProblem.encode graph groups).edgeIndex?)) false =
          .ok solution ∧
      cutWeight graph ((LabelProblem.encode graph groups).cutEdges solution.cut).toList ≤
        cutWeight graph seed.toList ∧
      (solution.optimal = true → ∀ other : Cut,
        (∀ e ∈ other, graph.weight e.src e.dst < Weight.infinite) →
        (∀ g ∈ groups, ¬ g.Satisfiable (graph.Uncut (· ∈ other))) →
          cutWeight graph ((LabelProblem.encode graph groups).cutEdges solution.cut).toList ≤
            cutWeight graph other.toList) := by
  obtain ⟨solution, hsolve, hle, hoptimal⟩ := LabelProblem.exists_solve
    (LabelProblem.encode_wellFormed hg hgroups) budget
    (.ofList (seed.toList.filterMap (LabelProblem.encode graph groups).edgeIndex?))
  rw [LabelProblem.weight_eq_cutWeight hg hgroups] at hle hoptimal
  refine ⟨solution, hsolve, hle.trans (weight_ofIndices_le hg hgroups seed), ?_⟩
  intro hflag other hfinite hother
  refine (hoptimal hflag _ ?_ ?_).trans (weight_ofIndices_le hg hgroups other)
  · intro i hi
    obtain ⟨e, he, w, hedge⟩ := (LabelProblem.mem_ofIndices_iff hg hgroups).mp hi
    rw [edgeWeight_eq hedge, ← (LabelProblem.weight_of_encode hg hedge).2]
    exact hfinite e he
  · exact (LabelProblem.separates_ofIndices_iff hg hgroups).mpr hother

def budgetWarning (weight : Nat) : LogRecord :=
  ⟨.warn, s!"constraint min-cut search budget exhausted; keeping a cut of weight {weight}"⟩

theorem exactCut_of_solve {passLimit budget : Nat} {cancelled : Bool} {seed : Cut}
    {group : WaypointGroup} {rest : List WaypointGroup} {solution : Solution}
    (hprepare : prepareGroups graph groups = .ok (group :: rest))
    (hseed : (iteratedCut passLimit cancelled .initial graph (group :: rest)).outcome.result =
      .ok seed)
    (hsolve : (LabelProblem.encode graph (group :: rest)).solve budget
      (.ofList (seed.toList.filterMap (LabelProblem.encode graph (group :: rest)).edgeIndex?))
      cancelled = .ok solution) :
    (exactCut passLimit budget cancelled graph groups).result =
        .ok ((LabelProblem.encode graph (group :: rest)).cutEdges solution.cut) ∧
      (exactCut passLimit budget cancelled graph groups).log =
        (iteratedCut passLimit cancelled .initial graph (group :: rest)).outcome.log ++
          if solution.optimal then [] else
            [budgetWarning ((LabelProblem.encode graph (group :: rest)).weight solution.cut)] := by
  have hprepare' : (liftM (prepareGroups graph groups) : Logged CutError _).result =
      .ok (group :: rest) := hprepare
  have hsolve' : (liftM ((LabelProblem.encode graph (group :: rest)).solve budget
      (.ofList (seed.toList.filterMap (LabelProblem.encode graph (group :: rest)).edgeIndex?))
      cancelled) : Logged CutError _).result = .ok solution := hsolve
  unfold exactCut
  rw [Recorded.bind_eq_of_ok hprepare']
  dsimp only [List.isEmpty_cons]
  rw [if_neg Bool.false_ne_true, Recorded.bind_eq_of_ok hseed]
  dsimp only
  rw [Recorded.bind_eq_of_ok hsolve']
  dsimp only
  rw [Recorded.bind_eq_of_ok (Logged.emitIf_result _ _ _)]
  refine ⟨rfl, ?_⟩
  cases solution.optimal with
  | true => rfl
  | false => rfl

theorem exactCut_of_error {passLimit budget : Nat} {cancelled : Bool} {e : CutError}
    {group : WaypointGroup} {rest : List WaypointGroup}
    (hprepare : prepareGroups graph groups = .ok (group :: rest))
    (hseed : (iteratedCut passLimit cancelled .initial graph (group :: rest)).outcome.result =
      .error e) :
    (exactCut passLimit budget cancelled graph groups).result = .error e := by
  unfold exactCut
  rw [Recorded.bind_result, Recorded.lift_result, hprepare]
  change (_ >>= _ : Logged CutError Cut).result = _
  rw [Recorded.bind_result, hseed]
  rfl

/-- When cutting the groups in turn succeeds, so does the exact search, with a cut of all groups
that is no heavier; and without a warning about the budget no set of finite edges that separates all
groups is lighter. -/
theorem exactCut_optimal (graph : Digraph) (hg : graph.Consistent) (groups : List WaypointGroup)
    (passLimit budget : Nat) (cancelled : Bool) (before : CutProgress) (seed : Cut)
    (hseed : (iteratedCut passLimit cancelled before graph groups).outcome.result = .ok seed) :
    ∃ cut, (exactCut passLimit budget cancelled graph groups).result = .ok cut ∧
      separatesAll graph cut.toList groups = true ∧
      cutWeight graph cut.toList ≤ cutWeight graph seed.toList ∧
      ((∀ weight, budgetWarning weight ∉ (exactCut passLimit budget cancelled graph groups).log) →
        ∀ other : Cut, (∀ e ∈ other, graph.weight e.src e.dst < Weight.infinite) →
          separatesAll graph other.toList groups = true →
            cutWeight graph cut.toList ≤ cutWeight graph other.toList) := by
  cases hprepare : prepareGroups graph groups with
  | error e =>
    unfold iteratedCut at hseed
    rw [hprepare] at hseed
    cases hseed
  | ok prepared =>
    obtain ⟨hwell, hsame⟩ := prepareGroups_eq_ok hprepare
    cases prepared with
    | nil =>
      have hempty : (exactCut passLimit budget cancelled graph groups).result = .ok .empty := by
        unfold exactCut
        rw [hprepare]
        rfl
      refine ⟨.empty, hempty, ?_, Nat.zero_le _, fun _ _ _ _ => Nat.zero_le _⟩
      refine (separatesAll_iff hg hwell).mpr fun g hmem => ?_
      exact absurd ((hsame g).mpr hmem) List.not_mem_nil
    | cons group rest =>
      have hprepared : ∀ g ∈ group :: rest, g.WellPosed graph.size := fun g hmem =>
        hwell g ((hsame g).mp hmem)
      obtain rfl := not_cancelled_of_iteratedCut hprepare hseed
      rw [← iteratedCut_prepared hprepare] at hseed
      obtain ⟨solution, hsolve, hle, hoptimal⟩ := exists_lightest hg hprepared budget seed
      obtain ⟨hresult, hlog⟩ := exactCut_of_solve hprepare hseed hsolve
      have hseparated := (exactCut_separatesAll hg hresult).separated
      refine ⟨_, hresult, (separatesAll_iff hg hwell).mpr hseparated, hle, ?_⟩
      intro hquiet other hfinite hother
      have hflag : solution.optimal = true := by
        by_contra hnot
        rw [if_neg hnot] at hlog
        rw [hlog] at hquiet
        exact hquiet _ (List.mem_append_right _ List.mem_cons_self)
      refine hoptimal hflag other hfinite fun g hmem => ?_
      exact (separatesAll_iff hg hwell).mp hother g ((hsame g).mp hmem)

/-- The last edge serves both groups, but each of the first two serves one of them for less. -/
def servingEdge : WeightedGraph :=
  (WeightedGraph.withNodes 4).putAll [(⟨0, 1⟩, 2), (⟨1, 2⟩, 3), (⟨3, 1⟩, 2)]

def servingGroups : List WaypointGroup :=
  [⟨[.singleton 0, .singleton 2]⟩, ⟨[.singleton 3, .singleton 2]⟩]

/-- Cutting the groups in turn takes two edges of weight 4, and the exact search one of weight 3. -/
theorem exactCut_servingEdge :
    (iteratedCut 64 false .initial servingEdge.digraph servingGroups).outcome.result =
        .ok (.ofList [⟨0, 1⟩, ⟨3, 1⟩]) ∧
      ∃ cut, (exactCut 64 10000 false servingEdge.digraph servingGroups).result = .ok cut ∧
        separatesAll servingEdge.digraph cut.toList servingGroups = true ∧
        cutWeight servingEdge.digraph cut.toList ≤ 3 := by
  have hrun : (iteratedCut 64 false .initial servingEdge.digraph servingGroups).outcome =
      ⟨.ok (.ofList [⟨0, 1⟩, ⟨3, 1⟩]), []⟩ := by
    cbv
  have hseed := congrArg Recorded.result hrun
  have hsolve : (LabelProblem.encode servingEdge.digraph servingGroups).solve 10000
      (.ofList ((AscSet.ofList [⟨0, 1⟩, ⟨3, 1⟩] : Cut).toList.filterMap
        (LabelProblem.encode servingEdge.digraph servingGroups).edgeIndex?)) false =
      .ok ⟨.singleton 1, true⟩ := by
    cbv
  have hprepare : prepareGroups servingEdge.digraph servingGroups = .ok servingGroups := by
    cbv
  have hquiet := (exactCut_of_solve hprepare hseed hsolve).2
  have hother : separatesAll servingEdge.digraph [⟨1, 2⟩] servingGroups = true := by
    cbv
  obtain ⟨cut, hresult, hseparates, -, hoptimal⟩ := exactCut_optimal servingEdge.digraph
    servingEdge.digraph_consistent servingGroups 64 10000 false .initial _ hseed
  refine ⟨hseed, cut, hresult, hseparates, ?_⟩
  refine hoptimal ?_ (.singleton ⟨1, 2⟩) ?_ hother
  · intro weight hwarned
    rw [hquiet] at hwarned
    change _ ∈ (iteratedCut 64 false .initial servingEdge.digraph servingGroups).outcome.log ++
      [] at hwarned
    rw [hrun] at hwarned
    exact absurd hwarned List.not_mem_nil
  · intro e he
    rw [AscSet.mem_singleton.mp he]
    decide +kernel

end Strategies

end SpecFence
