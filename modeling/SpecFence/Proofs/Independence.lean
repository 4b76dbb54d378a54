import SpecFence.Proofs.Convergence

/-!
# Independent groups

Two lists of groups are apart when no edge is of use to a group of each.  Then the parts of one list
take away only edges that the other has no use for, so one sweep over all groups is a sweep over
each list, in whatever order the groups come, and the joint run settles once both runs have settled.
A lightest cut of all groups falls apart into lightest cuts of the two lists.
-/

set_option autoImplicit false

namespace SpecFence

open Relation

/-- No edge is of use to a group of each list. -/
def Apart (g : Digraph) (as bs : List WaypointGroup) : Prop :=
  ∀ x ∈ as, ∀ y ∈ bs, ∀ u v, x.Uses g u v → ¬ y.Uses g u v

theorem Apart.symm {g : Digraph} {as bs : List WaypointGroup} (h : Apart g as bs) :
    Apart g bs as :=
  fun y hy x hx u v hyuv hxuv => h x hx y hy u v hxuv hyuv

namespace Assignment

variable {g : Digraph} {groups as bs rest : List WaypointGroup} {p q next : Assignment}
  {group : WaypointGroup}

section Useful

theorem uses_of_remaining {u v : Node} (h : group.Uses (p.remaining g groups group) u v) :
    group.Uses g u v := by
  have hreach : ∀ {a b : Node}, ReflTransGen (p.remaining g groups group).Joins a b →
      ReflTransGen g.Joins a b := fun hab =>
    ReflTransGen.mono (fun _ _ hjoin => (joins_remaining hjoin).1) _ _ hab
  obtain ⟨hjoin, ⟨s, hs, hfrom⟩, t, ht, hto⟩ := h
  exact ⟨(joins_remaining hjoin).1, ⟨s, hs, hreach hfrom⟩, t, ht, hreach hto⟩

structure Useful (g : Digraph) (groups : List WaypointGroup) (part : Assignment) : Prop where
  within : part.Within groups
  uses : ∀ x, ∀ e ∈ part x, x.Uses g e.src e.dst

theorem useful_empty (g : Digraph) (groups : List WaypointGroup) : Useful g groups .empty :=
  ⟨fun _ _ => rfl, fun _ e he => absurd he (AscSet.not_mem_empty e)⟩

theorem Useful.update (h : p.Useful g groups) (hg : g.Consistent) (hgroup : group ∈ groups)
    (hwell : group.WellPosed g.size) {cut : Cut}
    (hcut : minCutGroup (p.remaining g groups group) group false = .ok cut) :
    Useful g groups (Function.update p group cut) := by
  refine ⟨h.within.update hgroup cut, fun x e he => ?_⟩
  by_cases hx : x = group
  · subst hx
    rw [Function.update_self] at he
    rw [← size_remaining g groups p x] at hwell
    exact uses_of_remaining (minCutGroup_uses (remaining_consistent hg groups p x) hwell hcut he)
  · rw [Function.update_of_ne hx] at he
    exact h.uses x e he

theorem Useful.sweep (h : p.Useful g groups) (hg : g.Consistent)
    (hwell : ∀ x ∈ groups, x.WellPosed g.size) (hsub : ∀ x ∈ rest, x ∈ groups)
    (hsweep : p.sweep g groups rest = .ok next) : next.Useful g groups := by
  induction rest generalizing p with
  | nil =>
    cases hsweep
    exact h
  | cons x rest ih =>
    obtain ⟨cut, hcut, hrest⟩ := sweep_cons_eq_ok_iff.mp hsweep
    have hx := hsub x List.mem_cons_self
    exact ih (h.update hg hx (hwell x hx) hcut) (fun y hy => hsub y (List.mem_cons_of_mem x hy))
      hrest

theorem useful_of_steps {seq : Nat → Assignment} {last : Nat}
    (h : Settles (fun p => p.sweep g groups groups) seq last) (hg : g.Consistent)
    (hwell : ∀ x ∈ groups, x.WellPosed g.size) (hstart : (seq 0).Useful g groups) :
    ∀ i ≤ last, (seq i).Useful g groups := by
  intro i hi
  induction i with
  | zero => exact hstart
  | succ i ih => exact (ih (by omega)).sweep hg hwell (fun _ hx => hx) (h.steps i (by omega))

end Useful

section Join

def join (p q : Assignment) : Assignment := fun x => p x ∪ q x

theorem mem_join {e : Edge} : e ∈ p.join q group ↔ e ∈ p group ∨ e ∈ q group := AscSet.mem_union

theorem join_comm (p q : Assignment) : p.join q = q.join p := by
  funext x
  ext e
  rw [mem_join, mem_join, or_comm]

theorem mem_of_within (h : p.Within groups) {e : Edge} (he : e ∈ p group) : group ∈ groups := by
  by_contra hout
  rw [h group hout] at he
  exact AscSet.not_mem_empty e he

theorem eq_of_join_eq {p' q' : Assignment} (hapart : Apart g as bs) (hp : p.Useful g as)
    (hp' : p'.Useful g as) (hq : q.Useful g bs) (hq' : q'.Useful g bs)
    (h : p.join q = p'.join q') : p = p' := by
  have hsub : ∀ {p p' q q' : Assignment}, p.Useful g as → q'.Useful g bs →
      p.join q = p'.join q' → ∀ x, ∀ e ∈ p x, e ∈ p' x := by
    intro p p' q q' hp hq' h x e he
    have hmem : e ∈ p'.join q' x := by
      rw [← h]
      exact mem_join.mpr (Or.inl he)
    refine (mem_join.mp hmem).resolve_right fun hother => ?_
    exact hapart x (mem_of_within hp.within he) x (mem_of_within hq'.within hother) _ _
      (hp.uses x e he) (hq'.uses x e hother)
  funext x
  ext e
  exact ⟨hsub hp hq' h x e, hsub hp' hq h.symm x e⟩

theorem spared_join (hapart : Apart g as bs) (hp : p.Useful g as) (hq : q.Useful g bs)
    (has : ∀ x ∈ as, x ∈ groups) (hgroup : group ∈ as) :
    group.Spared (p.remaining g as group) ((p.join q).remaining g groups group) := by
  refine ⟨?_, fun u v => ?_, fun u v huses => ?_⟩
  · rw [size_remaining, size_remaining]
  · by_cases hheld : HeldByOther as p group ⟨u, v⟩
    · obtain ⟨y, hy, hne, hmem⟩ := hheld
      exact Or.inl (weight_remaining_of_held ⟨y, has y hy, hne, mem_join.mpr (Or.inl hmem)⟩)
    · rw [weight_remaining_of_free hheld]
      exact weight_remaining g groups (p.join q) group u v
  · have hfree := (joins_remaining huses.joins).2
    rw [weight_remaining_of_free hfree, weight_remaining_of_free]
    rintro ⟨y, -, hne, hmem⟩
    rcases mem_join.mp hmem with hmem | hmem
    · exact hfree ⟨y, mem_of_within hp.within hmem, hne, hmem⟩
    · exact hapart group hgroup y (mem_of_within hq.within hmem) u v (uses_of_remaining huses)
        (hq.uses y _ hmem)

/-- One side at the turn of a group: if the group is on this side, it gets the part that it also
gets among all groups, and otherwise it holds nothing. -/
theorem exists_side_turn (hg : g.Consistent) (hwell : ∀ x ∈ as, x.WellPosed g.size)
    (hapart : Apart g as bs) (hp : p.Useful g as) (hq : q.Useful g bs)
    (has : ∀ x ∈ as, x ∈ groups)
    (hsweep : p.sweep g as ((group :: rest).filter (· ∈ as)) = .ok next) :
    ∃ p' : Assignment, p'.sweep g as (rest.filter (· ∈ as)) = .ok next ∧ p'.Useful g as ∧
      (∀ x, x ≠ group → p' x = p x) ∧
      (group ∈ as →
        minCutGroup ((p.join q).remaining g groups group) group false = .ok (p' group)) ∧
      (group ∉ as → p' group = .empty) := by
  by_cases hgroup : group ∈ as
  · rw [List.filter_cons_of_pos (by simpa using hgroup)] at hsweep
    obtain ⟨cut, hcut, hrest⟩ := sweep_cons_eq_ok_iff.mp hsweep
    refine ⟨_, hrest, hp.update hg hgroup (hwell group hgroup) hcut,
      fun x hx => Function.update_of_ne hx _ _, fun _ => ?_, fun hout => absurd hgroup hout⟩
    rw [Function.update_self]
    refine minCutGroup_spared (remaining_consistent hg as p group)
      (remaining_consistent hg groups _ group) ?_ (spared_join hapart hp hq has hgroup) hcut
    rw [size_remaining]
    exact hwell group hgroup
  · rw [List.filter_cons_of_neg (by simpa using hgroup)] at hsweep
    exact ⟨p, hsweep, hp, fun _ _ => rfl, fun hin => absurd hin hgroup, hp.within group⟩

theorem sweep_join {next' : Assignment} (hg : g.Consistent)
    (hwell : ∀ x ∈ as, x.WellPosed g.size) (hwell' : ∀ x ∈ bs, x.WellPosed g.size)
    (hapart : Apart g as bs) (hp : p.Useful g as) (hq : q.Useful g bs)
    (has : ∀ x ∈ as, x ∈ groups) (hbs : ∀ x ∈ bs, x ∈ groups)
    (hrest : ∀ x ∈ rest, x ∈ as ∨ x ∈ bs)
    (hsweep : p.sweep g as (rest.filter (· ∈ as)) = .ok next)
    (hsweep' : q.sweep g bs (rest.filter (· ∈ bs)) = .ok next') :
    (p.join q).sweep g groups rest = .ok (next.join next') := by
  induction rest generalizing p q with
  | nil =>
    cases hsweep
    cases hsweep'
    rfl
  | cons group rest ih =>
    obtain ⟨p', hnext, hp', hkept, hcut, hnone⟩ :=
      exists_side_turn hg hwell hapart hp hq has hsweep
    obtain ⟨q', hnext', hq', hkept', hcut', hnone'⟩ :=
      exists_side_turn hg hwell' hapart.symm hq hp hbs hsweep'
    rw [join_comm q p] at hcut'
    have hall := ih hp' hq' (fun x hx => hrest x (List.mem_cons_of_mem group hx)) hnext hnext'
    have hjoint : minCutGroup ((p.join q).remaining g groups group) group false =
        .ok (p'.join q' group) := by
      unfold join
      by_cases hgroup : group ∈ as
      · by_cases hgroup' : group ∈ bs
        · have hsame : p' group = q' group :=
            Except.ok.inj ((hcut hgroup).symm.trans (hcut' hgroup'))
          rw [← hsame]
          refine (hcut hgroup).trans (congrArg Except.ok (AscSet.ext fun e => ?_))
          rw [AscSet.mem_union, or_self]
        · rw [hnone' hgroup']
          refine (hcut hgroup).trans (congrArg Except.ok (AscSet.ext fun e => ?_))
          simp
      · rw [hnone hgroup]
        have hgroup' := (hrest group List.mem_cons_self).resolve_left hgroup
        refine (hcut' hgroup').trans (congrArg Except.ok (AscSet.ext fun e => ?_))
        simp
    refine sweep_cons_eq_ok_iff.mpr ⟨_, hjoint, ?_⟩
    have hupdate : Function.update (p.join q) group (p'.join q' group) = p'.join q' := by
      funext x
      by_cases hx : x = group
      · rw [hx, Function.update_self]
      · rw [Function.update_of_ne hx]
        unfold join
        rw [hkept x hx, hkept' x hx]
    rw [hupdate]
    exact hall

end Join

end Assignment

section Settling

variable {g : Digraph} {groups as bs : List WaypointGroup} {p q : Assignment}

theorem Settles.step_min {α : Type} {step : α → Except CutError α} {seq : Nat → α} {last : Nat}
    (h : Settles step seq last) (i : Nat) :
    step (seq (min i last)) = .ok (seq (min (i + 1) last)) := by
  rcases Nat.lt_or_ge i last with hlt | hge
  · rw [Nat.min_eq_left hlt.le, Nat.min_eq_left hlt]
    exact h.steps i hlt
  · rw [Nat.min_eq_right hge, Nat.min_eq_right (hge.trans (Nat.le_succ i))]
    exact h.settled

theorem settlesAt_join {limit : Nat} (hg : g.Consistent) (hwell : ∀ x ∈ as, x.WellPosed g.size)
    (hwell' : ∀ x ∈ bs, x.WellPosed g.size) (hapart : Apart g as bs)
    (has : groups.filter (· ∈ as) = as) (hbs : groups.filter (· ∈ bs) = bs)
    (hgroups : ∀ x ∈ groups, x ∈ as ∨ x ∈ bs) (hp : SettlesAt g as limit p)
    (hq : SettlesAt g bs limit q) : SettlesAt g groups limit (p.join q) := by
  obtain ⟨seq, last, hlast, hstart, hseq, rfl⟩ := hp
  obtain ⟨seq', last', hlast', hstart', hseq', rfl⟩ := hq
  have huseful := Assignment.useful_of_steps hseq hg hwell
    (hstart ▸ Assignment.useful_empty g as)
  have huseful' := Assignment.useful_of_steps hseq' hg hwell'
    (hstart' ▸ Assignment.useful_empty g bs)
  have hsub : ∀ x ∈ as, x ∈ groups := fun x hx => List.mem_of_mem_filter (has.symm ▸ hx)
  have hsub' : ∀ x ∈ bs, x ∈ groups := fun x hx => List.mem_of_mem_filter (hbs.symm ▸ hx)
  have hstep : ∀ i, ((seq (min i last)).join (seq' (min i last'))).sweep g groups groups =
      .ok ((seq (min (i + 1) last)).join (seq' (min (i + 1) last'))) := by
    intro i
    refine Assignment.sweep_join hg hwell hwell' hapart (huseful _ (Nat.min_le_right _ _))
      (huseful' _ (Nat.min_le_right _ _)) hsub hsub' hgroups ?_ ?_
    · rw [has]
      exact hseq.step_min i
    · rw [hbs]
      exact hseq'.step_min i
  have hend : ∀ i, max last last' ≤ i →
      (seq (min i last)).join (seq' (min i last')) = (seq last).join (seq' last') := by
    intro i hi
    rw [Nat.min_eq_right (by omega), Nat.min_eq_right (by omega)]
  refine ⟨fun i => (seq (min i last)).join (seq' (min i last')), max last last', by omega, ?_,
    ⟨fun i _ => hstep i, ?_, ?_⟩, hend _ (Nat.le_refl _)⟩
  · simp only [Nat.zero_min, hstart, hstart']
    funext x
    ext e
    simp [Assignment.mem_join, Assignment.empty]
  · rw [hstep, hend _ (Nat.le_succ _), hend _ (Nat.le_refl _)]
  · -- one of the two sides has not settled before the later index, so it tells the two apart
    intro i j hij hj heq
    have hi := huseful _ (Nat.min_le_right i last)
    have hi' := huseful' _ (Nat.min_le_right i last')
    have hj' := huseful _ (Nat.min_le_right j last)
    have hj'' := huseful' _ (Nat.min_le_right j last')
    rcases Nat.le_or_ge last' last with hle | hle
    · have hsame := Assignment.eq_of_join_eq hapart hi hj' hi' hj'' heq
      rw [Nat.min_eq_left (by omega), Nat.min_eq_left (by omega)] at hsame
      exact hseq.fresh i j hij (by omega) hsame
    · rw [Assignment.join_comm, Assignment.join_comm (seq (min j last))] at heq
      have hsame := Assignment.eq_of_join_eq hapart.symm hi' hj'' hi hj' heq
      rw [Nat.min_eq_left (by omega), Nat.min_eq_left (by omega)] at hsame
      exact hseq'.fresh i j hij (by omega) hsame

theorem SettlesAt.within {limit : Nat} (h : SettlesAt g groups limit p) : p.Within groups := by
  obtain ⟨seq, last, -, hstart, hseq, rfl⟩ := h
  exact Assignment.within_of_steps hseq (fun _ _ => by rw [hstart]; rfl) last (Nat.le_refl last)

theorem filter_prepared (hsub : ∀ x ∈ as, x ∈ groups) :
    (AscSet.ofList groups).toList.filter (· ∈ (AscSet.ofList as).toList) =
      (AscSet.ofList as).toList := by
  refine Ascending.eq_of_mem_iff ((AscSet.ofList groups).ascending.filter _)
    (AscSet.ofList as).ascending fun x => ?_
  rw [List.mem_filter, decide_eq_true_eq, and_iff_right_iff_imp]
  intro hx
  exact AscSet.mem_ofList.mpr (hsub x (AscSet.mem_ofList.mp hx))

end Settling

section Lightest

variable {g : Digraph} {groups as bs : List WaypointGroup} {group : WaypointGroup}

theorem satisfiable_uses {size : Nat} (hwell : group.WellPosed size) {Q : Node → Node → Prop}
    (hQ : ∀ a b, Q a b → g.Joins a b) (h : group.Satisfiable Q) :
    group.Satisfiable fun a b => Q a b ∧ group.Uses g a b := by
  obtain ⟨first, front, last, hstages, hfirst, hlast⟩ := LabelProblem.exists_ends hwell
  obtain ⟨first', rest, u, hstages', hu, hthreads⟩ := h
  rw [hstages] at hstages'
  cases hstages'
  have hbegins : group.Begins g u := by
    refine ⟨u, ?_, ReflTransGen.refl⟩
    rw [hfirst]
    exact hu
  obtain ⟨-, hwithin⟩ := Threads.within (group.Begins g)
    (fun a b ha hab => ha.trans (ReflTransGen.single (hQ a b hab))) hbegins hthreads
  refine ⟨first, front ++ [last], u, hstages, hu, hwithin.mono ?_⟩
  rintro a b ⟨hab, ha, t, ht, hbt⟩
  refine ⟨hab, hQ a b hab, ha, t, ?_, ReflTransGen.mono hQ _ _ hbt⟩
  rw [hlast]
  exact ht

theorem mem_relevantEdges (hg : g.Consistent) (hwell : group.WellPosed g.size)
    (hgroup : group ∈ groups) {u v : Node} (h : group.Uses g u v) :
    ((⟨u, v⟩ : Edge), g.weight u v) ∈ LabelProblem.relevantEdges g groups := by
  obtain ⟨hjoin, ⟨s, hs, hsu⟩, t, ht, hvt⟩ := h
  obtain ⟨first, front, last, hstages, hfirst, hlast⟩ := LabelProblem.exists_ends hwell
  have hbound := hwell.bound
  rw [hstages] at hbound
  have hslt : s < g.size := by
    rw [hfirst] at hs
    exact hbound first List.mem_cons_self s hs
  have htlt : t < g.size := by
    rw [hlast] at ht
    exact hbound last (by simp) t ht
  refine List.mem_filter.mpr ⟨(Digraph.mem_edges_iff hg).mpr ⟨hjoin, rfl⟩, ?_⟩
  refine Bool.and_eq_true_iff.mpr ⟨?_, ?_⟩
  · exact (Digraph.has_reachableFrom hg).mpr
      ⟨s, List.mem_flatMap.mpr ⟨group, hgroup, hs⟩, hslt, hsu⟩
  · exact (Digraph.has_reaching hg).mpr
      ⟨t, List.mem_flatMap.mpr ⟨group, hgroup, ht⟩, htlt, hvt⟩

theorem apart_of_relevantEdges (hg : g.Consistent) (has : ∀ x ∈ as, x.WellPosed g.size)
    (hbs : ∀ x ∈ bs, x.WellPosed g.size)
    (h : ∀ e ∈ LabelProblem.relevantEdges g as, e ∉ LabelProblem.relevantEdges g bs) :
    Apart g as bs :=
  fun x hx y hy _ _ hxuv hyuv =>
    h _ (mem_relevantEdges hg (has x hx) hx hxuv) (mem_relevantEdges hg (hbs y hy) hy hyuv)

/-- The exact search ends on a cut and does not say that its budget ran out. -/
def ProvesLightest (graph : Digraph) (groups : List WaypointGroup) (cut : Cut) : Prop :=
  ∃ passLimit budget cancelled,
    (exactCut passLimit budget cancelled graph groups).result = .ok cut ∧
      ∀ weight, budgetWarning weight ∉ (exactCut passLimit budget cancelled graph groups).log

/-- What the exact search proves lightest is no heavier than any finite edges that leave no walk for
the groups. -/
theorem ProvesLightest.le (hg : g.Consistent) {cut other : Cut} (h : ProvesLightest g groups cut)
    (hother : SeparatesAll g groups other) : cutWeight g cut.toList ≤ cutWeight g other.toList := by
  obtain ⟨passLimit, budget, cancelled, hresult, hquiet⟩ := h
  obtain ⟨prepared, hprepare, hrest⟩ := Recorded.bind_result_eq_ok_iff.mp hresult
  obtain ⟨hwell, hsame⟩ := prepareGroups_eq_ok hprepare
  cases prepared with
  | nil =>
    cases Recorded.pure_result_eq_ok_iff.mp hrest
    exact Nat.zero_le _
  | cons group rest =>
    obtain ⟨seed, hseed, -⟩ := Recorded.bind_result_eq_ok_iff.mp hrest
    obtain rfl := not_cancelled_of_iteratedCut (prepareGroups_idem hprepare) hseed
    obtain ⟨solution, hsolve, -, hoptimal⟩ := exists_lightest hg
      (fun x hx => hwell x ((hsame x).mp hx)) budget seed
    obtain ⟨hfound, hlog⟩ := exactCut_of_solve hprepare hseed hsolve
    have hflag : solution.optimal = true := by
      by_contra hnot
      rw [if_neg hnot] at hlog
      rw [hlog] at hquiet
      exact hquiet _ (List.mem_append_right _ List.mem_cons_self)
    rw [hfound] at hresult
    cases hresult
    exact hoptimal hflag other (fun e he => (hother.finite e he).2)
      fun x hx => hother.separated x ((hsame x).mp hx)

theorem ProvesLightest.separatesAll (hg : g.Consistent) {cut : Cut}
    (h : ProvesLightest g groups cut) : SeparatesAll g groups cut := by
  obtain ⟨passLimit, budget, cancelled, hresult, -⟩ := h
  exact exactCut_separatesAll hg hresult

theorem exists_useful_part (g : Digraph) (groups : List WaypointGroup) (cut : Cut) :
    ∃ part : Cut, ∀ e, e ∈ part ↔ e ∈ cut ∧ ∃ x ∈ groups, x.Uses g e.src e.dst := by
  classical
  refine ⟨cut.filter fun e => decide (∃ x ∈ groups, x.Uses g e.src e.dst), fun e => ?_⟩
  rw [AscSet.mem_filter, decide_eq_true_eq]

theorem separatesAll_useful (hwell : ∀ x ∈ as, x.WellPosed g.size) (hsub : ∀ x ∈ as, x ∈ groups)
    {cut part : Cut} (h : SeparatesAll g groups cut)
    (hpart : ∀ e, e ∈ part ↔ e ∈ cut ∧ ∃ x ∈ as, x.Uses g e.src e.dst) :
    SeparatesAll g as part := by
  refine ⟨fun e he => h.finite e ((hpart e).mp he).1, fun x hx hsatisfiable => ?_⟩
  refine h.separated x (hsub x hx) ?_
  refine (satisfiable_uses (hwell x hx) (fun a b hab => hab.1) hsatisfiable).mono ?_
  rintro a b ⟨⟨hjoin, hfree⟩, huses⟩
  exact ⟨hjoin, fun hcut => hfree ((hpart _).mpr ⟨hcut, x, hx, huses⟩)⟩

theorem SeparatesAll.union {cut cut' : Cut} (h : SeparatesAll g as cut)
    (h' : SeparatesAll g bs cut') (hgroups : ∀ x ∈ groups, x ∈ as ∨ x ∈ bs) :
    SeparatesAll g groups (cut ∪ cut') := by
  refine ⟨fun e he => ?_, fun x hx hsatisfiable => ?_⟩
  · rcases AscSet.mem_union.mp he with he | he
    · exact h.finite e he
    · exact h'.finite e he
  · rcases hgroups x hx with hx | hx
    · refine h.separated x hx (hsatisfiable.mono ?_)
      exact fun a b hab => ⟨hab.1, fun hmem => hab.2 (AscSet.mem_union.mpr (Or.inl hmem))⟩
    · refine h'.separated x hx (hsatisfiable.mono ?_)
      exact fun a b hab => ⟨hab.1, fun hmem => hab.2 (AscSet.mem_union.mpr (Or.inr hmem))⟩

theorem cutWeight_union_le (g : Digraph) (cut cut' : Cut) :
    cutWeight g (cut ∪ cut').toList ≤
      Weight.add (cutWeight g cut.toList) (cutWeight g cut'.toList) := by
  have hpairs : endPairs (cut ∪ cut') = endPairs cut ∪ endPairs cut' := by
    ext x
    rw [Finset.mem_union, mem_endPairs, mem_endPairs, mem_endPairs, AscSet.mem_union]
  have hsum : ∑ x ∈ endPairs cut ∪ endPairs cut', g.weight x.1 x.2 +
      ∑ x ∈ endPairs cut ∩ endPairs cut', g.weight x.1 x.2 =
        ∑ x ∈ endPairs cut, g.weight x.1 x.2 + ∑ x ∈ endPairs cut', g.weight x.1 x.2 :=
    Finset.sum_union_inter
  unfold Weight.add
  rw [cutWeight_eq, cutWeight_eq, cutWeight_eq, hpairs]
  omega

theorem add_cutWeight_le (g : Digraph) {cut part part' : Cut} (hpart : ∀ e ∈ part, e ∈ cut)
    (hpart' : ∀ e ∈ part', e ∈ cut) (hdisjoint : ∀ e ∈ part, e ∉ part') :
    Weight.add (cutWeight g part.toList) (cutWeight g part'.toList) ≤ cutWeight g cut.toList := by
  have hsub : endPairs part ∪ endPairs part' ⊆ endPairs cut := by
    intro x hx
    rcases Finset.mem_union.mp hx with hx | hx
    · exact mem_endPairs.mpr (hpart _ (mem_endPairs.mp hx))
    · exact mem_endPairs.mpr (hpart' _ (mem_endPairs.mp hx))
  have hapart : Disjoint (endPairs part) (endPairs part') := by
    rw [Finset.disjoint_left]
    exact fun x hx hx' => hdisjoint _ (mem_endPairs.mp hx) (mem_endPairs.mp hx')
  have hsum := Finset.sum_le_sum_of_subset (f := fun x => g.weight x.1 x.2) hsub
  rw [Finset.sum_union hapart] at hsum
  unfold Weight.add
  rw [cutWeight_eq, cutWeight_eq, cutWeight_eq]
  omega

theorem lightest_add (hg : g.Consistent) (has : ∀ x ∈ as, x.WellPosed g.size)
    (hbs : ∀ x ∈ bs, x.WellPosed g.size) (hapart : Apart g as bs)
    (hgroups : ∀ x, x ∈ groups ↔ x ∈ as ∨ x ∈ bs) {cutA cutB cut : Cut}
    (hA : ProvesLightest g as cutA) (hB : ProvesLightest g bs cutB)
    (hcut : ProvesLightest g groups cut) :
    cutWeight g cut.toList = Weight.add (cutWeight g cutA.toList) (cutWeight g cutB.toList) := by
  have hall := hcut.separatesAll hg
  refine Nat.le_antisymm ?_ ?_
  · refine (hcut.le hg ?_).trans (cutWeight_union_le g cutA cutB)
    exact (hA.separatesAll hg).union (hB.separatesAll hg) fun x hx => (hgroups x).mp hx
  · obtain ⟨partA, hpartA⟩ := exists_useful_part g as cut
    obtain ⟨partB, hpartB⟩ := exists_useful_part g bs cut
    have hleA := hA.le hg (separatesAll_useful has
      (fun x hx => (hgroups x).mpr (Or.inl hx)) hall hpartA)
    have hleB := hB.le hg (separatesAll_useful hbs
      (fun x hx => (hgroups x).mpr (Or.inr hx)) hall hpartB)
    refine Nat.le_trans ?_ (add_cutWeight_le g (fun e he => ((hpartA e).mp he).1)
      (fun e he => ((hpartB e).mp he).1) fun e he he' => ?_)
    · unfold Weight.add
      omega
    · obtain ⟨-, x, hx, huses⟩ := (hpartA e).mp he
      obtain ⟨-, y, hy, huses'⟩ := (hpartB e).mp he'
      exact hapart x hx y hy _ _ huses huses'

end Lightest

/-- Groups that share no relevant edge are cut as if they were alone.  When cutting in turn
converges on each of two such lists, it converges within the same limit on all groups in any order,
with the two cuts together; and when the exact search proves its cuts of the lists and of all groups
lightest, the joint cut weighs what the two weigh together. -/
theorem cuts_of_independent_groups (graph : Digraph) (hg : graph.Consistent)
    (as bs joint : List WaypointGroup) (hvalid : ∀ x ∈ as ++ bs, x.fault? graph.size = none)
    (hjoint : joint.Perm (as ++ bs))
    (hapart : ∀ e ∈ LabelProblem.relevantEdges graph as,
      e ∉ LabelProblem.relevantEdges graph bs) :
    (∀ (limit : Nat) (cancelled : Bool) (before before' before'' : CutProgress) (cutA cutB : Cut),
      (iteratedCut limit cancelled before graph as).outcome.result = .ok cutA →
      (iteratedCut limit cancelled before graph as).progress.converged = true →
      (iteratedCut limit cancelled before' graph bs).outcome.result = .ok cutB →
      (iteratedCut limit cancelled before' graph bs).progress.converged = true →
        (iteratedCut limit cancelled before'' graph joint).outcome.result = .ok (cutA ∪ cutB) ∧
        (iteratedCut limit cancelled before'' graph joint).progress.converged = true) ∧
    ∀ cutA cutB cut : Cut, ProvesLightest graph as cutA → ProvesLightest graph bs cutB →
      ProvesLightest graph joint cut →
        cutWeight graph cut.toList =
          Weight.add (cutWeight graph cutA.toList) (cutWeight graph cutB.toList) := by
  have hmem : ∀ x, x ∈ joint ↔ x ∈ as ∨ x ∈ bs := fun x => hjoint.mem_iff.trans List.mem_append
  have has : ∀ x ∈ as, x.WellPosed graph.size := fun x hx =>
    WaypointGroup.wellPosed_of_fault? (hvalid x (List.mem_append_left bs hx))
  have hbs : ∀ x ∈ bs, x.WellPosed graph.size := fun x hx =>
    WaypointGroup.wellPosed_of_fault? (hvalid x (List.mem_append_right as hx))
  have huses := apart_of_relevantEdges hg has hbs hapart
  refine ⟨?_, fun cutA cutB cut hA hB hcut => lightest_add hg has hbs huses hmem hA hB hcut⟩
  intro limit cancelled before before' before'' cutA cutB hA hconvergedA hB hconvergedB
  obtain ⟨_, p, hprepareA, hcancelA, hp, hcutA⟩ :=
    (iteratedCut_converged_iff hg).mp ⟨hA, hconvergedA⟩
  obtain ⟨_, q, hprepareB, hcancelB, hq, hcutB⟩ :=
    (iteratedCut_converged_iff hg).mp ⟨hB, hconvergedB⟩
  obtain ⟨-, rfl⟩ := prepareGroups_eq_ok_iff.mp hprepareA
  obtain ⟨-, rfl⟩ := prepareGroups_eq_ok_iff.mp hprepareB
  have hprepare : prepareGroups graph joint = .ok (AscSet.ofList joint).toList :=
    prepareGroups_eq_ok_iff.mpr ⟨fun x hx => hvalid x (hjoint.mem_iff.mp hx), rfl⟩
  have hin : ∀ {groups : List WaypointGroup} {x : WaypointGroup},
      x ∈ (AscSet.ofList groups).toList ↔ x ∈ groups := AscSet.mem_ofList
  refine (iteratedCut_converged_iff hg).mpr ⟨_, p.join q, hprepare, ?_, ?_, fun e => ?_⟩
  · rcases hcancelA with hfalse | hnil
    · exact Or.inl hfalse
    · refine hcancelB.imp_right fun hnil' => List.eq_nil_iff_forall_not_mem.mpr fun x hx => ?_
      rcases (hmem x).mp (hin.mp hx) with hx | hx
      · exact List.eq_nil_iff_forall_not_mem.mp hnil x (hin.mpr hx)
      · exact List.eq_nil_iff_forall_not_mem.mp hnil' x (hin.mpr hx)
  · refine settlesAt_join hg (fun x hx => has x (hin.mp hx)) (fun x hx => hbs x (hin.mp hx))
      (fun x hx y hy => huses x (hin.mp hx) y (hin.mp hy)) (filter_prepared fun x hx => ?_)
      (filter_prepared fun x hx => ?_) (fun x hx => ?_) hp hq
    · exact (hmem x).mpr (Or.inl hx)
    · exact (hmem x).mpr (Or.inr hx)
    · rw [hin, hin]
      exact (hmem x).mp (hin.mp hx)
  · rw [AscSet.mem_union, hcutA, hcutB]
    constructor
    · rintro (⟨x, hx, he⟩ | ⟨x, hx, he⟩)
      · exact ⟨x, hin.mpr ((hmem x).mpr (Or.inl (hin.mp hx))), Assignment.mem_join.mpr (Or.inl he)⟩
      · exact ⟨x, hin.mpr ((hmem x).mpr (Or.inr (hin.mp hx))), Assignment.mem_join.mpr (Or.inr he)⟩
    · rintro ⟨x, -, he⟩
      rcases Assignment.mem_join.mp he with he | he
      · exact Or.inl ⟨x, Assignment.mem_of_within hp.within he, he⟩
      · exact Or.inr ⟨x, Assignment.mem_of_within hq.within he, he⟩

def separateEdges : WeightedGraph :=
  (WeightedGraph.withNodes 4).putAll [(⟨0, 1⟩, 2), (⟨2, 3⟩, 3)]

theorem iteratedCut_separateEdges :
    let first := iteratedCut 64 false .initial separateEdges.digraph
      [⟨[.singleton 0, .singleton 1]⟩]
    let second := iteratedCut 64 false .initial separateEdges.digraph
      [⟨[.singleton 2, .singleton 3]⟩]
    (first.outcome.result, first.progress.converged) = (.ok (.singleton ⟨0, 1⟩), true) ∧
      (second.outcome.result, second.progress.converged) = (.ok (.singleton ⟨2, 3⟩), true) := by
  constructor
  · cbv
  · cbv

theorem exactCut_separateEdges :
    exactCut 64 100 false separateEdges.digraph [⟨[.singleton 0, .singleton 1]⟩] =
        ⟨.ok (.singleton ⟨0, 1⟩), []⟩ ∧
      exactCut 64 100 false separateEdges.digraph [⟨[.singleton 2, .singleton 3]⟩] =
        ⟨.ok (.singleton ⟨2, 3⟩), []⟩ := by
  constructor
  · cbv
  · cbv

/-- A group for the first edge and one for the second, cut alone and together: the joint cut has
both edges and weighs the sum of their weights. -/
theorem cuts_of_separateEdges :
    (iteratedCut 64 false .initial separateEdges.digraph
        [⟨[.singleton 2, .singleton 3]⟩, ⟨[.singleton 0, .singleton 1]⟩]).outcome.result =
      .ok (.ofList [⟨0, 1⟩, ⟨2, 3⟩]) ∧
    ∀ cut : Cut, ProvesLightest separateEdges.digraph
        [⟨[.singleton 2, .singleton 3]⟩, ⟨[.singleton 0, .singleton 1]⟩] cut →
      cutWeight separateEdges.digraph cut.toList = 5 := by
  have hvalid : ∀ x ∈ ([⟨[.singleton 0, .singleton 1]⟩] ++ [⟨[.singleton 2, .singleton 3]⟩] :
      List WaypointGroup), x.fault? separateEdges.digraph.size = none := by
    decide +kernel
  have hapart : ∀ e ∈ LabelProblem.relevantEdges separateEdges.digraph
      [⟨[.singleton 0, .singleton 1]⟩], e ∉ LabelProblem.relevantEdges separateEdges.digraph
        [⟨[.singleton 2, .singleton 3]⟩] := by
    have hfirst : LabelProblem.relevantEdges separateEdges.digraph
        [⟨[.singleton 0, .singleton 1]⟩] = [(⟨0, 1⟩, 2)] := by
      cbv
    have hsecond : LabelProblem.relevantEdges separateEdges.digraph
        [⟨[.singleton 2, .singleton 3]⟩] = [(⟨2, 3⟩, 3)] := by
      cbv
    rw [hfirst, hsecond]
    decide
  obtain ⟨hunion, hweight⟩ := cuts_of_independent_groups separateEdges.digraph
    separateEdges.digraph_consistent [⟨[.singleton 0, .singleton 1]⟩]
    [⟨[.singleton 2, .singleton 3]⟩]
    [⟨[.singleton 2, .singleton 3]⟩, ⟨[.singleton 0, .singleton 1]⟩] hvalid (.swap _ _ _) hapart
  obtain ⟨hfirst, hconverged⟩ := Prod.mk.inj iteratedCut_separateEdges.1
  obtain ⟨hsecond, hconverged'⟩ := Prod.mk.inj iteratedCut_separateEdges.2
  have hproves : ∀ (groups : List WaypointGroup) (cut : Cut),
      exactCut 64 100 false separateEdges.digraph groups = ⟨.ok cut, []⟩ →
        ProvesLightest separateEdges.digraph groups cut := by
    intro groups cut hrun
    exact ⟨64, 100, false, by rw [hrun], by simp [hrun]⟩
  refine ⟨?_, fun cut hcut => ?_⟩
  · exact (hunion 64 false .initial .initial .initial (.singleton ⟨0, 1⟩) (.singleton ⟨2, 3⟩)
      hfirst hconverged hsecond hconverged').1
  · exact (hweight (.singleton ⟨0, 1⟩) (.singleton ⟨2, 3⟩) cut
      (hproves _ _ exactCut_separateEdges.1) (hproves _ _ exactCut_separateEdges.2) hcut).trans
        (by decide +kernel)

end SpecFence
