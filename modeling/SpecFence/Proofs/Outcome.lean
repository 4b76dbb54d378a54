import SpecFence.Proofs.Optimality
import SpecFence.Proofs.Unbounded

/-!
# How cutting ends

As long as no flow problem exceeds the largest weight, the groups alone decide whether a cut is
found.  Cuts never hold infinite edges, so at every moment of a run a walk over infinite edges
satisfies a group exactly when it does so in the whole graph.  The first pass comes to every group
and finds such a group out; after it no flow is unbounded.  The exact search starts from the
cut of the same passes and does not fail.
-/

set_option autoImplicit false

namespace SpecFence

variable {g : Digraph} {groups rest : List WaypointGroup} {group : WaypointGroup}

theorem exists_first_not {α : Type} {p : α → Prop} {l : List α} (h : ¬ ∀ a ∈ l, p a) :
    ∃ before a after, l = before ++ a :: after ∧ (∀ x ∈ before, p x) ∧ ¬ p a := by
  classical
  cases hfind : l.find? fun a => decide (¬ p a) with
  | none =>
    rw [List.find?_eq_none] at hfind
    exact absurd (fun a ha => by simpa using hfind a ha) h
  | some a =>
    obtain ⟨ha, before, after, hsplit, hbefore⟩ := List.find?_eq_some_iff_append.mp hfind
    exact ⟨before, a, after, hsplit, fun x hx => by simpa using hbefore x hx, by simpa using ha⟩

def Inseparable (g : Digraph) (groups : List WaypointGroup) : Prop :=
  ∃ group ∈ groups, group.Satisfiable g.Infinite

def CutEvent.problem? : CutEvent → Option (Digraph × WaypointGroup)
  | .posed s group => some (s.overlay.digraph, group)
  | .reached _ | .passed _ => none

namespace CutRun

variable {α β : Type} {x : CutRun α} {f : α → CutRun β} {a : α}

/-- The flow problems of a stretch of a run stay within the largest weight. -/
def Fits (x : CutRun α) : Prop :=
  ∀ s group, .posed s group ∈ x.log → FlowFits s.overlay.digraph group

theorem Fits.of_bind (h : Fits (x >>= f)) : Fits x :=
  fun s group hmem => h s group (Recorded.mem_bind_log.mpr (Or.inl hmem))

theorem Fits.next (h : Fits (x >>= f)) (ha : x.result = .ok a) : Fits (f a) :=
  fun s group hmem => h s group (Recorded.mem_bind_log.mpr (Or.inr ⟨a, ha, hmem⟩))

end CutRun

namespace CutState

open CutRun

variable {s : CutState} {i : Nat}

section Steps

theorem Valid.infinite_eq (h : Valid g s) : s.overlay.digraph.Infinite = g.Infinite := by
  funext u v
  apply propext
  change Weight.infinite ≤ s.overlay.weight u v ↔ Weight.infinite ≤ g.weight u v
  rw [h.toTidy.weight]
  split
  · rfl
  · rename_i hheld
    rw [h.balanced] at hheld
    obtain ⟨part, hpart, hmem⟩ := List.countP_pos_iff.mp (Nat.pos_of_ne_zero hheld)
    have hfinite := (h.finite part hpart ⟨u, v⟩ (by simpa using hmem)).2
    have hpos := Layered.infinite_pos
    simp only at hfinite
    omega

theorem Valid.minCutGroup_cases (h : Valid g s) (hg : g.Consistent)
    (hwell : group.WellPosed g.size) (hfits : FlowFits s.overlay.digraph group) :
    (∃ cut, minCutGroup s.overlay.digraph group false = .ok cut ∧
      ¬ group.Satisfiable g.Infinite) ∨
    (minCutGroup s.overlay.digraph group false = .error .unboundedFlow ∧
      group.Satisfiable g.Infinite) := by
  rw [← h.infinite_eq]
  apply SpecFence.minCutGroup_cases (h.toTidy.consistent hg) _ hfits
  rw [h.toTidy.size]
  exact hwell

theorem Valid.recut_cases (h : Valid g s) (hg : g.Consistent) (hi : i < s.parts.length)
    (hwell : group.WellPosed g.size) (hfits : Fits (s.recut false i group)) :
    (∃ t changed, (s.recut false i group).result = .ok (t, changed) ∧ Valid g t ∧
      t.parts.length = s.parts.length ∧ ¬ group.Satisfiable g.Infinite) ∨
    ((s.recut false i group).result = .error .unboundedFlow ∧
      group.Satisfiable g.Infinite) := by
  have hposed : FlowFits (s.release i).overlay.digraph group := by
    apply hfits
    cases hcut : minCutGroup (s.release i).overlay.digraph group false with
    | error e => simp [recut_of_error hcut]
    | ok cut => simp [recut_of_ok hcut]
  rcases (h.release hi).1.minCutGroup_cases hg hwell hposed with ⟨cut, hcut, hout⟩ | ⟨hcut, hin⟩
  · left
    have hrecut := congrArg Recorded.result (recut_of_ok hcut)
    obtain ⟨hvalid, hlength, -⟩ := h.recut hg hi hwell hrecut
    exact ⟨_, _, hrecut, hvalid, hlength, hout⟩
  · right
    rw [recut_of_error hcut]
    exact ⟨rfl, hin⟩

theorem Valid.pass_cases (h : Valid g s) (hg : g.Consistent)
    (hi : i + rest.length ≤ s.parts.length) (hwell : ∀ x ∈ rest, x.WellPosed g.size)
    (hfits : Fits (s.pass false i rest)) :
    (∃ t changed, (s.pass false i rest).result = .ok (t, changed) ∧ Valid g t ∧
      t.parts.length = s.parts.length ∧ ¬ Inseparable g rest) ∨
    ((s.pass false i rest).result = .error .unboundedFlow ∧ Inseparable g rest) := by
  induction rest generalizing s i with
  | nil => exact Or.inl ⟨s, false, rfl, h, rfl, by simp [Inseparable]⟩
  | cons group rest ih =>
    rw [List.forall_mem_cons] at hwell
    rw [List.length_cons] at hi
    rw [CutState.pass] at hfits
    have hsplit : Inseparable g (group :: rest) ↔
        group.Satisfiable g.Infinite ∨ Inseparable g rest := by
      simp [Inseparable]
    rw [hsplit, pass_result_cons]
    rcases h.recut_cases hg (by omega) hwell.1 hfits.of_bind with
      ⟨t, changed, hrecut, hvalid, hlength, hout⟩ | ⟨hrecut, hin⟩
    · have hlater : Fits (t.pass false (i + 1) rest) := (hfits.next hrecut).of_bind
      rw [hrecut]
      rcases ih hvalid (by omega) hwell.2 hlater with
        ⟨u, changed', hpass, hvalid', hlength', hrest⟩ | ⟨hpass, hrest⟩
      · left
        refine ⟨u, changed || changed', ?_, hvalid', hlength'.trans hlength, ?_⟩
        · simp only [bind, Except.bind, hpass]
          rfl
        · exact fun hor => hor.elim hout hrest
      · right
        refine ⟨?_, Or.inr hrest⟩
        simp only [bind, Except.bind, hpass]
    · right
      rw [hrecut]
      exact ⟨rfl, Or.inl hin⟩

theorem Valid.exists_repair (h : Valid g s) (hg : g.Consistent)
    (hi : i + rest.length ≤ s.parts.length) (hwell : ∀ x ∈ rest, x.WellPosed g.size)
    (hfits : Fits (s.repair false i rest)) (hout : ¬ Inseparable g rest) :
    ∃ t, (s.repair false i rest).result = .ok t := by
  induction rest generalizing s i with
  | nil => exact ⟨s, rfl⟩
  | cons group rest ih =>
    rw [List.forall_mem_cons] at hwell
    rw [List.length_cons] at hi
    simp only [Inseparable, List.exists_mem_cons_iff, not_or] at hout
    have hposed : FlowFits s.overlay.digraph group := by
      apply hfits
      cases hcut : minCutGroup s.overlay.digraph group false with
      | error e => simp [repair_of_error hcut]
      | ok cut => simp [repair_of_ok hcut]
    rcases h.minCutGroup_cases hg hwell.1 hposed with ⟨cut, hcut, -⟩ | ⟨-, hin⟩
    · rw [repair_of_ok hcut] at hfits ⊢
      have hlater : Fits ((s.claim i cut).repair false (i + 1) rest) :=
        fun t x hmem => hfits t x (List.mem_cons_of_mem _ (List.mem_cons_of_mem _ hmem))
      have hlt : i < s.parts.length := by omega
      obtain ⟨hvalid, hparts⟩ := h.claim hlt (h.cut_separates hg hwell.1 hcut).finite
      have hlength : (s.claim i cut).parts.length = s.parts.length := by
        rw [hparts, List.length_set]
      exact ih hvalid (by omega) hwell.2 hlater hout.2
    · exact absurd hin hout.1

theorem Valid.passes_cases (h : Valid g s) (hg : g.Consistent)
    (hlength : s.parts.length = groups.length) (hwell : ∀ x ∈ groups, x.WellPosed g.size)
    {made left : Nat} {history : List (List Cut)}
    (hfits : Fits (s.passes false groups made history left)) :
    (∃ t made' ending, (s.passes false groups made history left).result = .ok (t, made', ending) ∧
      Valid g t ∧ t.parts.length = groups.length ∧ (0 < left → ¬ Inseparable g groups)) ∨
    ((s.passes false groups made history left).result = .error .unboundedFlow ∧
      Inseparable g groups) := by
  induction left generalizing s made history with
  | zero => exact Or.inl ⟨s, made, .limited, rfl, h, hlength, fun hpos => absurd hpos (by omega)⟩
  | succ left ih =>
    have hfirst : Fits (s.pass false 0 groups) := by
      rw [CutState.passes] at hfits
      exact fun t x hmem => hfits.of_bind t x (List.mem_append_left _ hmem)
    rcases h.pass_cases hg (by omega) hwell hfirst with
      ⟨t, changed, hpass, hvalid, hkept, hout⟩ | ⟨hpass, hin⟩
    · have hlength' : t.parts.length = groups.length := hkept.trans hlength
      rw [passes_result_eq hpass]
      by_cases hchanged : (!changed) = true
      · rw [if_pos hchanged]
        exact Or.inl ⟨t, made + 1, .converged, rfl, hvalid, hlength', fun _ => hout⟩
      · rw [if_neg hchanged]
        by_cases hseen : t.parts ∈ history
        · rw [if_pos hseen]
          exact Or.inl ⟨t, made + 1, .repeated, rfl, hvalid, hlength', fun _ => hout⟩
        · rw [if_neg hseen]
          have hlater : Fits (t.passes false groups (made + 1) (t.parts :: history) left) := by
            rw [CutState.passes] at hfits
            have hnext := hfits.next hpass
            simp only [if_neg hchanged, if_neg hseen] at hnext
            exact hnext
          rcases ih hvalid hlength' hlater with
            ⟨u, made', ending, hpasses, hvalid', hkept', -⟩ | ⟨-, hin⟩
          · exact Or.inl ⟨u, made', ending, hpasses, hvalid', hkept', fun _ => hout⟩
          · exact absurd hin hout
    · right
      rw [passes_eq_of_error hpass]
      exact ⟨rfl, hin⟩

end Steps

end CutState

section Runs

/-- The flow problems of cutting a list of groups.  Both strategies have the same: the exact search
starts from the cut of the passes and poses no other. -/
def flowProblems (g : Digraph) (groups : List WaypointGroup) (passLimit : Nat)
    (cancelled : Bool) : List (Digraph × WaypointGroup) :=
  (iteratedCut passLimit cancelled .initial g groups).events.filterMap CutEvent.problem?

theorem flowProblems_cancelled (g : Digraph) (groups : List WaypointGroup) (passLimit : Nat) :
    flowProblems g groups passLimit true = [] := by
  unfold flowProblems iteratedCut
  split
  · rfl
  · rfl
  · obtain ⟨left, hleft⟩ : ∃ left, max passLimit 1 = left + 1 := ⟨max passLimit 1 - 1, by omega⟩
    rw [hleft]
    rfl

theorem flowFits_of_capacities {problems : List (Digraph × WaypointGroup)}
    {capacities : List (Option Nat)}
    (h : problems.map (fun p => flowCapacity? p.1 p.2) = capacities)
    (hle : ∀ c ∈ capacities, ∀ n ∈ c, n ≤ Weight.limit) : ∀ p ∈ problems, FlowFits p.1 p.2 := by
  intro p hp
  apply hle
  rw [← h]
  exact List.mem_map_of_mem hp

theorem IteratedRun.ofPrepared_cases (hg : g.Consistent) (hwell : ∀ x ∈ groups, x.WellPosed g.size)
    {limit : Nat} (hlimit : 0 < limit)
    (hfits : ∀ p ∈ (ofPrepared limit false g groups).events.filterMap CutEvent.problem?,
      FlowFits p.1 p.2) :
    (∃ cut, (ofPrepared limit false g groups).outcome.result = .ok cut ∧
      ¬ Inseparable g groups) ∨
    ((ofPrepared limit false g groups).outcome.result = .error .unboundedFlow ∧
      Inseparable g groups) := by
  have hstart := CutState.Valid.start g groups.length
  have hlength : (CutState.start g groups.length).parts.length = groups.length :=
    List.length_replicate
  obtain ⟨hresult, hevents⟩ := ofPrepared_rounds limit false g groups
  have hall : CutRun.Fits ((CutState.start g groups.length).rounds limit false groups) := by
    intro s group hmem
    refine hfits (s.overlay.digraph, group) ?_
    rw [hevents]
    exact List.mem_filterMap.mpr ⟨_, hmem, rfl⟩
  unfold CutState.rounds at hall hresult
  rw [hresult]
  rcases hstart.passes_cases hg hlength hwell hall.of_bind with
    ⟨t, made, ending, hpasses, hvalid, hkept, hout⟩ | ⟨hpasses, hin⟩
  · have hout := hout hlimit
    have hlater := hall.next hpasses
    rw [Recorded.bind_eq_of_ok hpasses]
    simp only at hlater ⊢
    split at hlater
    · rename_i hconverged
      rw [if_pos hconverged]
      exact Or.inl ⟨_, rfl, hout⟩
    · rename_i hconverged
      obtain ⟨u, hu⟩ := hvalid.exists_repair hg (by omega) hwell hlater hout
      rw [if_neg hconverged, hu]
      exact Or.inl ⟨_, rfl, hout⟩
  · rw [Recorded.bind_eq_of_error hpasses]
    exact Or.inr ⟨rfl, hin⟩

theorem inseparable_congr {prepared : List WaypointGroup} (h : ∀ x, x ∈ prepared ↔ x ∈ groups) :
    Inseparable g prepared ↔ Inseparable g groups := by
  unfold Inseparable
  simp only [h]

theorem iteratedCut_cases (hg : g.Consistent) (hvalid : ∀ x ∈ groups, x.fault? g.size = none)
    {limit : Nat} (before : CutProgress)
    (hfits : ∀ p ∈ flowProblems g groups limit false, FlowFits p.1 p.2) :
    (∃ cut, (iteratedCut limit false before g groups).outcome.result = .ok cut ∧
      ¬ Inseparable g groups) ∨
    ((iteratedCut limit false before g groups).outcome.result = .error .unboundedFlow ∧
      Inseparable g groups) := by
  have hprepare := prepareGroups_eq_ok_iff.mpr ⟨hvalid, rfl⟩
  obtain ⟨hwell, hsame⟩ := prepareGroups_eq_ok hprepare
  rw [← inseparable_congr hsame]
  unfold flowProblems at hfits
  unfold iteratedCut at hfits ⊢
  rw [hprepare] at hfits ⊢
  generalize (AscSet.ofList groups).toList = prepared at *
  cases prepared with
  | nil => exact Or.inl ⟨.empty, rfl, by simp [Inseparable]⟩
  | cons group rest =>
    have hwell' : ∀ x ∈ group :: rest, x.WellPosed g.size := fun x hx => hwell x ((hsame x).mp hx)
    exact IteratedRun.ofPrepared_cases hg hwell' (by omega) hfits

theorem exactCut_cases (hg : g.Consistent) (hvalid : ∀ x ∈ groups, x.fault? g.size = none)
    {limit budget : Nat} (hfits : ∀ p ∈ flowProblems g groups limit false, FlowFits p.1 p.2) :
    (∃ cut, (exactCut limit budget false g groups).result = .ok cut ∧ ¬ Inseparable g groups) ∨
    ((exactCut limit budget false g groups).result = .error .unboundedFlow ∧
      Inseparable g groups) := by
  have hprepare := prepareGroups_eq_ok_iff.mpr ⟨hvalid, rfl⟩
  obtain ⟨hwell, hsame⟩ := prepareGroups_eq_ok hprepare
  have hiterated := iteratedCut_cases hg hvalid .initial hfits
  generalize (AscSet.ofList groups).toList = prepared at *
  cases hlist : prepared with
  | nil =>
    rw [hlist] at hprepare hsame
    refine Or.inl ⟨.empty, ?_, ?_⟩
    · unfold exactCut
      simp only [hprepare]
      rfl
    · rw [← inseparable_congr hsame]
      simp [Inseparable]
  | cons group rest =>
    rw [hlist] at hprepare hsame
    rw [← iteratedCut_prepared hprepare] at hiterated
    rcases hiterated with ⟨seed, hseed, hout⟩ | ⟨hseed, hin⟩
    · obtain ⟨solution, hsolve, -⟩ := exists_lightest hg
        (fun x hx => hwell x ((hsame x).mp hx)) budget seed
      exact Or.inl ⟨_, (exactCut_of_solve hprepare hseed hsolve).1, hout⟩
    · exact Or.inr ⟨exactCut_of_error hprepare hseed, hin⟩

theorem separate_result (hne : groups ≠ []) (settings : Settings) (cancelled : Bool) :
    (separate g groups settings cancelled).result =
      match settings.cutStrategy with
      | .iterated => (iteratedCut settings.passLimit cancelled .initial g groups).outcome.result
      | .exact =>
        (exactCut settings.passLimit settings.searchBudget cancelled g groups).result := by
  unfold separate
  rw [if_neg (by simpa using hne)]
  have hreport : ∀ (x : Logged CutError Cut) (level : LogLevel) (text : Cut → String),
      (x >>= fun cut => Logged.emit level (text cut) >>= fun _ => pure cut).result = x.result := by
    intro x level text
    rw [Recorded.bind_result]
    cases x.result with
    | error e => rfl
    | ok cut => rfl
  cases settings.cutStrategy with
  | iterated =>
    refine (hreport _ _ _).trans ?_
    unfold iteratedCutLogged
    rw [Recorded.bind_result]
    cases (iteratedCut settings.passLimit cancelled .initial g groups).outcome.result with
    | error e => rfl
    | ok cut =>
      change (_ >>= _ : Logged CutError Cut).result = _
      rw [Recorded.bind_result, Logged.emitIf_result]
      rfl
  | exact => exact hreport _ _ _

/-- Valid groups of which there is at least one, with nothing asked to stop: whatever the settings,
a cut is found unless infinite edges alone satisfy a group. -/
theorem separate_cases (hg : g.Consistent) (hne : groups ≠ [])
    (hvalid : ∀ x ∈ groups, x.fault? g.size = none) {settings : Settings}
    (hfits : ∀ p ∈ flowProblems g groups settings.passLimit false, FlowFits p.1 p.2) :
    (∃ cut, (separate g groups settings false).result = .ok cut ∧ ¬ Inseparable g groups) ∨
    ((separate g groups settings false).result = .error .unboundedFlow ∧
      Inseparable g groups) := by
  rw [separate_result hne]
  cases settings.cutStrategy with
  | iterated => exact iteratedCut_cases hg hvalid .initial hfits
  | exact => exact exactCut_cases hg hvalid hfits

theorem separate_cancelled (hne : groups ≠ []) (hvalid : ∀ x ∈ groups, x.fault? g.size = none)
    (settings : Settings) : (separate g groups settings true).result = .error .cancelled := by
  obtain ⟨group, rest, hprepare⟩ : ∃ group rest, prepareGroups g groups = .ok (group :: rest) := by
    have hprepare := prepareGroups_eq_ok_iff.mpr ⟨hvalid, rfl⟩
    cases hlist : (AscSet.ofList groups).toList with
    | nil =>
      obtain ⟨x, hx⟩ := List.exists_mem_of_ne_nil groups hne
      have hmem : x ∈ (AscSet.ofList groups).toList := AscSet.mem_ofList.mpr hx
      rw [hlist] at hmem
      exact absurd hmem List.not_mem_nil
    | cons group rest => exact ⟨group, rest, hlist ▸ hprepare⟩
  rw [separate_result hne]
  cases settings.cutStrategy with
  | iterated => exact iteratedCut_cancelled hprepare
  | exact =>
    exact exactCut_of_error hprepare (iteratedCut_cancelled (prepareGroups_idem hprepare))

theorem separate_invalid {before after : List WaypointGroup} {fault : GroupFault}
    (hbefore : ∀ x ∈ before, x.fault? g.size = none) (hfault : group.fault? g.size = some fault)
    (settings : Settings) (cancelled : Bool) :
    (separate g (before ++ group :: after) settings cancelled).result =
      .error (.invalidGroup group fault) := by
  have hprepare : prepareGroups g (before ++ group :: after) =
      .error (.invalidGroup group fault) := by
    unfold prepareGroups
    have hnone : before.findSome? (fun x => (x.fault? g.size).map (x, ·)) = none := by
      rw [List.findSome?_eq_none_iff]
      intro x hx
      rw [hbefore x hx, Option.map_none]
    rw [List.findSome?_append, hnone, Option.none_or, List.findSome?_cons, hfault]
    rfl
  rw [separate_result (by simp)]
  cases settings.cutStrategy with
  | iterated =>
    simp only [iteratedCut, hprepare]
  | exact =>
    simp only [exactCut, Recorded.bind_result, Recorded.lift_result, hprepare]
    rfl

theorem inseparable_iff_walk (hvalid : ∀ x ∈ groups, x.fault? g.size = none) :
    Inseparable g groups ↔ ∃ group ∈ groups, ∃ walk : List Node,
      walk.IsChain (fun u v => Weight.infinite ≤ g.weight u v) ∧ group.VisitedBy walk := by
  unfold Inseparable
  apply exists_congr
  intro group
  rw [and_congr_right_iff]
  intro hgroup
  exact satisfiable_iff_walk (WaypointGroup.wellPosed_of_fault? (hvalid group hgroup)).stages_ne_nil

/-- How cutting ends is decided by the groups, in this order: without groups there is nothing to
cut, the first faulty group is an error, a raised flag stops the run, and a group that a walk over
infinite edges satisfies has no cut.  In all other cases there is a cut, whatever the settings. -/
theorem separate_outcome (g : Digraph) (hg : g.Consistent) (groups : List WaypointGroup)
    (settings : Settings) (cancelled : Bool)
    (hfits : ∀ p ∈ flowProblems g groups settings.passLimit cancelled, FlowFits p.1 p.2) :
    (groups = [] → (separate g groups settings cancelled).result = .ok .empty) ∧
    (∀ before group after fault, groups = before ++ group :: after →
      (∀ x ∈ before, x.fault? g.size = none) → group.fault? g.size = some fault →
        (separate g groups settings cancelled).result = .error (.invalidGroup group fault)) ∧
    (groups ≠ [] → (∀ x ∈ groups, x.fault? g.size = none) → cancelled = true →
      (separate g groups settings cancelled).result = .error .cancelled) ∧
    (groups ≠ [] → (∀ x ∈ groups, x.fault? g.size = none) → cancelled = false →
      ((separate g groups settings cancelled).result = .error .unboundedFlow ↔
        ∃ group ∈ groups, ∃ walk : List Node,
          walk.IsChain (fun u v => Weight.infinite ≤ g.weight u v) ∧ group.VisitedBy walk) ∧
      ((separate g groups settings cancelled).result ≠ .error .unboundedFlow →
        ∃ cut, (separate g groups settings cancelled).result = .ok cut)) ∧
    ∀ answer, (separate g groups settings cancelled).result ≠ .error (.solverFailed answer) := by
  have hnil : groups = [] → (separate g groups settings cancelled).result = .ok .empty := by
    intro hempty
    rw [hempty]
    rfl
  refine ⟨hnil, ?_, ?_, ?_, ?_⟩
  · intro before group after fault hsplit hbefore hfault
    rw [hsplit]
    exact separate_invalid hbefore hfault settings cancelled
  · intro hne hvalid hcancelled
    rw [hcancelled]
    exact separate_cancelled hne hvalid settings
  · intro hne hvalid hcancelled
    rw [hcancelled] at hfits ⊢
    rw [← inseparable_iff_walk hvalid]
    rcases separate_cases hg hne hvalid hfits with ⟨cut, hcut, hout⟩ | ⟨herror, hin⟩
    · rw [hcut]
      exact ⟨iff_of_false (by simp) hout, fun _ => ⟨cut, rfl⟩⟩
    · rw [herror]
      exact ⟨iff_of_true rfl hin, fun hother => absurd rfl hother⟩
  · intro answer hfailed
    by_cases hempty : groups = []
    · rw [hnil hempty] at hfailed
      cases hfailed
    by_cases hvalid : ∀ x ∈ groups, x.fault? g.size = none
    · cases cancelled with
      | true =>
        rw [separate_cancelled hempty hvalid] at hfailed
        cases hfailed
      | false =>
        rcases separate_cases hg hempty hvalid hfits with ⟨cut, hcut, -⟩ | ⟨herror, -⟩
        · rw [hcut] at hfailed
          cases hfailed
        · rw [herror] at hfailed
          cases hfailed
    · obtain ⟨before, group, after, rfl, hbefore, hgroup⟩ := exists_first_not hvalid
      obtain ⟨fault, hfault⟩ := Option.ne_none_iff_exists'.mp hgroup
      rw [separate_invalid hbefore hfault] at hfailed
      cases hfailed

def heavyLastChain : WeightedGraph :=
  (WeightedGraph.withNodes 3).putAll [(⟨0, 1⟩, 5), (⟨1, 2⟩, Weight.infinite)]

def chainGroups : List WaypointGroup :=
  [⟨[.singleton 0, .singleton 1]⟩, ⟨[.singleton 1, .singleton 2]⟩]

/-- Whichever the strategy, the second edge of the chain cannot be cut. -/
theorem separate_heavyLastChain :
    (separate heavyLastChain.digraph chainGroups .default false).result = .error .unboundedFlow ∧
      (separate heavyLastChain.digraph chainGroups { Settings.default with cutStrategy := .exact }
        false).result = .error .unboundedFlow := by
  have hcapacities : (flowProblems heavyLastChain.digraph chainGroups 64 false).map
      (fun p => flowCapacity? p.1 p.2) = [some 23, some 3] := by
    cbv
  have hfits := flowFits_of_capacities hcapacities (by decide)
  have hvalid : ∀ x ∈ chainGroups, x.fault? heavyLastChain.digraph.size = none := by
    decide
  have hwalk : ∃ x ∈ chainGroups, ∃ walk : List Node,
      walk.IsChain (fun u v => Weight.infinite ≤ heavyLastChain.digraph.weight u v) ∧
        x.VisitedBy walk := by
    refine ⟨⟨[.singleton 1, .singleton 2]⟩, by decide, [1, 2], ?_, [0, 1], ?_⟩
    · decide
    · exact ⟨by decide, .cons ⟨1, rfl, by decide⟩ (.cons ⟨2, rfl, by decide⟩ .nil)⟩
  have hrun := fun strategy => separate_outcome heavyLastChain.digraph
    heavyLastChain.digraph_consistent chainGroups
    { Settings.default with cutStrategy := strategy } false hfits
  constructor
  · exact ((hrun .iterated).2.2.2.1 (by decide) hvalid rfl).1.mpr hwalk
  · exact ((hrun .exact).2.2.2.1 (by decide) hvalid rfl).1.mpr hwalk

end Runs

end SpecFence
