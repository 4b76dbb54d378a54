import Mathlib.Data.Finset.Powerset
import Mathlib.Data.Fintype.BigOperators
import SpecFence.Proofs.Adjacency
import SpecFence.Proofs.Iterated

/-!
# Passes end

The parts of the groups can undo each other for ever, so nothing decreases from one pass to the
next.  What bounds the passes is the history of whole assignments: every pass but the last leaves
one that has not been there before, not even at the start, and there are only so many assignments of
edges of the graph to the groups.  A limit beyond that number makes no difference.
-/

set_option autoImplicit false

namespace SpecFence

def noParts (groups : Nat) : List Cut := List.replicate groups .empty

/-- The ways to give each of so many groups a set of edges of the graph. -/
def Digraph.assignments (g : Digraph) (groups : Nat) : Nat := (2 ^ g.edges.length) ^ groups

def CutEvent.left? : CutEvent → Option (Except CutError (List Cut))
  | .passed parts => some parts
  | .posed _ _ | .reached _ => none

namespace CutState

theorem parts_start (g : Digraph) (groups : Nat) : (start g groups).parts = noParts groups := rfl

/-- A part for each of so many groups, of edges of the graph. -/
structure Assigns (g : Digraph) (groups : Nat) (parts : List Cut) : Prop where
  length_eq : parts.length = groups
  present : ∀ part ∈ parts, ∀ e ∈ part, 0 < g.weight e.src e.dst

variable {g : Digraph} {s t : CutState} {cancelled : Bool} {groups : List WaypointGroup}
  {history : List (List Cut)} {made left : Nat}

theorem Valid.assigns (h : Valid g s) {n : Nat} (hlength : s.parts.length = n) :
    Assigns g n s.parts :=
  ⟨hlength, fun part hpart e he => (h.finite part hpart e he).1⟩

/-- How passes go of which one is made at least: each before the last leaves an assignment that is
new, and the outcome says what the last one leaves. -/
structure Course (g : Digraph) (groups : Nat) (history : List (List Cut)) (start : List Cut)
    (made left : Nat) (before : List (List Cut)) (last : Except CutError (List Cut))
    (outcome : Except CutError (CutState × Nat × PassesEnd)) : Prop where
  within : before.length < left
  nodup : before.Nodup
  fresh : ∀ parts ∈ before, parts ∉ history
  assigns : ∀ parts ∈ before, Assigns g groups parts
  failed : ∀ e, outcome = .error e → last = .error e
  completed : ∀ t made' ending, outcome = .ok (t, made', ending) →
    last = .ok t.parts ∧ made' = made + before.length + 1
  converged : ∀ t made', outcome = .ok (t, made', .converged) →
    (start :: before).getLast? = some t.parts
  repeated : ∀ t made', outcome = .ok (t, made', .repeated) → t.parts ∈ history ++ before
  limited : ∀ t made', outcome = .ok (t, made', .limited) → before.length + 1 = left

theorem Course.of_error {n : Nat} {start : List Cut} {e : CutError} (hleft : 0 < left) :
    Course g n history start made left [] (.error e) (.error e) := by
  constructor
  case within => exact hleft
  case nodup => exact List.nodup_nil
  case fresh => exact List.forall_mem_nil _
  case assigns => exact List.forall_mem_nil _
  case failed => exact fun _ he => congrArg Except.error (Except.error.inj he)
  all_goals
    intros
    contradiction

/-- What a way to end says about the parts that the last pass leaves, given those before it and how
many passes were left. -/
def EndsWith (history : List (List Cut)) (start parts : List Cut) (left : Nat) : PassesEnd → Prop
  | .converged => parts = start
  | .repeated => parts ∈ history
  | .limited => left = 1

theorem Course.of_ended {n : Nat} {start : List Cut} {ending : PassesEnd} (hleft : 0 < left)
    (hending : EndsWith history start t.parts left ending) :
    Course g n history start made left [] (.ok t.parts) (.ok (t, made + 1, ending)) := by
  constructor
  case within => exact hleft
  case nodup => exact List.nodup_nil
  case fresh => exact List.forall_mem_nil _
  case assigns => exact List.forall_mem_nil _
  case failed =>
    intros
    contradiction
  case completed =>
    rintro _ _ _ ⟨⟩
    exact ⟨rfl, rfl⟩
  case converged =>
    rintro _ _ ⟨⟩
    exact congrArg some hending.symm
  case repeated =>
    rintro _ _ ⟨⟩
    exact List.mem_append_left _ hending
  case limited =>
    rintro _ _ ⟨⟩
    exact hending.symm

theorem Course.cons {start : List Cut} {before : List (List Cut)}
    {last : Except CutError (List Cut)} {outcome : Except CutError (CutState × Nat × PassesEnd)}
    (h : Course g groups.length (t.parts :: history) t.parts (made + 1) left before last outcome)
    (hnew : t.parts ∉ history) (hassigns : Assigns g groups.length t.parts) :
    Course g groups.length history start made (left + 1) (t.parts :: before) last outcome := by
  constructor
  case within => exact Nat.succ_lt_succ h.within
  case nodup =>
    exact List.nodup_cons.mpr ⟨fun hmem => h.fresh _ hmem List.mem_cons_self, h.nodup⟩
  case fresh =>
    exact List.forall_mem_cons.mpr
      ⟨hnew, fun parts hmem hold => h.fresh parts hmem (List.mem_cons_of_mem _ hold)⟩
  case assigns => exact List.forall_mem_cons.mpr ⟨hassigns, h.assigns⟩
  case failed => exact h.failed
  case completed =>
    intro u made' ending hout
    obtain ⟨hlast, hmade⟩ := h.completed u made' ending hout
    refine ⟨hlast, ?_⟩
    rw [List.length_cons]
    omega
  case converged =>
    intro u made' hout
    rw [List.getLast?_cons_cons]
    exact h.converged u made' hout
  case repeated =>
    intro u made' hout
    have hold := h.repeated u made' hout
    simp only [List.cons_append, List.mem_cons, List.mem_append] at hold ⊢
    tauto
  case limited =>
    intro u made' hout
    exact congrArg (· + 1) (h.limited u made' hout)

theorem filterMap_left?_pass (s : CutState) (i : Nat) :
    (s.pass cancelled i groups).log.filterMap CutEvent.left? = [] := by
  refine List.filterMap_eq_nil_iff.mpr ?_
  induction groups generalizing s i with
  | nil => exact List.forall_mem_nil _
  | cons group rest ih =>
    have hrecut : ∀ r ∈ (s.recut cancelled i group).log, r.left? = none := by
      cases cancelled with
      | true => exact List.forall_mem_nil _
      | false =>
        cases hcut : minCutGroup (s.release i).overlay.digraph group false with
        | error e => simp [recut_of_error hcut, CutEvent.left?]
        | ok cut => simp [recut_of_ok hcut, CutEvent.left?]
    intro r hr
    rw [CutState.pass] at hr
    rcases Recorded.mem_bind_log.mp hr with hr | ⟨⟨t, changed⟩, -, hr⟩
    · exact hrecut r hr
    · simp only at hr
      rcases Recorded.mem_bind_log.mp hr with hr | ⟨_, _, hr⟩
      · exact ih t (i + 1) r hr
      · exact absurd hr List.not_mem_nil

theorem filterMap_left?_repair (s : CutState) (i : Nat) :
    (s.repair cancelled i groups).log.filterMap CutEvent.left? = [] := by
  induction groups generalizing s i with
  | nil => rfl
  | cons group rest ih =>
    cases cancelled with
    | true => rfl
    | false =>
      cases hcut : minCutGroup s.overlay.digraph group false with
      | error e =>
        rw [repair_of_error hcut]
        rfl
      | ok cut =>
        rw [repair_of_ok hcut]
        exact ih (s.claim i cut) (i + 1)

theorem Valid.exists_course (h : Valid g s) (cancelled : Bool) (made : Nat)
    (history : List (List Cut)) (hg : g.Consistent) (hlength : s.parts.length = groups.length)
    (hwell : ∀ x ∈ groups, x.WellPosed g.size) (hleft : 0 < left) :
    ∃ before last, (s.passes cancelled groups made history left).log.filterMap CutEvent.left? =
        before.map .ok ++ [last] ∧
      Course g groups.length history s.parts made left before last
        (s.passes cancelled groups made history left).result := by
  induction left generalizing s history made with
  | zero => exact absurd hleft (Nat.lt_irrefl 0)
  | succ left ih =>
    cases hpass : (s.pass cancelled 0 groups).result with
    | error e =>
      rw [passes_eq_of_error hpass]
      simp only [List.filterMap_append, filterMap_left?_pass, List.nil_append]
      exact ⟨[], .error e, rfl, .of_error hleft⟩
    | ok next =>
      obtain ⟨t, changed⟩ := next
      obtain ⟨hvalid, hkept, hsame⟩ := h.pass hg (by omega) hwell hpass
      rw [passes_eq hpass]
      simp only [List.filterMap_append, filterMap_left?_pass, List.nil_append]
      cases changed with
      | false =>
        rw [Bool.not_false, if_pos rfl]
        exact ⟨[], .ok t.parts, rfl, .of_ended hleft (hsame rfl).1⟩
      | true =>
        rw [Bool.not_true, if_neg Bool.false_ne_true]
        by_cases hold : t.parts ∈ history
        · rw [if_pos hold]
          exact ⟨[], .ok t.parts, rfl, .of_ended hleft hold⟩
        · rw [if_neg hold]
          have hlength' := hkept.trans hlength
          have hassigns := hvalid.assigns hlength'
          rcases Nat.eq_zero_or_pos left with rfl | hpos
          · exact ⟨[], .ok t.parts, rfl, .of_ended hleft rfl⟩
          · obtain ⟨before, last, hleave, hcourse⟩ := ih hvalid _ _ hlength' hpos
            exact ⟨t.parts :: before, last, by rw [hleave]; rfl, hcourse.cons hold hassigns⟩

def edgeSets (groups : Nat) (parts : List Cut) (i : Fin groups) : Finset Edge :=
  (parts[i.val]?.getD .empty).toList.toFinset

theorem Assigns.edgeSets_mem {parts : List Cut} {n : Nat} (h : Assigns g n parts)
    (hg : g.Consistent) :
    edgeSets n parts ∈
      Fintype.piFinset fun _ : Fin n => (g.edges.map Prod.fst).toFinset.powerset := by
  refine Fintype.mem_piFinset.mpr fun i => Finset.mem_powerset.mpr fun e he => ?_
  have hi : i.val < parts.length := h.length_eq.symm ▸ i.isLt
  unfold edgeSets at he
  rw [List.getElem?_eq_getElem hi, Option.getD_some, List.mem_toFinset] at he
  have hpos := h.present _ (List.getElem_mem hi) e he
  exact List.mem_toFinset.mpr
    (List.mem_map.mpr ⟨(e, _), (Digraph.mem_edges_iff hg).mpr ⟨hpos, rfl⟩, rfl⟩)

theorem Assigns.eq_of_edgeSets {parts parts' : List Cut} {n : Nat} (h : Assigns g n parts)
    (h' : Assigns g n parts') (hsame : edgeSets n parts = edgeSets n parts') : parts = parts' := by
  refine List.ext_getElem (h.length_eq.trans h'.length_eq.symm) fun i hi hi' => AscSet.ext fun e => ?_
  have hset := congrFun hsame ⟨i, h.length_eq ▸ hi⟩
  unfold edgeSets at hset
  rw [List.getElem?_eq_getElem hi, List.getElem?_eq_getElem hi'] at hset
  have hmem := Finset.ext_iff.mp hset e
  rwa [List.mem_toFinset, List.mem_toFinset] at hmem

/-- Assignments without repetition are no more than the ways to give each group a set of edges of the
graph. -/
theorem length_le_of_assigns (hg : g.Consistent) {n : Nat} {assignments : List (List Cut)}
    (hnodup : assignments.Nodup) (hassigns : ∀ parts ∈ assignments, Assigns g n parts) :
    assignments.length ≤ g.assignments n := by
  have hinj : Set.InjOn (edgeSets n) ↑assignments.toFinset := fun a ha b hb hsame =>
    (hassigns a (List.mem_toFinset.mp ha)).eq_of_edgeSets (hassigns b (List.mem_toFinset.mp hb)) hsame
  have hmaps : Set.MapsTo (edgeSets n) ↑assignments.toFinset
      ↑(Fintype.piFinset fun _ : Fin n => (g.edges.map Prod.fst).toFinset.powerset) := fun a ha =>
    Finset.mem_coe.mpr ((hassigns a (List.mem_toFinset.mp ha)).edgeSets_mem hg)
  have hedges : (g.edges.map Prod.fst).toFinset.card ≤ g.edges.length :=
    (List.toFinset_card_le _).trans_eq (List.length_map _)
  calc assignments.length
      = assignments.toFinset.card := (List.toFinset_card_of_nodup hnodup).symm
    _ ≤ (Fintype.piFinset fun _ : Fin n => (g.edges.map Prod.fst).toFinset.powerset).card :=
        Finset.card_le_card_of_injOn _ hmaps hinj
    _ = (2 ^ (g.edges.map Prod.fst).toFinset.card) ^ n := by
        rw [Fintype.card_piFinset_const, Finset.card_powerset]
    _ ≤ g.assignments n :=
        Nat.pow_le_pow_left (Nat.pow_le_pow_right Nat.two_pos hedges) n

section Start

variable {n : Nat} {before : List (List Cut)} {last : Except CutError (List Cut)}
  {outcome : Except CutError (CutState × Nat × PassesEnd)}

theorem Course.nodup_start
    (h : Course g n [noParts n] (noParts n) made left before last outcome) :
    (noParts n :: before).Nodup :=
  List.nodup_cons.mpr ⟨fun hmem => h.fresh _ hmem (List.mem_singleton_self _), h.nodup⟩

theorem Course.length_lt (h : Course g n [noParts n] (noParts n) made left before last outcome)
    (hg : g.Consistent) : before.length < g.assignments n := by
  have hassigns : ∀ parts ∈ noParts n :: before, Assigns g n parts :=
    List.forall_mem_cons.mpr ⟨(Valid.start g n).assigns List.length_replicate, h.assigns⟩
  exact length_le_of_assigns hg h.nodup_start hassigns

end Start

theorem passes_add (more : Nat)
    (h : ∀ t made',
      (s.passes cancelled groups made history left).result ≠ .ok (t, made', .limited)) :
    s.passes cancelled groups made history (left + more) =
      s.passes cancelled groups made history left := by
  induction left generalizing s made history with
  | zero => exact absurd rfl (h s made)
  | succ left ih =>
    rw [Nat.add_right_comm]
    cases hpass : (s.pass cancelled 0 groups).result with
    | error e => rw [passes_eq_of_error hpass, passes_eq_of_error hpass]
    | ok next =>
      obtain ⟨t, changed⟩ := next
      simp only [passes_result_eq hpass] at h
      rw [passes_eq hpass, passes_eq hpass]
      by_cases hchanged : (!changed) = true
      · simp only [if_pos hchanged]
      · simp only [if_neg hchanged] at h ⊢
        by_cases hold : t.parts ∈ history
        · simp only [if_pos hold]
        · simp only [if_neg hold] at h ⊢
          rw [ih h]

end CutState

/-- What the passes leave when groups are cut in turn within a limit. -/
def iteratedPasses (limit : Nat) (cancelled : Bool) (graph : Digraph)
    (groups : List WaypointGroup) : List (Except CutError (List Cut)) :=
  (iteratedCut limit cancelled .initial graph groups).events.filterMap CutEvent.left?

/-- What a run tells of its passes, given what they leave and the start. -/
structure PassHistory (limit assignments : Nat) (start : List Cut)
    (made : List (Except CutError (List Cut))) (run : IteratedRun) : Prop where
  limited : made.length ≤ limit
  bounded : made.length ≤ assignments
  fresh : (.ok start :: made.dropLast).Nodup
  failed : ∀ e, made.getLast? = some (.error e) → run.outcome.result = .error e
  counted : ∀ cut, run.outcome.result = .ok cut → run.progress.passes = made.length
  repeated : run.progress.converged = false → made.length < limit →
    ∃ parts, made.getLast? = some (.ok parts) ∧ .ok parts ∈ .ok start :: made.dropLast
  unchanged : ∀ cut, run.outcome.result = .ok cut → run.progress.converged = true → made ≠ [] →
    ∃ parts, made.getLast? = some (.ok parts) ∧
      (.ok start :: made.dropLast).getLast? = some (.ok parts)

theorem PassHistory.of_none (limit : Nat) {assignments : Nat} :
    PassHistory limit assignments (noParts 0) [] ⟨⟨.ok .empty, []⟩, ⟨0, true⟩, []⟩ := by
  refine ⟨Nat.zero_le _, Nat.zero_le _, List.nodup_singleton _, fun e he => ?_, fun _ _ => rfl,
    fun hnot => ?_, fun _ _ _ hne => absurd rfl hne⟩
  · cases he
  · cases hnot

open CutState

variable {g : Digraph} {groups : List WaypointGroup} {limit : Nat} {cancelled : Bool}

inductive IteratedRun.Tells (run : IteratedRun) :
    Except CutError (CutState × Nat × PassesEnd) → Prop
  | failed {e : CutError} (hresult : run.outcome.result = .error e)
      (hprogress : run.progress = ⟨0, true⟩) : Tells run (.error e)
  | converged {t : CutState} {made : Nat} (hresult : run.outcome.result = .ok t.cut)
      (hprogress : run.progress = ⟨made, true⟩) : Tells run (.ok (t, made, .converged))
  | repaired {t : CutState} {made : Nat} {ending : PassesEnd} {cut : Cut}
      (hending : ending ≠ .converged) (hresult : run.outcome.result = .ok cut)
      (hprogress : run.progress = ⟨made, false⟩) : Tells run (.ok (t, made, ending))
  | broken {t : CutState} {made : Nat} {ending : PassesEnd} {e : CutError}
      (hresult : run.outcome.result = .error e) (hprogress : run.progress = ⟨0, true⟩) :
      Tells run (.ok (t, made, ending))

theorem IteratedRun.tells_ofPrepared (limit : Nat) (cancelled : Bool) (g : Digraph)
    (groups : List WaypointGroup) :
    Tells (.ofPrepared limit cancelled g groups)
      ((CutState.start g groups.length).passes cancelled groups 0 [noParts groups.length]
        limit).result := by
  unfold ofPrepared
  simp only [parts_start]
  cases ((CutState.start g groups.length).passes cancelled groups 0 [noParts groups.length]
      limit).result with
  | error e => exact .failed rfl rfl
  | ok found =>
    obtain ⟨t, made, ending⟩ := found
    cases ending with
    | converged => exact .converged rfl rfl
    | repeated | limited =>
      dsimp only
      cases (t.repair cancelled 0 groups).result with
      | error e => exact .broken rfl rfl
      | ok u => exact .repaired (by decide) rfl rfl

theorem CutState.Course.passHistory {n : Nat} {before : List (List Cut)}
    {last : Except CutError (List Cut)} {outcome : Except CutError (CutState × Nat × PassesEnd)}
    {run : IteratedRun} (hg : g.Consistent)
    (h : Course g n [noParts n] (noParts n) 0 limit before last outcome)
    (htells : run.Tells outcome) :
    PassHistory limit (g.assignments n) (noParts n) (before.map .ok ++ [last]) run := by
  have hmade : (before.map Except.ok ++ [last]).length = before.length + 1 := by simp
  have hlast : (before.map Except.ok ++ [last]).getLast? = some last := List.getLast?_concat
  have hdrop : (.ok (noParts n) :: (before.map Except.ok ++ [last]).dropLast) =
      (noParts n :: before).map Except.ok := by
    rw [List.dropLast_concat, List.map_cons]
  have hdone : ∀ t made ending, outcome = .ok (t, made, ending) → ∀ e, last ≠ .error e := by
    intro t made ending hout e herror
    rw [(h.completed t made ending hout).1] at herror
    cases herror
  constructor
  case limited => exact hmade ▸ h.within
  case bounded => exact hmade ▸ h.length_lt hg
  case fresh =>
    rw [hdrop]
    exact h.nodup_start.map fun a b hab => Except.ok.inj hab
  case failed =>
    intro e hfail
    rw [hlast] at hfail
    cases hfail
    cases htells with
    | failed hresult =>
      cases h.failed _ rfl
      exact hresult
    | converged | repaired | broken => exact absurd rfl (hdone _ _ _ rfl e)
  case counted =>
    intro cut hcut
    cases htells with
    | failed hresult | broken hresult =>
      rw [hresult] at hcut
      cases hcut
    | converged _ hprogress | repaired _ _ hprogress =>
      rw [hprogress, hmade, (h.completed _ _ _ rfl).2, Nat.zero_add]
  case repeated =>
    intro hnot hless
    cases htells with
    | failed _ hprogress | broken _ hprogress | converged _ hprogress =>
      rw [hprogress] at hnot
      cases hnot
    | @repaired t made ending _ hending =>
      cases ending with
      | converged => exact absurd rfl hending
      | limited => exact absurd (hmade.trans (h.limited t made rfl)) (Nat.ne_of_lt hless)
      | repeated =>
        refine ⟨t.parts, ?_, ?_⟩
        · rw [hlast, (h.completed t made _ rfl).1]
        · rw [hdrop]
          exact List.mem_map_of_mem (h.repeated t made rfl)
  case unchanged =>
    intro cut hcut hconverged _
    cases htells with
    | failed hresult | broken hresult =>
      rw [hresult] at hcut
      cases hcut
    | repaired _ _ hprogress =>
      rw [hprogress] at hconverged
      cases hconverged
    | @converged t made =>
      refine ⟨t.parts, ?_, ?_⟩
      · rw [hlast, (h.completed t made _ rfl).1]
      · rw [hdrop, List.getLast?_map, h.converged t made rfl]
        rfl

theorem exists_course_start (hg : g.Consistent) (hwell : ∀ x ∈ groups, x.WellPosed g.size)
    (cancelled : Bool) (hlimit : 0 < limit) :
    ∃ before last,
      (IteratedRun.ofPrepared limit cancelled g groups).events.filterMap CutEvent.left? =
        before.map .ok ++ [last] ∧
      Course g groups.length [noParts groups.length] (noParts groups.length) 0 limit before last
        ((CutState.start g groups.length).passes cancelled groups 0 [noParts groups.length]
          limit).result := by
  obtain ⟨before, last, hleft, hcourse⟩ := (Valid.start g groups.length).exists_course cancelled 0
    [noParts groups.length] hg List.length_replicate hwell hlimit
  refine ⟨before, last, ?_, hcourse⟩
  rw [← hleft, (IteratedRun.ofPrepared_rounds _ _ _ _).2]
  unfold CutState.rounds
  cases hrun : ((CutState.start g groups.length).passes cancelled groups 0
      [(CutState.start g groups.length).parts] limit).result with
  | error e =>
    rw [Recorded.bind_eq_of_error hrun]
    rfl
  | ok found =>
    obtain ⟨t, made, ending⟩ := found
    rw [Recorded.bind_eq_of_ok hrun]
    simp only [List.filterMap_append]
    split
    · exact List.append_nil _
    · rw [filterMap_left?_repair, List.append_nil]
      rfl

theorem IteratedRun.warnings_of_lt (groups : Nat) (ending : PassesEnd) {made limit' : Nat}
    (h : made < limit) (h' : made < limit') :
    warnings limit groups made ending = warnings limit' groups made ending := by
  unfold warnings
  simp only [Nat.not_le.mpr h, Nat.not_le.mpr h', if_false]

theorem IteratedRun.ofPrepared_unlimited (hg : g.Consistent)
    (hwell : ∀ x ∈ groups, x.WellPosed g.size) (hlimit : g.assignments groups.length < limit) :
    ofPrepared limit cancelled g groups =
      ofPrepared (g.assignments groups.length + 1) cancelled g groups := by
  obtain ⟨before, last, -, hcourse⟩ :=
    exists_course_start hg hwell cancelled (Nat.succ_pos (g.assignments groups.length))
  have hless := hcourse.length_lt hg
  have hnot : ∀ t made, ((CutState.start g groups.length).passes cancelled groups 0
      [noParts groups.length] (g.assignments groups.length + 1)).result ≠
        .ok (t, made, .limited) := by
    intro t made hrun
    have hall := hcourse.limited t made hrun
    omega
  have hsame := passes_add (limit - (g.assignments groups.length + 1)) hnot
  rw [Nat.add_sub_of_le hlimit] at hsame
  unfold ofPrepared
  simp only [parts_start, hsame]
  cases hrun : ((CutState.start g groups.length).passes cancelled groups 0
      [noParts groups.length] (g.assignments groups.length + 1)).result with
  | error e => rfl
  | ok found =>
    obtain ⟨t, made, ending⟩ := found
    obtain ⟨-, rfl⟩ := hcourse.completed t made ending hrun
    have hwarnings := warnings_of_lt groups.length ending
      (show 0 + before.length + 1 < limit by omega)
      (show 0 + before.length + 1 < g.assignments groups.length + 1 by omega)
    cases ending with
    | converged => rfl
    | repeated | limited =>
      dsimp only
      rw [hwarnings]

/-- Whatever the limit, so many passes are made at most, or one if it is 0, and no more than there are
ways to give each group a set of edges of the graph.  Each pass but the last leaves an assignment
that no pass before it has left and that is not the one at the start.  A run that did not converge
has reached the limit, or its last pass has left what was there after an earlier one or at the start;
and the last pass of a run that did converge has left every part as it was.  Limits beyond the
number of assignments are all alike. -/
theorem iteratedCut_passHistory (graph : Digraph) (hg : graph.Consistent)
    (groups : List WaypointGroup) (hgroups : ∀ g ∈ groups, g.fault? graph.size = none)
    (cancelled : Bool) (before : CutProgress) :
    ∃ prepared, prepareGroups graph groups = .ok prepared ∧
      (∀ limit, PassHistory (max limit 1) (graph.assignments prepared.length)
        (noParts prepared.length) (iteratedPasses limit cancelled graph groups)
        (iteratedCut limit cancelled before graph groups)) ∧
      ∀ limit, graph.assignments prepared.length < limit →
        iteratedCut limit cancelled before graph groups =
          iteratedCut (graph.assignments prepared.length + 1) cancelled before graph groups := by
  obtain ⟨prepared, hprepare⟩ : ∃ prepared, prepareGroups graph groups = .ok prepared :=
    ⟨_, prepareGroups_eq_ok_iff.mpr ⟨hgroups, rfl⟩⟩
  obtain ⟨hwell, hsame⟩ := prepareGroups_eq_ok hprepare
  refine ⟨prepared, hprepare, ?_⟩
  unfold iteratedPasses iteratedCut
  rw [hprepare]
  cases prepared with
  | nil => exact ⟨fun limit => .of_none _, fun limit _ => rfl⟩
  | cons x rest =>
    have hprepared : ∀ y ∈ x :: rest, y.WellPosed graph.size := fun y hy => hwell y ((hsame y).mp hy)
    refine ⟨fun limit => ?_, fun limit hlimit => ?_⟩
    · obtain ⟨made, last, hleave, hcourse⟩ := exists_course_start hg hprepared cancelled
        (show 0 < max limit 1 by omega)
      have hhistory := hcourse.passHistory hg (IteratedRun.tells_ofPrepared _ _ _ _)
      rw [← hleave] at hhistory
      exact hhistory
    · have hone : graph.assignments (x :: rest).length < max limit 1 := by omega
      have hmax : max (graph.assignments (x :: rest).length + 1) 1 =
          graph.assignments (x :: rest).length + 1 := by omega
      dsimp only
      rw [IteratedRun.ofPrepared_unlimited hg hprepared hone, hmax]

def twoInRow : WeightedGraph := (WeightedGraph.withNodes 3).putAll [(⟨0, 1⟩, 1), (⟨1, 2⟩, 1)]

def rowGroups : List WaypointGroup :=
  [⟨[.singleton 0, .singleton 2]⟩, ⟨[.singleton 1, .singleton 2]⟩]

/-- Two groups have 16 ways to share two edges, so the largest limit does what a limit of 17 does. -/
theorem iteratedCut_passHistory_twoInRow :
    (∀ g ∈ rowGroups, g.fault? twoInRow.digraph.size = none) ∧
      (iteratedPasses (2 ^ 64 - 1) false twoInRow.digraph rowGroups).length ≤ 16 ∧
      iteratedCut (2 ^ 64 - 1) false .initial twoInRow.digraph rowGroups =
        iteratedCut 17 false .initial twoInRow.digraph rowGroups := by
  have hgroups : ∀ g ∈ rowGroups, g.fault? twoInRow.digraph.size = none := by
    decide +kernel
  have hprepare : prepareGroups twoInRow.digraph rowGroups = .ok rowGroups := by
    cbv
  have hassignments : twoInRow.digraph.assignments rowGroups.length = 16 := by
    cbv
  obtain ⟨prepared, hprepared, hhistory, hunlimited⟩ := iteratedCut_passHistory twoInRow.digraph
    twoInRow.digraph_consistent rowGroups hgroups false .initial
  rw [hprepare] at hprepared
  cases hprepared
  rw [hassignments] at hunlimited
  exact ⟨hgroups, hassignments ▸ (hhistory (2 ^ 64 - 1)).bounded, hunlimited _ (by decide)⟩

end SpecFence
