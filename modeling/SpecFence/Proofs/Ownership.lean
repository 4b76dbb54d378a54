import Mathlib
import SpecFence.Proofs.Iterated

/-!
# Who owns a cut edge

The working state of the passes says three times which edges are cut: in the graph, in the numbers
of holders and in the parts of the groups.  A run changes it by calls alone, by which one group lets
go of its part or takes edges.  In every state between two calls the three agree, and no edge has
two holders, since a group takes edges only from what is left of the graph.
-/

set_option autoImplicit false

namespace SpecFence

def CutEvent.state? : CutEvent → Option CutState
  | .reached s => some s
  | .posed _ _ | .passed _ => none

namespace CutRun

variable {α β : Type}

/-- The states that are reached in a stretch of a run, one after the other. -/
def states (x : CutRun α) : List CutState := x.log.filterMap CutEvent.state?

theorem states_bind_of_ok {x : CutRun α} {f : α → CutRun β} {a : α} (h : x.result = .ok a) :
    states (x >>= f) = states x ++ states (f a) := by
  unfold states
  rw [Recorded.bind_eq_of_ok h, List.filterMap_append]

theorem mem_states_bind {x : CutRun α} {f : α → CutRun β} {s : CutState} :
    s ∈ states (x >>= f) ↔ s ∈ states x ∨ ∃ a, x.result = .ok a ∧ s ∈ states (f a) := by
  cases h : x.result with
  | error e =>
    unfold states
    simp [Recorded.bind_eq_of_error h]
  | ok a => simp [states_bind_of_ok h]

/-- A state from which a stretch of a run leads to another, which is reached last. -/
def Leads (x : CutRun α) (s t : CutState) : Prop := (s :: states x).getLast? = some t

theorem Leads.of_states_eq_nil {x : CutRun α} {s : CutState} (h : states x = []) : Leads x s s := by
  unfold Leads
  rw [h]
  rfl

theorem Leads.bind {x : CutRun α} {f : α → CutRun β} {a : α} {s t u : CutState} (h : Leads x s t)
    (ha : x.result = .ok a) (h' : Leads (f a) t u) : Leads (x >>= f) s u := by
  unfold Leads at *
  rw [states_bind_of_ok ha]
  rcases List.eq_nil_or_concat (states (f a)) with hnil | ⟨before, last, hconcat⟩
  · rw [hnil] at h' ⊢
    cases Option.some_inj.mp h'
    rwa [List.append_nil]
  · rw [hconcat, List.concat_eq_append] at h' ⊢
    rw [← List.cons_append, List.getLast?_concat] at h'
    rw [← List.append_assoc, ← List.cons_append, List.getLast?_concat]
    exact h'

theorem Leads.mem {x : CutRun α} {s t : CutState} (h : Leads x s t) : t = s ∨ t ∈ states x :=
  List.mem_cons.mp (List.mem_of_mem_getLast? h)

end CutRun

namespace CutState

open CutRun

variable {g : Digraph} {s t : CutState} {cancelled : Bool}

structure Exclusive (g : Digraph) (s : CutState) : Prop extends Valid g s where
  single : ∀ e, s.held e ≤ 1

section Calls

theorem Tidy.held_release (h : Tidy g s) (i : Nat) (e : Edge) :
    (s.release i).held e = if e ∈ (s.part i).toList then s.held e - 1 else s.held e :=
  (foldl_releaseEdge (s.part i).toList (AscSet.nodup_toList _) h).2.2 e

theorem Tidy.held_claim (h : Tidy g s) (i : Nat) (cut : Cut) (e : Edge) :
    (s.claim i cut).held e = if e ∈ cut.toList then s.held e + 1 else s.held e :=
  (foldl_claimEdge cut.toList (AscSet.nodup_toList _) h).2.2 e

theorem Exclusive.start (g : Digraph) (groups : Nat) : Exclusive g (start g groups) :=
  ⟨Valid.start g groups, fun _ => Nat.zero_le 1⟩

theorem Exclusive.release (h : Exclusive g s) {i : Nat} (hi : i < s.parts.length) :
    Exclusive g (s.release i) := by
  refine ⟨(h.toValid.release hi).1, fun e => ?_⟩
  have hsingle := h.single e
  rw [h.toTidy.held_release]
  split <;> omega

theorem Exclusive.claim (h : Exclusive g s) {i : Nat} (hi : i < s.parts.length) {cut : Cut}
    (hcut : ∀ e ∈ cut, 0 < s.overlay.weight e.src e.dst ∧
      s.overlay.weight e.src e.dst < Weight.infinite) :
    Exclusive g (s.claim i cut) := by
  refine ⟨(h.toValid.claim hi hcut).1, fun e => ?_⟩
  rw [h.toTidy.held_claim]
  split
  · rename_i hmem
    have hpos := (hcut e hmem).1
    rw [h.toTidy.weight] at hpos
    by_cases hzero : s.held ⟨e.src, e.dst⟩ = 0
    · exact Nat.le_of_eq (congrArg (· + 1) hzero)
    · rw [if_neg hzero] at hpos
      exact absurd hpos (Nat.lt_irrefl 0)
  · exact h.single e

theorem Valid.held_pos_of_release (h : Valid g s) {i : Nat} {done rest : List Edge} {e : Edge}
    (hsplit : (s.part i).toList = done ++ e :: rest) :
    0 < (done.foldl releaseEdge s).held e := by
  have hnodup : (done ++ e :: rest).Nodup := hsplit ▸ AscSet.nodup_toList (s.part i)
  have hout : e ∉ done := fun hmem =>
    (List.nodup_append.mp hnodup).2.2 e hmem e List.mem_cons_self rfl
  rw [(foldl_releaseEdge done (List.nodup_append.mp hnodup).1 h.toTidy).2.2, if_neg hout]
  have hmem : e ∈ s.part i := by
    change e ∈ (s.part i).toList
    rw [hsplit]
    exact List.mem_append_right done List.mem_cons_self
  by_cases hi : i < s.parts.length
  · rw [part_eq hi] at hmem
    exact h.held_pos (List.getElem_mem hi) hmem
  · unfold CutState.part at hmem
    rw [List.getElem?_eq_none (by omega)] at hmem
    exact absurd hmem (AscSet.not_mem_empty e)

end Calls

section Run

/-- A state of a run: no edge is held twice, and each group has a part. -/
def Sound (g : Digraph) (groups : Nat) (s : CutState) : Prop :=
  Exclusive g s ∧ s.parts.length = groups

variable {n i : Nat} {group : WaypointGroup} {groups : List WaypointGroup}

theorem Sound.start (g : Digraph) (groups : Nat) : Sound g groups (start g groups) :=
  ⟨Exclusive.start g groups, List.length_replicate⟩

theorem Sound.release (h : Sound g n s) (hi : i < n) : Sound g n (s.release i) := by
  obtain ⟨hexclusive, hlength⟩ := h
  have hlt : i < s.parts.length := hlength.symm ▸ hi
  refine ⟨hexclusive.release hlt, ?_⟩
  rw [(hexclusive.toValid.release hlt).2, List.length_set, hlength]

theorem Sound.claim (h : Sound g n s) (hg : g.Consistent) (hi : i < n)
    (hwell : group.WellPosed g.size) {cut : Cut}
    (hcut : minCutGroup s.overlay.digraph group cancelled = .ok cut) :
    Sound g n (s.claim i cut) := by
  obtain ⟨hexclusive, hlength⟩ := h
  have hlt : i < s.parts.length := hlength.symm ▸ hi
  have hfinite := (hexclusive.toValid.cut_separates hg hwell hcut).finite
  refine ⟨hexclusive.claim hlt hfinite, ?_⟩
  rw [(hexclusive.toValid.claim hlt hfinite).2, List.length_set, hlength]

theorem Sound.of_leads {α : Type} {x : CutRun α} (h : Sound g n s) (hleads : Leads x s t)
    (hall : ∀ u ∈ states x, Sound g n u) : Sound g n t := by
  rcases hleads.mem with rfl | hmem
  · exact h
  · exact hall t hmem

theorem Sound.recut (h : Sound g n s) (hg : g.Consistent) (hi : i < n)
    (hwell : group.WellPosed g.size) : ∀ u ∈ states (s.recut cancelled i group), Sound g n u := by
  have hfree := h.release hi
  cases cancelled with
  | true => exact List.forall_mem_nil _
  | false =>
    unfold states
    cases hcut : minCutGroup (s.release i).overlay.digraph group false with
    | error e =>
      rw [recut_of_error hcut]
      exact List.forall_mem_singleton.mpr hfree
    | ok cut =>
      rw [recut_of_ok hcut]
      exact List.forall_mem_cons.mpr
        ⟨hfree, List.forall_mem_singleton.mpr (hfree.claim hg hi hwell hcut)⟩

theorem leads_recut {changed : Bool}
    (hrun : (s.recut cancelled i group).result = .ok (t, changed)) :
    Leads (s.recut cancelled i group) s t := by
  obtain ⟨rfl, cut, hcut, rfl, -⟩ := recut_eq_ok_iff.mp hrun
  rw [recut_of_ok hcut]
  rfl

theorem Sound.pass (h : Sound g n s) (hg : g.Consistent) (hi : i + groups.length ≤ n)
    (hwell : ∀ group ∈ groups, group.WellPosed g.size) :
    ∀ u ∈ states (s.pass cancelled i groups), Sound g n u := by
  induction groups generalizing s i with
  | nil => exact List.forall_mem_nil _
  | cons group rest ih =>
    rw [List.length_cons] at hi
    have hfirst : ∀ u ∈ states (s.recut cancelled i group), Sound g n u :=
      h.recut hg (by omega) (hwell group List.mem_cons_self)
    rw [CutState.pass]
    intro u hu
    rcases mem_states_bind.mp hu with hu | ⟨⟨t, changed⟩, hrun, hu⟩
    · exact hfirst u hu
    · simp only at hu
      rcases mem_states_bind.mp hu with hu | ⟨_, _, hu⟩
      · exact ih (h.of_leads (leads_recut hrun) hfirst) (i := i + 1) (by omega)
          (fun y hy => hwell y (List.mem_cons_of_mem group hy)) u hu
      · exact absurd hu List.not_mem_nil

theorem leads_pass {changed : Bool}
    (hrun : (s.pass cancelled i groups).result = .ok (t, changed)) :
    Leads (s.pass cancelled i groups) s t := by
  induction groups generalizing s i changed with
  | nil =>
    cases hrun
    exact .of_states_eq_nil rfl
  | cons group rest ih =>
    rw [CutState.pass] at hrun ⊢
    obtain ⟨⟨s', changed'⟩, hrecut, hrun⟩ := Recorded.bind_result_eq_ok_iff.mp hrun
    obtain ⟨⟨s'', changed''⟩, hpass, hrun⟩ := Recorded.bind_result_eq_ok_iff.mp hrun
    cases hrun
    exact (leads_recut hrecut).bind hrecut ((ih hpass).bind hpass (.of_states_eq_nil rfl))

theorem states_noteEnd {α : Type} (f : Except CutError α → Except CutError (List Cut))
    (x : CutRun α) : states (x.noteEnd fun r => .passed (f r)) = states x := by
  unfold states
  rw [Recorded.noteEnd_log, List.filterMap_append]
  exact List.append_nil _

theorem Sound.passes (h : Sound g n s) (hg : g.Consistent) (hn : groups.length = n)
    (hwell : ∀ group ∈ groups, group.WellPosed g.size) (made : Nat) (history : List (List Cut))
    (left : Nat) : ∀ u ∈ states (s.passes cancelled groups made history left), Sound g n u := by
  induction left generalizing s made history with
  | zero => exact List.forall_mem_nil _
  | succ left ih =>
    have hfirst : ∀ u ∈ states (s.pass cancelled 0 groups), Sound g n u :=
      h.pass hg (by omega) hwell
    rw [CutState.passes]
    intro u hu
    rcases mem_states_bind.mp hu with hu | ⟨⟨t, changed⟩, hrun, hu⟩
    · rw [states_noteEnd] at hu
      exact hfirst u hu
    · simp only at hu
      -- a pass that changes nothing, or leaves what was there before, is the last one
      split at hu
      · exact absurd hu List.not_mem_nil
      · split at hu
        · exact absurd hu List.not_mem_nil
        · exact ih (h.of_leads (leads_pass hrun) hfirst) _ _ u hu

theorem leads_passes {made made' left : Nat} {history : List (List Cut)} {ending : PassesEnd}
    (hrun : (s.passes cancelled groups made history left).result = .ok (t, made', ending)) :
    Leads (s.passes cancelled groups made history left) s t := by
  induction left generalizing s made history with
  | zero =>
    cases hrun
    exact .of_states_eq_nil rfl
  | succ left ih =>
    rw [CutState.passes] at hrun ⊢
    obtain ⟨⟨s', changed⟩, hpass, hrun⟩ := Recorded.bind_result_eq_ok_iff.mp hrun
    have hfirst : Leads ((s.pass cancelled 0 groups).noteEnd fun r => .passed (r.map (·.1.parts)))
        s s' := by
      unfold Leads
      rw [states_noteEnd]
      exact leads_pass hpass
    refine hfirst.bind hpass ?_
    simp only at hrun ⊢
    split at hrun
    · rename_i hchanged
      cases hrun
      rw [if_pos hchanged]
      exact .of_states_eq_nil rfl
    · rename_i hchanged
      rw [if_neg hchanged]
      split at hrun
      · rename_i hhistory
        cases hrun
        rw [if_pos hhistory]
        exact .of_states_eq_nil rfl
      · rename_i hhistory
        rw [if_neg hhistory]
        exact ih hrun

theorem Sound.repair (h : Sound g n s) (hg : g.Consistent) (hi : i + groups.length ≤ n)
    (hwell : ∀ group ∈ groups, group.WellPosed g.size) :
    ∀ u ∈ states (s.repair cancelled i groups), Sound g n u := by
  induction groups generalizing s i with
  | nil => exact List.forall_mem_nil _
  | cons group rest ih =>
    rw [List.length_cons] at hi
    cases cancelled with
    | true => exact List.forall_mem_nil _
    | false =>
      unfold states
      cases hcut : minCutGroup s.overlay.digraph group false with
      | error e =>
        rw [repair_of_error hcut]
        exact List.forall_mem_nil _
      | ok cut =>
        have hnext := h.claim hg (i := i) (by omega) (hwell group List.mem_cons_self) hcut
        rw [repair_of_ok hcut]
        exact List.forall_mem_cons.mpr ⟨hnext, ih hnext (i := i + 1) (by omega)
          fun y hy => hwell y (List.mem_cons_of_mem group hy)⟩

theorem leads_repair (hrun : (s.repair cancelled i groups).result = .ok t) :
    Leads (s.repair cancelled i groups) s t := by
  induction groups generalizing s i with
  | nil =>
    cases hrun
    exact .of_states_eq_nil rfl
  | cons group rest ih =>
    obtain ⟨rfl, cut, hcut, hrun⟩ := repair_cons_eq_ok_iff.mp hrun
    have hrest := ih hrun
    unfold Leads states at hrest ⊢
    rw [repair_of_ok hcut]
    exact (List.getLast?_cons_cons).trans hrest

end Run

/-- What the three copies say of a state: a number of holders is positive where it is kept, counts
the parts with the edge, and is positive whenever it is lowered.  No two parts share an edge, all
have edges of the graph, and what is left has weight 0 exactly for held and absent edges and the
weight of the graph for all others. -/
structure Accounted (g : Digraph) (s : CutState) : Prop where
  positive : ∀ e n, s.owners.get? e = some n → 0 < n
  counted : ∀ e, s.held e = s.parts.countP fun part => decide (e ∈ part)
  lowered : ∀ i done e rest, (s.part i).toList = done ++ e :: rest →
    0 < (done.foldl releaseEdge s).held e
  disjoint : s.parts.Pairwise fun a b => ∀ e ∈ a, e ∉ b
  present : ∀ part ∈ s.parts, ∀ e ∈ part, 0 < g.weight e.src e.dst
  removed : ∀ u v, s.overlay.weight u v = 0 ↔ s.held ⟨u, v⟩ ≠ 0 ∨ g.weight u v = 0
  kept : ∀ u v, s.overlay.weight u v ≠ 0 → s.overlay.weight u v = g.weight u v

theorem pairwise_disjoint {parts : List Cut}
    (h : ∀ e, (parts.countP fun part => decide (e ∈ part)) ≤ 1) :
    parts.Pairwise fun a b => ∀ e ∈ a, e ∉ b := by
  induction parts with
  | nil => exact .nil
  | cons a parts ih =>
    simp only [List.countP_cons] at h
    refine .cons ?_ (ih fun e => Nat.le_trans (Nat.le_add_right _ _) (h e))
    intro b hb e hea heb
    have hpos : 0 < parts.countP fun part => decide (e ∈ part) :=
      List.countP_pos_iff.mpr ⟨b, hb, by simpa using heb⟩
    have hle := h e
    rw [if_pos (by simpa using hea)] at hle
    omega

theorem Exclusive.accounted (h : Exclusive g s) : Accounted g s where
  positive := h.owned
  counted := h.balanced
  lowered := fun _ _ _ _ hsplit => h.toValid.held_pos_of_release hsplit
  disjoint := pairwise_disjoint fun e => h.balanced e ▸ h.single e
  present := fun part hpart e he => (h.finite part hpart e he).1
  removed := by
    intro u v
    rw [h.toTidy.weight]
    split
    · rename_i hfree
      simp [hfree]
    · rename_i hheld
      simp [hheld]
  kept := by
    intro u v hne
    rw [h.toTidy.weight] at hne ⊢
    split at hne
    · rename_i hfree
      rw [if_pos hfree]
    · exact absurd rfl hne

end CutState

/-- The states of cutting groups in turn between its calls, from the start on; faulty groups are not
begun with. -/
def iteratedTrace (limit : Nat) (cancelled : Bool) (graph : Digraph)
    (groups : List WaypointGroup) : List CutState :=
  match prepareGroups graph groups with
  | .error _ => []
  | .ok prepared =>
    CutState.start graph prepared.length ::
      (iteratedCut limit cancelled .initial graph groups).events.filterMap CutEvent.state?

open CutState CutRun

variable {graph : Digraph} {groups : List WaypointGroup}

theorem CutState.Sound.rounds {g : Digraph} {n : Nat} {s : CutState} {cancelled : Bool}
    (h : Sound g n s) (hg : g.Consistent) (hn : groups.length = n)
    (hwell : ∀ group ∈ groups, group.WellPosed g.size) (limit : Nat) :
    ∀ u ∈ states (s.rounds limit cancelled groups), Sound g n u := by
  have hpasses : ∀ u ∈ states (s.passes cancelled groups 0 [s.parts] limit), Sound g n u :=
    h.passes hg hn hwell 0 [s.parts] limit
  unfold CutState.rounds
  intro u hu
  rcases mem_states_bind.mp hu with hu | ⟨⟨t, made, ending⟩, hrun, hu⟩
  · exact hpasses u hu
  · simp only at hu
    split at hu
    · exact absurd hu List.not_mem_nil
    · exact (h.of_leads (leads_passes hrun) hpasses).repair hg (by omega) hwell u hu

theorem CutState.leads_rounds {s t : CutState} {limit : Nat} {cancelled : Bool}
    (hrun : (s.rounds limit cancelled groups).result = .ok t) :
    Leads (s.rounds limit cancelled groups) s t := by
  unfold CutState.rounds at hrun ⊢
  obtain ⟨⟨u, made, ending⟩, hpasses, hrun⟩ := Recorded.bind_result_eq_ok_iff.mp hrun
  refine (leads_passes hpasses).bind hpasses ?_
  simp only at hrun ⊢
  split at hrun
  · rename_i hconverged
    cases hrun
    rw [if_pos hconverged]
    exact .of_states_eq_nil rfl
  · rename_i hconverged
    rw [if_neg hconverged]
    exact leads_repair hrun

/-- In every state of a run between the calls by which groups let go of edges and take them, the
round that only adds included, all three copies of what is cut agree; and the cut is what has a
holder in the last state. -/
theorem iteratedCut_accounted (graph : Digraph) (hg : graph.Consistent)
    (groups : List WaypointGroup) (hgroups : ∀ g ∈ groups, g.fault? graph.size = none)
    (limit : Nat) (cancelled : Bool) (before : CutProgress) :
    (∃ prepared, prepareGroups graph groups = .ok prepared ∧
      ∀ s ∈ iteratedTrace limit cancelled graph groups,
        s.Accounted graph ∧ s.parts.length = prepared.length) ∧
      ∀ cut, (iteratedCut limit cancelled before graph groups).outcome.result = .ok cut →
        ∃ s, (iteratedTrace limit cancelled graph groups).getLast? = some s ∧
          ∀ e, e ∈ cut ↔ s.held e ≠ 0 := by
  obtain ⟨prepared, hprepare⟩ : ∃ prepared, prepareGroups graph groups = .ok prepared :=
    ⟨_, prepareGroups_eq_ok_iff.mpr ⟨hgroups, rfl⟩⟩
  obtain ⟨hwell, hsame⟩ := prepareGroups_eq_ok hprepare
  have hprepared : ∀ x ∈ prepared, x.WellPosed graph.size := fun x hx => hwell x ((hsame x).mp hx)
  have hstart := Sound.start graph prepared.length
  have hsound : ∀ s ∈ iteratedTrace limit cancelled graph groups,
      Sound graph prepared.length s := by
    unfold iteratedTrace iteratedCut
    rw [hprepare]
    cases prepared with
    | nil => exact List.forall_mem_singleton.mpr hstart
    | cons x rest =>
      dsimp only
      rw [(IteratedRun.ofPrepared_rounds _ _ _ _).2]
      exact List.forall_mem_cons.mpr ⟨hstart, hstart.rounds hg rfl hprepared _⟩
  refine ⟨⟨prepared, hprepare, fun s hs => ⟨(hsound s hs).1.accounted, (hsound s hs).2⟩⟩, ?_⟩
  intro cut hcut
  have hlast : ∃ s, (iteratedTrace limit cancelled graph groups).getLast? = some s ∧
      cut = s.cut := by
    unfold iteratedTrace
    unfold iteratedCut at hcut ⊢
    rw [hprepare] at hcut ⊢
    cases prepared with
    | nil =>
      cases hcut
      exact ⟨start graph 0, rfl, rfl⟩
    | cons x rest =>
      dsimp only at hcut ⊢
      obtain ⟨hresult, hevents⟩ :=
        IteratedRun.ofPrepared_rounds (max limit 1) cancelled graph (x :: rest)
      rw [hresult] at hcut
      rw [hevents]
      obtain ⟨s, hs, rfl⟩ := Except.map_eq_ok_iff.mp hcut
      exact ⟨s, leads_rounds hs, rfl⟩
  obtain ⟨s, hs, rfl⟩ := hlast
  exact ⟨s, hs, fun e => (hsound s (List.mem_of_mem_getLast? hs)).1.toValid.mem_cut⟩

def servedChain : WeightedGraph :=
  (WeightedGraph.withNodes 3).putAll [(⟨0, 1⟩, 1), (⟨1, 2⟩, 1)]

def nestedGroups : List WaypointGroup :=
  [⟨[.singleton 0, .singleton 2]⟩, ⟨[.singleton 1, .singleton 2]⟩]

/-- The first pass cuts both edges.  In the second pass the first group lets go of its edge, which is
back in the graph, and the limit leaves it to the round that only adds to find nothing to do. -/
theorem iteratedCut_accounted_servedChain :
    (∀ g ∈ nestedGroups, g.fault? servedChain.digraph.size = none) ∧
      ∃ s, (iteratedTrace 2 false servedChain.digraph nestedGroups).getLast? = some s ∧
        s.Accounted servedChain.digraph ∧ s.held ⟨1, 2⟩ ≠ 0 ∧ s.overlay.weight 0 1 = 1 := by
  have hgroups : ∀ g ∈ nestedGroups, g.fault? servedChain.digraph.size = none := by
    decide +kernel
  have hrun : (iteratedCut 2 false .initial servedChain.digraph nestedGroups).outcome.result =
      .ok (.singleton ⟨1, 2⟩) := by
    cbv
  obtain ⟨⟨prepared, -, hall⟩, hcut⟩ := iteratedCut_accounted servedChain.digraph
    servedChain.digraph_consistent nestedGroups hgroups 2 false .initial
  obtain ⟨s, hlast, hheld⟩ := hcut _ hrun
  obtain ⟨haccounted, -⟩ := hall s (List.mem_of_mem_getLast? hlast)
  have hfree : ¬ s.held ⟨0, 1⟩ ≠ 0 := fun hne => absurd ((hheld ⟨0, 1⟩).mpr hne) (by decide +kernel)
  have hleft : s.overlay.weight 0 1 ≠ 0 := by
    rw [ne_eq, haccounted.removed, not_or]
    exact ⟨hfree, by decide +kernel⟩
  exact ⟨hgroups, s, hlast, haccounted, (hheld ⟨1, 2⟩).mp (by decide +kernel),
    haccounted.kept 0 1 hleft⟩

end SpecFence
