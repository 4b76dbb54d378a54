import SpecFence.Proofs.Labels
import SpecFence.Proofs.Rounds

/-!
# Progress through stages

A walk makes progress through the stages of a group: it starts in the first stage, takes steps, and
notes the next stage when it stands in it.  Both the search for a walk and the labels that nodes
receive are about this progress.  Since consecutive stages are disjoint, a node of the next stage is
reached by a step, so it makes no difference whether a node is asked before or after that step.
-/

set_option autoImplicit false

namespace SpecFence

open Relation

theorem next_of_drop {stages rest : List NodeSet} {i : Nat} {s : NodeSet}
    (h : stages.drop i = s :: rest) : stages[i]? = some s ∧ stages.drop (i + 1) = rest := by
  constructor
  · rw [← List.head?_drop, h, List.head?_cons]
  · rw [← List.drop_drop, h, List.drop_one, List.tail_cons]

/-- From a node of the first stage, steps have led through the stages up to a numbered one and on to
a node. -/
inductive Progress (R : Node → Node → Prop) (stages : List NodeSet) : Nat → Node → Prop
  | start {s : NodeSet} {v : Node} (hs : stages[0]? = some s) (hv : v ∈ s) : Progress R stages 0 v
  | step {k : Nat} {u v : Node} (hrest : Progress R stages k u) (huv : R u v) :
      Progress R stages k v
  | enter {k : Nat} {s : NodeSet} {v : Node} (hrest : Progress R stages k v)
      (hs : stages[k + 1]? = some s) (hv : v ∈ s) : Progress R stages (k + 1) v

namespace Progress

variable {R S : Node → Node → Prop} {stages : List NodeSet} {k : Nat} {v : Node}

theorem mono (hRS : ∀ a b, R a b → S a b) (h : Progress R stages k v) : Progress S stages k v := by
  induction h with
  | start hs hv => exact start hs hv
  | step _ huv ih => exact step ih (hRS _ _ huv)
  | enter _ hs hv ih => exact enter ih hs hv

theorem steps {u : Node} (h : Progress R stages k u) (huv : ReflTransGen R u v) :
    Progress R stages k v := by
  induction huv with
  | refl => exact h
  | tail _ hab ih => exact ih.step hab

theorem exists_step (h : Progress R stages k v) (hout : ∀ s, stages[k]? = some s → v ∉ s) :
    ∃ u, Progress R stages k u ∧ R u v := by
  cases h with
  | start hs hv => exact absurd hv (hout _ hs)
  | step hrest huv => exact ⟨_, hrest, huv⟩
  | enter _ hs hv => exact absurd hv (hout _ hs)

theorem exists_entered (h : Progress R stages (k + 1) v) :
    ∃ s u, stages[k + 1]? = some s ∧ u ∈ s ∧ Progress R stages k u := by
  generalize hk : k + 1 = n at h
  induction h with
  | start => omega
  | step _ _ ih => exact ih hk
  | enter hrest hs hv _ =>
    cases hk
    exact ⟨_, _, hs, hv, hrest⟩

theorem exists_of_threads {rest : List NodeSet} {u : Node} (h : Progress R stages k u)
    (hrest : stages.drop (k + 1) = rest) (hthreads : Threads R (· ∈ ·) u rest) :
    ∃ w, Progress R stages (k + rest.length) w := by
  induction rest generalizing k u with
  | nil => exact ⟨u, h⟩
  | cons s rest ih =>
    obtain ⟨w, huw, hw, hnext⟩ := hthreads
    obtain ⟨hs, hdrop⟩ := next_of_drop hrest
    obtain ⟨x, hx⟩ := ih ((h.steps huw).enter hs hw) hdrop hnext
    refine ⟨x, ?_⟩
    rwa [List.length_cons, Nat.add_comm rest.length, ← Nat.add_assoc]

theorem threaded (h : Progress R stages k v) {rest : List NodeSet}
    (hrest : stages.drop (k + 1) = rest) (hthreads : Threads R (· ∈ ·) v rest) :
    Threaded R (· ∈ ·) stages := by
  induction h generalizing rest with
  | @start s v hs hv =>
    have hstages : stages = s :: rest := by
      rw [← hrest, ← List.drop_zero (l := stages), List.drop_eq_getElem?_toList_append, hs]
      rfl
    exact ⟨s, rest, v, hstages, hv, hthreads⟩
  | @step k u v _ huv ih =>
    cases rest with
    | nil => exact ih hrest trivial
    | cons s rest =>
      obtain ⟨w, hvw, hw, hnext⟩ := hthreads
      exact ih hrest ⟨w, ReflTransGen.head huv hvw, hw, hnext⟩
  | @enter k s v _ hs hv ih =>
    have hdrop : stages.drop (k + 1) = s :: rest := by
      rw [← hrest, List.drop_eq_getElem?_toList_append (i := k + 1), hs]
      rfl
    exact ih hdrop ⟨v, ReflTransGen.refl, hv, hthreads⟩

end Progress

theorem WaypointGroup.satisfiable_iff_progress {R : Node → Node → Prop} {g : WaypointGroup} :
    g.Satisfiable R ↔ ∃ v, Progress R g.stages (g.stages.length - 1) v := by
  constructor
  · rintro ⟨first, rest, u, hstages, hu, hthreads⟩
    have hstart : Progress R g.stages 0 u := .start (by rw [hstages]; rfl) hu
    obtain ⟨w, hw⟩ := hstart.exists_of_threads (by rw [hstages]; rfl) hthreads
    refine ⟨w, ?_⟩
    rw [hstages] at hw ⊢
    simpa using hw
  · rintro ⟨v, hv⟩
    have hend : g.stages.drop (g.stages.length - 1 + 1) = [] :=
      List.drop_eq_nil_of_le (by omega)
    exact hv.threaded hend trivial

namespace LabelProblem

variable {p : LabelProblem}

section Witness

def Listed (p : LabelProblem) (walk : List Nat) (u v : Node) : Prop :=
  ∃ i ∈ walk, ∃ w, p.edges[i]? = some (⟨u, v⟩, w)

theorem Listed.cons {walk : List Nat} {u v : Node} (i : Nat) (h : p.Listed walk u v) :
    p.Listed (i :: walk) u v := by
  obtain ⟨j, hj, w, hedge⟩ := h
  exact ⟨j, List.mem_cons_of_mem i hj, w, hedge⟩

/-- What the search knows of a queued state: its walk is over uncut edges and has made the progress
that the state says. -/
def Led (p : LabelProblem) (stages : List NodeSet) (cut : EdgeSet) (state : Nat)
    (walk : List Nat) : Prop :=
  (∀ i ∈ walk, i < p.edges.size ∧ i ∉ cut) ∧
    Progress (p.Listed walk) stages (state / p.size) (state % p.size)

theorem exists_edge_of_mem_advance (h : p.WellFormed) (hsize : 0 < p.size) {stages : Array NodeSet}
    {cut : EdgeSet} {state next i : Nat} (hmem : (i, next) ∈ p.advance stages cut state) :
    ∃ v w, p.edges[i]? = some (⟨state % p.size, v⟩, w) ∧ i ∉ cut ∧ v < p.size ∧
      next = v + p.size * enter stages (state / p.size) v := by
  obtain ⟨j, hj, hsome⟩ := List.mem_filterMap.mp hmem
  split at hsome
  · cases hsome
  · rename_i huncut
    obtain ⟨dst, w, hedge⟩ := (mem_outgoing h (Nat.mod_lt state hsize)).mp hj
    rw [hedge] at hsome
    cases hsome
    exact ⟨dst, w, hedge, huncut, (h.bound _ _ _ hedge).2, rfl⟩

theorem Led.advance (h : p.WellFormed) {stages : List NodeSet} {cut : EdgeSet} {state next i : Nat}
    {walk : List Nat} (hsize : 0 < p.size) (hled : Led p stages cut state walk)
    (hmem : (i, next) ∈ p.advance stages.toArray cut state) :
    Led p stages cut next (i :: walk) := by
  obtain ⟨hfree, hprogress⟩ := hled
  obtain ⟨dst, w, hedge, huncut, hdst, rfl⟩ := exists_edge_of_mem_advance h hsize hmem
  refine ⟨?_, ?_⟩
  · intro x hx
    rcases List.mem_cons.mp hx with rfl | hx
    · exact ⟨(Array.getElem?_eq_some_iff.mp hedge).1, huncut⟩
    · exact hfree x hx
  · rw [div_state hdst, mod_state hdst]
    have hstep : Progress (p.Listed (i :: walk)) stages (state / p.size) dst :=
      (hprogress.mono fun _ _ huv => huv.cons i).step ⟨i, List.mem_cons_self, w, hedge⟩
    unfold enter
    rw [List.getElem?_toArray]
    split
    · rename_i s hs
      split
      · exact hstep.enter hs ‹_›
      · exact hstep
    · exact hstep

theorem groupWitness?_some (h : p.WellFormed) {c : WaypointGroup} (hc : c ∈ p.groups)
    {cut : EdgeSet} {walk : List Nat} (hwalk : p.groupWitness? c cut = some walk) :
    (∀ i ∈ walk, i < p.edges.size ∧ i ∉ cut) ∧ c.Satisfiable (p.Listed walk) := by
  have hwell := h.groups c hc
  have hlong := hwell.long
  rw [groupWitness?_eq hlong] at hwalk
  obtain ⟨first, rest, hstages⟩ : ∃ first rest, c.stages = first :: rest := by
    cases hstages : c.stages with
    | nil => simp [hstages] at hlong
    | cons first rest => exact ⟨first, rest, rfl⟩
  have hsize : 0 < p.size := by
    obtain ⟨v, hv⟩ := hwell.inhabited first (by rw [hstages]; exact List.mem_cons_self)
    exact Nat.zero_lt_of_lt (hwell.bound first (by rw [hstages]; exact List.mem_cons_self) v hv)
  have hcarried : Search.Carried (p.advance c.stages.toArray cut)
      (fun state => state / p.size == c.stages.length - 1)
      fun _ state walk => Led p c.stages cut state walk := by
    constructor
    · exact fun _ _ _ _ _ hled => hled
    · intro _ state _ walk _ _ hled i next hmem
      exact hled.advance h hsize hmem
  have hqueue : ∀ v found, (v, found) ∈ (p.starts c).map (fun v => (v, ([] : List Nat))) →
      Led p c.stages cut v found := by
    intro v found hmem
    obtain ⟨u, hu, heq⟩ := List.mem_map.mp hmem
    cases heq
    obtain ⟨hu, hlt⟩ := List.mem_filter.mp hu
    have hsource : v ∈ first := by
      unfold WaypointGroup.sources? at hu
      rwa [hstages] at hu
    have hlt : v < p.size := of_decide_eq_true hlt
    refine ⟨fun i hi => absurd hi List.not_mem_nil, ?_⟩
    rw [Nat.div_eq_of_lt hlt, Nat.mod_eq_of_lt hlt]
    exact .start (by rw [hstages]; rfl) hsource
  obtain ⟨-, state, found, -, hgoal, ⟨hfree, hprogress⟩, -, rfl⟩ :=
    Search.shortest_some hcarried _ _ hqueue walk hwalk
  refine ⟨fun i hi => hfree i (List.mem_reverse.mp hi), ?_⟩
  rw [WaypointGroup.satisfiable_iff_progress, ← beq_iff_eq.mp hgoal]
  refine ⟨_, hprogress.mono fun u v huv => ?_⟩
  obtain ⟨i, hi, w, hedge⟩ := huv
  exact ⟨i, List.mem_reverse.mpr hi, w, hedge⟩

theorem witness?_some (h : p.WellFormed) {cut : EdgeSet} {walk : List Nat}
    (hwalk : p.witness? cut = some walk) :
    (∀ i ∈ walk, i < p.edges.size ∧ i ∉ cut) ∧ ∃ c ∈ p.groups, c.Satisfiable (p.Listed walk) := by
  obtain ⟨before, c, after, hgroups, hc, -⟩ := List.findSome?_eq_some_iff.mp hwalk
  have hmem : c ∈ p.groups := by
    rw [hgroups]
    simp
  obtain ⟨hfree, hsatisfiable⟩ := groupWitness?_some h hmem hc
  exact ⟨hfree, c, hmem, hsatisfiable⟩

theorem witness?_eq_none_iff (h : p.WellFormed) {cut : EdgeSet} :
    p.witness? cut = none ↔ ∀ c ∈ p.groups, ¬ c.Satisfiable (p.Passable cut) := by
  constructor
  · exact witness?_none h
  · intro hall
    cases hwalk : p.witness? cut with
    | none => rfl
    | some walk =>
      obtain ⟨hfree, c, hc, hsatisfiable⟩ := witness?_some h hwalk
      refine absurd (hsatisfiable.mono fun u v huv => ?_) (hall c hc)
      obtain ⟨i, hi, w, hedge⟩ := huv
      exact ⟨i, w, hedge, (hfree i hi).2⟩

end Witness

end LabelProblem

end SpecFence
