import Mathlib.Logic.Relation
import Mathlib.Data.List.Chain
import Mathlib.Data.List.Forall2
import SpecFence.Waypoint
import SpecFence.Proofs.Search

/-!
# Walks through stages

A walk visits stages in order when it has places, one for each stage and none before the place of
an earlier stage, at which it stands in the stage.  Only the reachability between the states at
these places matters: `Threads` keeps exactly that, and `narrow?` decides it on a graph.
-/

set_option autoImplicit false

namespace SpecFence

open Relation

section Threads

variable {α : Type} {R S : α → α → Prop} {isIn : α → NodeSet → Prop}

/-- At the given places, one for each stage and none before the place of an earlier stage, a walk
stands in the stages. -/
def VisitsAt (isIn : α → NodeSet → Prop) (walk : List α) (places : List Nat)
    (stages : List NodeSet) : Prop :=
  places.Pairwise (· ≤ ·) ∧ List.Forall₂ (fun p s => ∃ v, walk[p]? = some v ∧ isIn v s) places stages

def Threads (R : α → α → Prop) (isIn : α → NodeSet → Prop) : α → List NodeSet → Prop
  | _, [] => True
  | u, s :: rest => ∃ v, ReflTransGen R u v ∧ isIn v s ∧ Threads R isIn v rest

/-- Steps lead from some state of the first stage through the others. -/
def Threaded (R : α → α → Prop) (isIn : α → NodeSet → Prop) (stages : List NodeSet) : Prop :=
  ∃ first rest u, stages = first :: rest ∧ isIn u first ∧ Threads R isIn u rest

theorem Threads.mono {u : α} {stages : List NodeSet} (hRS : ∀ a b, R a b → S a b)
    (h : Threads R isIn u stages) : Threads S isIn u stages := by
  induction stages generalizing u with
  | nil => exact trivial
  | cons s rest ih =>
    obtain ⟨v, huv, hv, hrest⟩ := h
    exact ⟨v, ReflTransGen.mono hRS _ _ huv, hv, ih hrest⟩

theorem Threaded.mono {stages : List NodeSet} (hRS : ∀ a b, R a b → S a b)
    (h : Threaded R isIn stages) : Threaded S isIn stages := by
  obtain ⟨first, rest, u, hstages, hu, hrest⟩ := h
  exact ⟨first, rest, u, hstages, hu, hrest.mono hRS⟩

section Map

variable {β : Type} {Q : β → β → Prop} {isAt : β → NodeSet → Prop} (image : α → β → Prop)

theorem reach_map (hstep : ∀ a b x, image a x → R a b → ∃ y, image b y ∧ Q x y) {u v : α} {x : β}
    (hx : image u x) (huv : ReflTransGen R u v) : ∃ y, image v y ∧ ReflTransGen Q x y := by
  induction huv with
  | refl => exact ⟨x, hx, ReflTransGen.refl⟩
  | tail _ hstep' ih =>
    obtain ⟨y, hy, hxy⟩ := ih
    obtain ⟨z, hz, hyz⟩ := hstep _ _ y hy hstep'
    exact ⟨z, hz, hxy.tail hyz⟩

theorem Threads.map (hstep : ∀ a b x, image a x → R a b → ∃ y, image b y ∧ Q x y)
    (hin : ∀ a x s, image a x → isIn a s → isAt x s) {u : α} {x : β} {stages : List NodeSet}
    (hx : image u x) (h : Threads R isIn u stages) : Threads Q isAt x stages := by
  induction stages generalizing u x with
  | nil => exact trivial
  | cons s rest ih =>
    obtain ⟨v, huv, hv, hrest⟩ := h
    obtain ⟨y, hy, hxy⟩ := reach_map image hstep hx huv
    exact ⟨y, hxy, hin v y s hy hv, ih hy hrest⟩

end Map

/-- A stretch of a walk all of whose steps are steps of a relation leads from its start to its
end. -/
theorem reach_of_stretch {walk : List α} {p q : Nat} {u v : α} (hpq : p ≤ q)
    (hsteps : ∀ i a b, p ≤ i → i < q → walk[i]? = some a → walk[i + 1]? = some b → R a b)
    (hu : walk[p]? = some u) (hv : walk[q]? = some v) : ReflTransGen R u v := by
  induction q, hpq using Nat.le_induction generalizing v with
  | base =>
    rw [hu] at hv
    cases hv
    exact ReflTransGen.refl
  | succ q hpq ih =>
    have hq : q + 1 < walk.length := (List.getElem?_eq_some_iff.mp hv).1
    have hmid : walk[q]? = some walk[q] := List.getElem?_eq_getElem (by omega)
    have hreach : ReflTransGen R u walk[q] :=
      ih (fun i a b hi hlt => hsteps i a b hi (by omega)) hmid
    exact hreach.tail (hsteps q _ v hpq (by omega) hmid hv)

/-- A walk whose steps from the first place to the last are steps of a relation threads the stages
that it visits at these places. -/
theorem threads_of_visits {walk : List α} {u : α} {p : Nat} {places : List Nat}
    {stages : List NodeSet} (hu : walk[p]? = some u) (hp : (p :: places).Pairwise (· ≤ ·))
    (hvisits : List.Forall₂ (fun p s => ∃ v, walk[p]? = some v ∧ isIn v s) places stages)
    (hsteps : ∀ i a b, p ≤ i → (∃ q ∈ places, i < q) → walk[i]? = some a →
      walk[i + 1]? = some b → R a b) :
    Threads R isIn u stages := by
  induction hvisits generalizing u p with
  | nil => exact trivial
  | @cons q s places rest hq _ ih =>
    obtain ⟨v, hv, hvs⟩ := hq
    obtain ⟨hle, hpairwise⟩ := List.pairwise_cons.mp hp
    have hpq : p ≤ q := hle q List.mem_cons_self
    refine ⟨v, ?_, hvs, ?_⟩
    · apply reach_of_stretch hpq _ hu hv
      intro i a b hi hlt
      exact hsteps i a b hi ⟨q, List.mem_cons_self, hlt⟩
    · apply ih hv hpairwise
      intro i a b hi ⟨r, hr, hlt⟩
      exact hsteps i a b (by omega) ⟨r, List.mem_cons_of_mem q hr, hlt⟩

theorem threaded_of_visitsAt {walk : List α} {places : List Nat} {stages : List NodeSet}
    (hstages : stages ≠ []) (hchain : walk.IsChain R)
    (hvisits : VisitsAt isIn walk places stages) : Threaded R isIn stages := by
  obtain ⟨hplaces, hforall⟩ := hvisits
  cases hforall with
  | nil => exact absurd rfl hstages
  | @cons p s places rest hp hrest =>
    obtain ⟨u, hu, hus⟩ := hp
    refine ⟨s, rest, u, rfl, hus, threads_of_visits hu hplaces hrest ?_⟩
    intro i a b _ _ ha hb
    obtain ⟨hi, ha⟩ := List.getElem?_eq_some_iff.mp ha
    obtain ⟨hi', hb⟩ := List.getElem?_eq_some_iff.mp hb
    have hstep := hchain.getElem i hi'
    rwa [ha, hb] at hstep

end Threads

section Visits

variable {α : Type} {isIn : α → NodeSet → Prop} {walk : List α} {places : List Nat}
  {stages : List NodeSet}

theorem VisitsAt.append (h : VisitsAt isIn walk places stages) (more : List α) :
    VisitsAt isIn (walk ++ more) places stages := by
  refine ⟨h.1, h.2.imp ?_⟩
  rintro p s ⟨v, hv, hvs⟩
  have hp := (List.getElem?_eq_some_iff.mp hv).1
  exact ⟨v, (List.getElem?_append_left hp).trans hv, hvs⟩

theorem VisitsAt.exists_stage (h : VisitsAt isIn walk places stages) {i p : Nat}
    (hp : places[i]? = some p) : ∃ s v, stages[i]? = some s ∧ walk[p]? = some v ∧ isIn v s := by
  obtain ⟨hi, rfl⟩ := List.getElem?_eq_some_iff.mp hp
  have hi' : i < stages.length := by rwa [← h.2.length_eq]
  obtain ⟨v, hv, hvs⟩ := h.2.get hi hi'
  exact ⟨stages[i], v, List.getElem?_eq_getElem hi', hv, hvs⟩

theorem VisitsAt.lt_length (h : VisitsAt isIn walk places stages) {p : Nat} (hp : p ∈ places) :
    p < walk.length := by
  obtain ⟨i, hi⟩ := List.getElem?_of_mem hp
  obtain ⟨-, v, -, hv, -⟩ := h.exists_stage hi
  exact (List.getElem?_eq_some_iff.mp hv).1

theorem VisitsAt.snoc (h : VisitsAt isIn walk places stages) {v : α} {s : NodeSet}
    (hlast : walk.getLast? = some v) (hv : isIn v s) :
    VisitsAt isIn walk (places ++ [walk.length - 1]) (stages ++ [s]) := by
  constructor
  · rw [List.pairwise_append]
    refine ⟨h.1, List.pairwise_singleton _ _, fun p hp q hq => ?_⟩
    have hlt := h.lt_length hp
    rw [List.mem_singleton.mp hq]
    omega
  · refine List.rel_append h.2 (.cons ⟨v, ?_, hv⟩ .nil)
    rw [← List.getLast?_eq_getElem?, hlast]

end Visits

namespace Digraph

variable {g : Digraph}

def Joins (g : Digraph) (u v : Node) : Prop := 0 < g.weight u v

/-- An edge that is not cut leads from one node to the other. -/
def Uncut (g : Digraph) (cut : Edge → Prop) (u v : Node) : Prop := g.Joins u v ∧ ¬ cut ⟨u, v⟩

theorem mem_next (hg : g.Consistent) {u v : Node} : v ∈ g.next u ↔ g.Joins u v := by
  unfold next Joins
  rw [List.mem_map]
  constructor
  · rintro ⟨⟨x, w⟩, hmem, rfl⟩
    have hw := (hg.mem_succs u x w).mp hmem
    rw [hw.2]
    exact hw.1
  · intro h
    exact ⟨(v, g.weight u v), (hg.mem_succs u v _).mpr ⟨h, rfl⟩, rfl⟩

theorem mem_prior (hg : g.Consistent) {u v : Node} : u ∈ g.prior v ↔ g.Joins u v := by
  unfold prior Joins
  rw [List.mem_map]
  constructor
  · rintro ⟨⟨x, w⟩, hmem, rfl⟩
    have hw := (hg.mem_preds x v w).mp hmem
    rw [hw.2]
    exact hw.1
  · intro h
    exact ⟨(u, g.weight u v), (hg.mem_preds u v _).mpr ⟨h, rfl⟩, rfl⟩

theorem step_next_iff (hg : g.Consistent) {u v : Node} :
    Search.Step g.next g.size u v ↔ g.Joins u v := by
  unfold Search.Step
  rw [mem_next hg]
  constructor
  · intro h
    exact h.1
  · intro h
    exact ⟨h, hg.dst_lt u v h⟩

theorem step_prior_iff (hg : g.Consistent) {u v : Node} :
    Search.Step g.prior g.size v u ↔ g.Joins u v := by
  unfold Search.Step
  rw [mem_prior hg]
  constructor
  · intro h
    exact h.1
  · intro h
    exact ⟨h, hg.src_lt u v h⟩

theorem has_reachableFrom (hg : g.Consistent) {starts : List Node} {v : Node} :
    (g.reachableFrom starts).has v = true ↔
      ∃ s ∈ starts, s < g.size ∧ ReflTransGen g.Joins s v := by
  have hstep : Search.Step g.next g.size = g.Joins := by
    funext a b
    exact propext (step_next_iff hg)
  unfold reachableFrom
  rw [Search.has_spread_iff, hstep]

theorem lt_of_has_reachableFrom {starts : List Node} {v : Node}
    (h : (g.reachableFrom starts).has v = true) : v < g.size := by
  have hlt := Marks.lt_of_has h
  rwa [reachableFrom, Search.size_spread, Array.size_replicate] at hlt

theorem has_reaching (hg : g.Consistent) {ends : List Node} {v : Node} :
    (g.reaching ends).has v = true ↔
      ∃ e ∈ ends, e < g.size ∧ ReflTransGen g.Joins v e := by
  have hstep : Search.Step g.prior g.size = Function.swap g.Joins := by
    funext a b
    exact propext (step_prior_iff hg)
  unfold reaching
  rw [Search.has_spread_iff, hstep]
  constructor
  · rintro ⟨e, he, hlt, hreach⟩
    exact ⟨e, he, hlt, reflTransGen_swap.mp hreach⟩
  · rintro ⟨e, he, hlt, hreach⟩
    exact ⟨e, he, hlt, reflTransGen_swap.mpr hreach⟩

end Digraph

namespace WaypointGroup

variable {graph : Digraph}

def Satisfiable (R : Node → Node → Prop) (g : WaypointGroup) : Prop :=
  Threaded R (· ∈ ·) g.stages

theorem narrowFrom_none (hg : graph.Consistent) {frontier : NodeSet} {stages : List NodeSet}
    (hfrontier : ∀ u ∈ frontier, u < graph.size)
    (h : narrowFrom graph frontier stages = none) :
    ∀ u ∈ frontier, ¬ Threads graph.Joins (· ∈ ·) u stages := by
  induction stages generalizing frontier with
  | nil =>
    intro u hu _
    rw [narrowFrom] at h
    split at h
    · rename_i hempty
      exact AscSet.isEmpty_iff.mp hempty u hu
    · cases h
  | cons next rest ih =>
    intro u hu hthreads
    rw [narrowFrom] at h
    split at h
    · rename_i hempty
      exact AscSet.isEmpty_iff.mp hempty u hu
    · rw [Option.map_eq_none_iff] at h
      obtain ⟨v, huv, hv, hrest⟩ := hthreads
      have hreach : (graph.reachableFrom frontier.toList).has v = true :=
        (Digraph.has_reachableFrom hg).mpr ⟨u, hu, hfrontier u hu, huv⟩
      have hbound : ∀ x ∈ next.filter (graph.reachableFrom frontier.toList).has,
          x < graph.size := by
        intro x hx
        exact Digraph.lt_of_has_reachableFrom (AscSet.mem_filter.mp hx).2
      exact ih hbound h v (AscSet.mem_filter.mpr ⟨hv, hreach⟩) hrest

/-- What narrowing gives: stages within the graph, one more than there were left, which every walk
through the old stages visits, whatever edges of the graph it uses. -/
structure Narrowed (graph : Digraph) (frontier : NodeSet) (stages narrowed : List NodeSet) :
    Prop where
  head : narrowed.head? = some frontier
  length : narrowed.length = stages.length + 1
  bound : ∀ s ∈ narrowed, ∀ v ∈ s, v < graph.size
  threads : ∀ Q : Node → Node → Prop, (∀ a b, Q a b → graph.Joins a b) → ∀ u ∈ frontier,
    Threads Q (· ∈ ·) u stages → Threads Q (· ∈ ·) u narrowed.tail

theorem narrowFrom_some (hg : graph.Consistent) {frontier : NodeSet} {stages : List NodeSet}
    {narrowed : List NodeSet} (hfrontier : ∀ u ∈ frontier, u < graph.size)
    (h : narrowFrom graph frontier stages = some narrowed) :
    Narrowed graph frontier stages narrowed := by
  induction stages generalizing frontier narrowed with
  | nil =>
    rw [narrowFrom] at h
    split at h
    · cases h
    · cases h
      exact ⟨rfl, rfl, by simpa using hfrontier, fun _ _ _ _ _ => trivial⟩
  | cons next rest ih =>
    rw [narrowFrom] at h
    split at h
    · cases h
    · obtain ⟨inner, hinner, rfl⟩ := Option.map_eq_some_iff.mp h
      have hbound : ∀ x ∈ next.filter (graph.reachableFrom frontier.toList).has,
          x < graph.size := by
        intro x hx
        exact Digraph.lt_of_has_reachableFrom (AscSet.mem_filter.mp hx).2
      have hin := ih hbound hinner
      obtain ⟨tail, rfl⟩ := List.head?_eq_some_iff.mp hin.head
      refine ⟨rfl, by simp [hin.length], ?_, ?_⟩
      · intro s hs
        rcases List.mem_cons.mp hs with rfl | hs
        · exact hfrontier
        · exact hin.bound s hs
      · rintro Q hQ u hu ⟨v, huv, hv, hrest⟩
        have hreach : (graph.reachableFrom frontier.toList).has v = true :=
          (Digraph.has_reachableFrom hg).mpr
            ⟨u, hu, hfrontier u hu, ReflTransGen.mono hQ _ _ huv⟩
        have hv' := AscSet.mem_filter.mpr ⟨hv, hreach⟩
        exact ⟨v, huv, hv', hin.threads Q hQ v hv' hrest⟩

/-- A group that has no fault over a graph of the given size. -/
structure WellPosed (g : WaypointGroup) (size : Nat) : Prop where
  long : 2 ≤ g.stages.length
  inhabited : ∀ s ∈ g.stages, ∃ v, v ∈ s
  bound : ∀ s ∈ g.stages, ∀ v ∈ s, v < size
  disjoint : g.stages.IsChain fun s t => ∀ v ∈ s, v ∉ t

theorem stageFault?_none {size i : Nat} {stages : List NodeSet}
    (h : stageFault? size i stages = none) :
    ∀ s ∈ stages, (∃ v, v ∈ s) ∧ ∀ v ∈ s, v < size := by
  induction stages generalizing i with
  | nil => simp
  | cons t rest ih =>
    rw [stageFault?] at h
    split at h
    · cases h
    · rename_i hempty
      split at h
      · cases h
      · rename_i hfind
        intro s hs
        rcases List.mem_cons.mp hs with rfl | hs
        · constructor
          · by_contra hnone
            exact hempty (AscSet.isEmpty_iff.mpr fun v hv => hnone ⟨v, hv⟩)
          · intro v hv
            have hle := List.find?_eq_none.mp hfind v hv
            simpa using hle
        · exact ih h s hs

theorem overlapFault?_none {i : Nat} {stages : List NodeSet}
    (h : overlapFault? i stages = none) : stages.IsChain fun s t => ∀ v ∈ s, v ∉ t := by
  induction stages generalizing i with
  | nil => exact .nil
  | cons s rest ih =>
    cases rest with
    | nil => exact .singleton s
    | cons t rest =>
      rw [overlapFault?] at h
      split at h
      · cases h
      · rename_i hfind
        refine .cons_cons ?_ (ih h)
        intro v hv
        have hnot := List.find?_eq_none.mp hfind v hv
        simpa using hnot

theorem wellPosed_of_fault? {g : WaypointGroup} {size : Nat} (h : g.fault? size = none) :
    g.WellPosed size := by
  unfold fault? at h
  split at h
  · cases h
  · rename_i hlong
    rw [Option.or_eq_none_iff] at h
    have hstages := stageFault?_none h.1
    exact ⟨by omega, fun s hs => (hstages s hs).1, fun s hs => (hstages s hs).2,
      overlapFault?_none h.2⟩

theorem stageFault?_eq_none {size : Nat} {stages : List NodeSet}
    (h : ∀ s ∈ stages, (∃ v, v ∈ s) ∧ ∀ v ∈ s, v < size) (i : Nat) :
    stageFault? size i stages = none := by
  induction stages generalizing i with
  | nil => rfl
  | cons s rest ih =>
    rw [List.forall_mem_cons] at h
    obtain ⟨⟨⟨v, hv⟩, hbound⟩, hrest⟩ := h
    have hinhabited : ¬ s.isEmpty = true := fun hempty => AscSet.isEmpty_iff.mp hempty v hv
    have hfind : s.toList.find? (size ≤ ·) = none := by
      rw [List.find?_eq_none]
      intro u hu
      simpa using hbound u hu
    rw [stageFault?, if_neg hinhabited, hfind]
    exact ih hrest (i + 1)

theorem overlapFault?_eq_none {stages : List NodeSet}
    (h : stages.IsChain fun s t => ∀ v ∈ s, v ∉ t) (i : Nat) :
    overlapFault? i stages = none := by
  induction stages generalizing i with
  | nil => rfl
  | cons s rest ih =>
    cases rest with
    | nil => rfl
    | cons t rest =>
      obtain ⟨hfirst, hrest⟩ := List.isChain_cons_cons.mp h
      have hfind : s.toList.find? (· ∈ t) = none := by
        rw [List.find?_eq_none]
        intro v hv
        simpa using hfirst v hv
      rw [overlapFault?, hfind]
      exact ih hrest (i + 1)

theorem WellPosed.fault?_eq_none {g : WaypointGroup} {size : Nat} (h : g.WellPosed size) :
    g.fault? size = none := by
  have hlong := h.long
  unfold fault?
  rw [if_neg (by omega), stageFault?_eq_none fun s hs => ⟨h.inhabited s hs, h.bound s hs⟩,
    overlapFault?_eq_none h.disjoint]
  rfl

theorem narrow?_none (hg : graph.Consistent) {g : WaypointGroup} (hwell : g.WellPosed graph.size)
    (h : g.narrow? graph = none) : ¬ g.Satisfiable graph.Joins := by
  rintro ⟨first, rest, u, hstages, hu, hthreads⟩
  have hlong := hwell.long
  rw [hstages] at hlong
  cases rest with
  | nil => simp at hlong
  | cons next rest =>
    unfold narrow? at h
    rw [hstages] at h
    have hlt : u < graph.size := by
      refine hwell.bound first ?_ u hu
      rw [hstages]
      exact List.mem_cons_self
    have hmem : u ∈ first.filter (· < graph.size) := AscSet.mem_filter.mpr ⟨hu, by simpa using hlt⟩
    refine narrowFrom_none hg ?_ h u hmem hthreads
    intro v hv
    simpa using (AscSet.mem_filter.mp hv).2

/-- Every walk that visits a group visits what the group is narrowed to, which has as many
stages, all of them within the graph. -/
theorem narrow?_some (hg : graph.Consistent) {g : WaypointGroup} (hwell : g.WellPosed graph.size)
    {narrowed : List NodeSet} (h : g.narrow? graph = some narrowed) :
    2 ≤ narrowed.length ∧ (∀ s ∈ narrowed, ∀ v ∈ s, v < graph.size) ∧
      ∀ Q : Node → Node → Prop, (∀ a b, Q a b → graph.Joins a b) →
        g.Satisfiable Q → Threaded Q (· ∈ ·) narrowed := by
  unfold narrow? at h
  split at h
  · rename_i first next rest hstages
    have hfrontier : ∀ u ∈ first.filter (· < graph.size), u < graph.size := by
      intro u hu
      simpa using (AscSet.mem_filter.mp hu).2
    have hin := narrowFrom_some hg hfrontier h
    refine ⟨by simp [hin.length], hin.bound, ?_⟩
    rintro Q hQ ⟨first', rest', u, hstages', hu, hthreads⟩
    rw [hstages] at hstages'
    cases hstages'
    obtain ⟨tail, rfl⟩ := List.head?_eq_some_iff.mp hin.head
    have hlt : u < graph.size := by
      refine hwell.bound first ?_ u hu
      rw [hstages]
      exact List.mem_cons_self
    have hmem : u ∈ first.filter (· < graph.size) := AscSet.mem_filter.mpr ⟨hu, by simpa using hlt⟩
    exact ⟨_, tail, u, rfl, hmem, hin.threads Q hQ u hmem hthreads⟩
  · cases h

end WaypointGroup

end SpecFence
