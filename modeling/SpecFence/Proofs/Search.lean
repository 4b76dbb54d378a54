import Mathlib.Logic.Relation
import Mathlib.Tactic.Common
import SpecFence.Graph.Search

/-!
# What the searches find

`Search.spread` marks exactly the states below the size of the table that its starts lead to.
`Search.shortest` gives steps for which every invariant of the queue holds, and when it gives none,
some set of states holds all starts, is closed under steps and contains no goal.
-/

set_option autoImplicit false

namespace SpecFence

open Relation

namespace Marks

theorem has_iff {m : Marks} {i : Nat} : m.has i = true ↔ ∃ h : i < m.size, m[i] = true := by
  unfold has
  by_cases h : i < m.size
  · simp [h]
  · simp [h]

theorem not_has_iff {m : Marks} {i : Nat} (hi : i < m.size) : m.has i = false ↔ m[i] = false := by
  simp [has, hi]

theorem has_set {m : Marks} {v i : Nat} (h : v < m.size) :
    has (m.set v true h) i = true ↔ i = v ∨ m.has i = true := by
  unfold has
  rw [Array.getElem?_set]
  by_cases hv : v = i
  · simp [hv]
  · have hi : i ≠ v := fun e => hv e.symm
    simp [hv, hi]

theorem lt_of_has {m : Marks} {i : Nat} (h : m.has i = true) : i < m.size :=
  (has_iff.mp h).1

theorem not_has_replicate (n i : Nat) : ¬ has (Array.replicate n false) i = true := by
  intro h
  obtain ⟨hi, h⟩ := has_iff.mp h
  simp at h

theorem mem_members {m : Marks} {i : Nat} : i ∈ m.members ↔ m.has i = true := by
  unfold members
  rw [List.mem_filter, List.mem_range]
  constructor
  · intro h
    exact h.2
  · intro h
    exact ⟨lt_of_has h, h⟩

theorem open_iff {m : Marks} {v : Nat} :
    (∃ hv : v < m.size, m[v] = false) ↔ v < m.size ∧ ¬ m.has v = true := by
  constructor
  · rintro ⟨hv, h⟩
    refine ⟨hv, ?_⟩
    rw [(not_has_iff hv).mpr h]
    simp
  · rintro ⟨hv, h⟩
    refine ⟨hv, (not_has_iff hv).mp ?_⟩
    simpa using h

end Marks

namespace Search

def Step (next : Nat → List Nat) (size : Nat) (a b : Nat) : Prop := b ∈ next a ∧ b < size

section Spread

variable {next : Nat → List Nat}

theorem size_spread (seen : Marks) (work : List Nat) :
    (spread next seen work).size = seen.size := by
  induction seen, work using spread.induct next with
  | case1 seen => rw [spread]
  | case2 seen v rest h ih =>
    rw [spread, dif_pos h, ih]
    simp
  | case3 seen v rest h ih => rw [spread, dif_neg h, ih]

theorem of_has_spread (seen : Marks) (work : List Nat) (x : Nat)
    (hx : (spread next seen work).has x = true) :
    seen.has x = true ∨
      ∃ s ∈ work, s < seen.size ∧ ReflTransGen (Step next seen.size) s x := by
  induction seen, work using spread.induct next with
  | case1 seen =>
    rw [spread] at hx
    exact Or.inl hx
  | case2 seen v rest h ih =>
    rw [spread, dif_pos h] at hx
    have hv : v < seen.size := h.1
    rcases ih hx with hseen | ⟨s, hs, hlt, hreach⟩
    · rcases (Marks.has_set hv).mp hseen with hxv | hold
      · subst hxv
        exact Or.inr ⟨x, List.mem_cons_self, hv, ReflTransGen.refl⟩
      · exact Or.inl hold
    · rw [Array.size_set] at hlt hreach
      right
      rcases List.mem_append.mp hs with hnext | hrest
      · exact ⟨v, List.mem_cons_self, hv, ReflTransGen.head ⟨hnext, hlt⟩ hreach⟩
      · exact ⟨s, List.mem_cons_of_mem v hrest, hlt, hreach⟩
  | case3 seen v rest h ih =>
    rw [spread, dif_neg h] at hx
    rcases ih hx with hold | ⟨s, hs, hlt, hreach⟩
    · exact Or.inl hold
    · exact Or.inr ⟨s, List.mem_cons_of_mem v hs, hlt, hreach⟩

def Pending (next : Nat → List Nat) (seen : Marks) (work : List Nat) : Prop :=
  ∀ a b, seen.has a = true → Step next seen.size a b → seen.has b = true ∨ b ∈ work

theorem Pending.visit {seen : Marks} {v : Nat} {rest : List Nat} (h : Pending next seen (v :: rest))
    (hv : v < seen.size) : Pending next (seen.set v true hv) (next v ++ rest) := by
  intro a b ha hab
  rw [Array.size_set] at hab
  rcases (Marks.has_set hv).mp ha with hav | ha
  · subst hav
    exact Or.inr (List.mem_append.mpr (Or.inl hab.1))
  · rcases h a b ha hab with hb | hb
    · exact Or.inl ((Marks.has_set hv).mpr (Or.inr hb))
    · rcases List.mem_cons.mp hb with hbv | hb
      · exact Or.inl ((Marks.has_set hv).mpr (Or.inl hbv))
      · exact Or.inr (List.mem_append.mpr (Or.inr hb))

theorem Pending.skip {seen : Marks} {v : Nat} {rest : List Nat} (h : Pending next seen (v :: rest))
    (hv : ¬ ∃ hv : v < seen.size, seen[v] = false) : Pending next seen rest := by
  intro a b ha hab
  rcases h a b ha hab with hb | hb
  · exact Or.inl hb
  · rcases List.mem_cons.mp hb with hbv | hb
    · subst hbv
      rw [Marks.open_iff] at hv
      have hb : seen.has b = true := by
        by_contra hnot
        exact hv ⟨hab.2, hnot⟩
      exact Or.inl hb
    · exact Or.inr hb

/-- What was marked stays marked, all work in range gets marked, and in the end every step from a
marked state leads to a marked state. -/
theorem spread_closed (seen : Marks) (work : List Nat) (h : Pending next seen work) :
    (∀ x, seen.has x = true → (spread next seen work).has x = true) ∧
      (∀ x ∈ work, x < seen.size → (spread next seen work).has x = true) ∧
      Pending next (spread next seen work) [] := by
  induction seen, work using spread.induct next with
  | case1 seen =>
    rw [spread]
    exact ⟨fun x hx => hx, by simp, h⟩
  | case2 seen v rest hopen ih =>
    rw [spread, dif_pos hopen]
    have hv : v < seen.size := hopen.1
    obtain ⟨hkeep, hwork, hclosed⟩ := ih (h.visit hv)
    refine ⟨?_, ?_, hclosed⟩
    · intro x hx
      exact hkeep x ((Marks.has_set hv).mpr (Or.inr hx))
    · intro x hx hlt
      rcases List.mem_cons.mp hx with hxv | hx
      · exact hkeep x ((Marks.has_set hv).mpr (Or.inl hxv))
      · exact hwork x (List.mem_append.mpr (Or.inr hx)) (by simpa using hlt)
  | case3 seen v rest hclosed ih =>
    rw [spread, dif_neg hclosed]
    obtain ⟨hkeep, hwork, hpending⟩ := ih (h.skip hclosed)
    refine ⟨hkeep, ?_, hpending⟩
    intro x hx hlt
    rcases List.mem_cons.mp hx with hxv | hx
    · subst hxv
      rw [Marks.open_iff] at hclosed
      by_contra hnot
      exact hclosed ⟨hlt, fun hhas => hnot (hkeep x hhas)⟩
    · exact hwork x hx hlt

theorem has_spread_iff {n : Nat} {starts : List Nat} {x : Nat} :
    (spread next (Array.replicate n false) starts).has x = true ↔
      ∃ s ∈ starts, s < n ∧ ReflTransGen (Step next n) s x := by
  have hsize : (Array.replicate n false).size = n := Array.size_replicate
  constructor
  · intro hx
    rcases of_has_spread _ _ x hx with hold | hnew
    · exact absurd hold (Marks.not_has_replicate n x)
    · rwa [hsize] at hnew
  · rintro ⟨s, hs, hlt, hreach⟩
    have hpending : Pending next (Array.replicate n false) starts := by
      intro a b ha
      exact absurd ha (Marks.not_has_replicate n a)
    obtain ⟨-, hstarts, hclosed⟩ := spread_closed _ _ hpending
    induction hreach with
    | refl => exact hstarts s hs (by rwa [hsize])
    | tail hab hstep ih =>
      rcases hclosed _ _ ih (by rwa [size_spread, hsize]) with hb | hb
      · exact hb
      · exact absurd hb List.not_mem_nil

end Spread

section Shortest

variable {σ : Type} {next : Nat → List (σ × Nat)} {goal : Nat → Bool}

/-- A property of queue entries that every visit hands on.  It may speak of the states closed so
far, and closing more states must not break it. -/
structure Carried (next : Nat → List (σ × Nat)) (goal : Nat → Bool)
    (P : Marks → Nat → List σ → Prop) : Prop where
  close : ∀ (closed : Marks) (u : Nat) (hu : u < closed.size) (v : Nat) (walk : List σ),
    P closed v walk → P (closed.set u true hu) v walk
  step : ∀ (closed : Marks) (v : Nat) (hv : v < closed.size) (walk : List σ),
    ¬ closed.has v = true → ¬ goal v = true → P closed v walk →
    ∀ s w, (s, w) ∈ next v → P (closed.set v true hv) w (s :: walk)

theorem shortest_some {P : Marks → Nat → List σ → Prop} (hP : Carried next goal P)
    (closed : Marks) (queue : List (Nat × List σ))
    (hqueue : ∀ v walk, (v, walk) ∈ queue → P closed v walk) (steps : List σ)
    (h : shortest next goal closed queue = some steps) :
    ∃ closed' v walk, v < closed.size ∧ goal v = true ∧ P closed' v walk ∧
      ¬ closed'.has v = true ∧ steps = walk.reverse := by
  induction closed, queue using shortest.induct next goal with
  | case1 closed =>
    rw [shortest] at h
    cases h
  | case2 closed v walk rest hopen hgoal =>
    rw [shortest, dif_pos hopen, if_pos hgoal] at h
    have hv := Marks.open_iff.mp hopen
    exact ⟨closed, v, walk, hv.1, hgoal, hqueue v walk List.mem_cons_self, hv.2,
      (Option.some.inj h).symm⟩
  | case3 closed v walk rest hopen hgoal ih =>
    rw [shortest, dif_pos hopen, if_neg hgoal] at h
    have hv : v < closed.size := hopen.1
    have hentries : ∀ x y, (x, y) ∈ rest ++ (next v).map (fun step => (step.2, step.1 :: walk)) →
        P (closed.set v true hv) x y := by
      intro x y hxy
      rcases List.mem_append.mp hxy with hrest | hnew
      · exact hP.close closed v hv x y (hqueue x y (List.mem_cons_of_mem _ hrest))
      · obtain ⟨⟨s, w⟩, hsw, heq⟩ := List.mem_map.mp hnew
        cases heq
        exact hP.step closed v hv walk (Marks.open_iff.mp hopen).2 hgoal
          (hqueue v walk List.mem_cons_self) s _ hsw
    obtain ⟨closed', x, y, hlt, hrest⟩ := ih hentries h
    exact ⟨closed', x, y, by simpa using hlt, hrest⟩
  | case4 closed v walk rest hclosed ih =>
    rw [shortest, dif_neg hclosed] at h
    exact ih (fun x y hxy => hqueue x y (List.mem_cons_of_mem _ hxy)) h

/-- The steps from each closed state lead to closed states or to queued ones, and no closed state
is a goal. -/
structure Explored (next : Nat → List (σ × Nat)) (goal : Nat → Bool) (closed : Marks)
    (queue : List (Nat × List σ)) : Prop where
  pending : ∀ a s b, closed.has a = true → (s, b) ∈ next a → b < closed.size →
    closed.has b = true ∨ b ∈ queue.map Prod.fst
  noGoal : ∀ a, closed.has a = true → goal a = false

theorem Explored.visit {closed : Marks} {v : Nat} {walk : List σ} {rest : List (Nat × List σ)}
    (h : Explored next goal closed ((v, walk) :: rest)) (hv : v < closed.size)
    (hgoal : ¬ goal v = true) :
    Explored next goal (closed.set v true hv)
      (rest ++ (next v).map fun (s, w) => (w, s :: walk)) where
  pending := by
    intro a s b ha hab hb
    rw [Array.size_set] at hb
    rw [List.map_append, List.mem_append]
    rcases (Marks.has_set hv).mp ha with hav | ha
    · subst hav
      right
      right
      rw [List.mem_map]
      exact ⟨(b, s :: walk), List.mem_map.mpr ⟨(s, b), hab, rfl⟩, rfl⟩
    · rcases h.pending a s b ha hab hb with hclosed | hqueued
      · exact Or.inl ((Marks.has_set hv).mpr (Or.inr hclosed))
      · rcases List.mem_cons.mp hqueued with hbv | hrest
        · exact Or.inl ((Marks.has_set hv).mpr (Or.inl hbv))
        · exact Or.inr (Or.inl hrest)
  noGoal := by
    intro a ha
    rcases (Marks.has_set hv).mp ha with hav | ha
    · rw [hav]
      simpa using hgoal
    · exact h.noGoal a ha

theorem Explored.skip {closed : Marks} {v : Nat} {walk : List σ} {rest : List (Nat × List σ)}
    (h : Explored next goal closed ((v, walk) :: rest))
    (hclosed : ¬ ∃ hv : v < closed.size, closed[v] = false) :
    Explored next goal closed rest where
  pending := by
    intro a s b ha hab hb
    rcases h.pending a s b ha hab hb with hclosed' | hqueued
    · exact Or.inl hclosed'
    · rcases List.mem_cons.mp hqueued with hbv | hrest
      · have hbv : b = v := hbv
        subst hbv
        left
        by_contra hnot
        exact hclosed (Marks.open_iff.mpr ⟨hb, hnot⟩)
      · exact Or.inr hrest
  noGoal := h.noGoal

/-- When no steps are found, a set of states without a goal holds what is closed and what is queued
and is closed under steps. -/
theorem shortest_none (closed : Marks) (queue : List (Nat × List σ))
    (hexplored : Explored next goal closed queue)
    (h : shortest next goal closed queue = none) :
    ∃ R : Nat → Prop, (∀ a, closed.has a = true → R a) ∧
      (∀ a ∈ queue.map Prod.fst, a < closed.size → R a) ∧
      (∀ a s b, R a → (s, b) ∈ next a → b < closed.size → R b) ∧ ∀ a, R a → goal a = false := by
  induction closed, queue using shortest.induct next goal with
  | case1 closed =>
    refine ⟨fun a => closed.has a = true, fun a ha => ha, by simp, ?_, hexplored.noGoal⟩
    intro a s b ha hab hb
    rcases hexplored.pending a s b ha hab hb with hclosed | hqueued
    · exact hclosed
    · exact absurd hqueued List.not_mem_nil
  | case2 closed v walk rest hopen hgoal =>
    rw [shortest, dif_pos hopen, if_pos hgoal] at h
    cases h
  | case3 closed v walk rest hopen hgoal ih =>
    rw [shortest, dif_pos hopen, if_neg hgoal] at h
    have hv : v < closed.size := hopen.1
    obtain ⟨R, hclosed, hqueue, hstep, hnone⟩ := ih (hexplored.visit hv hgoal) h
    rw [Array.size_set] at hqueue hstep
    refine ⟨R, ?_, ?_, hstep, hnone⟩
    · intro a ha
      exact hclosed a ((Marks.has_set hv).mpr (Or.inr ha))
    · intro a ha hlt
      rcases List.mem_cons.mp ha with hav | ha
      · exact hclosed a ((Marks.has_set hv).mpr (Or.inl hav))
      · refine hqueue a ?_ hlt
        rw [List.map_append, List.mem_append]
        exact Or.inl ha
  | case4 closed v walk rest hskip ih =>
    rw [shortest, dif_neg hskip] at h
    obtain ⟨R, hclosed, hqueue, hstep, hnone⟩ := ih (hexplored.skip hskip) h
    refine ⟨R, hclosed, ?_, hstep, hnone⟩
    intro a ha hlt
    rcases List.mem_cons.mp ha with hav | ha
    · have hav : a = v := hav
      subst hav
      apply hclosed
      by_contra hnot
      exact hskip (Marks.open_iff.mpr ⟨hlt, hnot⟩)
    · exact hqueue a ha hlt

theorem shortest_replicate_none {n : Nat} {queue : List (Nat × List σ)}
    (h : shortest next goal (Array.replicate n false) queue = none) :
    ∃ R : Nat → Prop, (∀ a ∈ queue.map Prod.fst, a < n → R a) ∧
      (∀ a s b, R a → (s, b) ∈ next a → b < n → R b) ∧ ∀ a, R a → goal a = false := by
  have hsize : (Array.replicate n false).size = n := Array.size_replicate
  have hexplored : Explored next goal (Array.replicate n false) queue := by
    constructor
    · intro a s b ha
      exact absurd ha (Marks.not_has_replicate n a)
    · intro a ha
      exact absurd ha (Marks.not_has_replicate n a)
  obtain ⟨R, -, hqueue, hstep, hnone⟩ := shortest_none _ queue hexplored h
  rw [hsize] at hqueue hstep
  exact ⟨R, hqueue, hstep, hnone⟩

end Shortest

end Search

end SpecFence
