import Mathlib.Data.Bool.Count
import SpecFence.Graph.Traversal
import SpecFence.Proofs.Search

/-!
# What traversals mark

A traversal marks exactly the states that its starts lead to, in one turn for each of them.  While
it runs, every marked state is on the stack or leads to marked states only.
-/

set_option autoImplicit false

namespace SpecFence

open Relation

namespace Search

namespace Traversal

variable {next : Nat → List Nat} {t : Traversal} {v x : Nat} {vs starts : List Nat}

section Push

theorem size_push (t : Traversal) (v : Nat) : (t.push v).seen.size = t.seen.size := by
  unfold push
  split
  · simp
  · rfl

theorem has_push : (t.push v).seen.has x = true ↔
    t.seen.has x = true ∨ (x = v ∧ x < t.seen.size) := by
  unfold push
  split
  · rename_i hopen
    rw [Marks.has_set hopen.1]
    constructor
    · rintro (rfl | hx)
      · exact Or.inr ⟨rfl, hopen.1⟩
      · exact Or.inl hx
    · rintro (hx | ⟨rfl, -⟩)
      · exact Or.inr hx
      · exact Or.inl rfl
  · rename_i hclosed
    rw [Marks.open_iff] at hclosed
    refine ⟨Or.inl, ?_⟩
    rintro (hx | ⟨rfl, hlt⟩)
    · exact hx
    · by_contra hnot
      exact hclosed ⟨hlt, hnot⟩

theorem mem_stack_push : x ∈ (t.push v).stack ↔
    x ∈ t.stack ∨ (x = v ∧ x < t.seen.size ∧ ¬ t.seen.has x = true) := by
  unfold push
  split
  · rename_i hopen
    rw [List.mem_cons]
    constructor
    · rintro (rfl | hx)
      · exact Or.inr ⟨rfl, Marks.open_iff.mp hopen⟩
      · exact Or.inl hx
    · rintro (hx | ⟨rfl, -⟩)
      · exact Or.inr hx
      · exact Or.inl rfl
  · rename_i hclosed
    rw [Marks.open_iff] at hclosed
    refine ⟨Or.inl, ?_⟩
    rintro (hx | ⟨rfl, hopen⟩)
    · exact hx
    · exact absurd hopen hclosed

theorem size_pushAll (t : Traversal) (vs : List Nat) :
    (t.pushAll vs).seen.size = t.seen.size := by
  induction vs generalizing t with
  | nil => rfl
  | cons v vs ih => exact (ih (t.push v)).trans (size_push t v)

theorem has_pushAll : (t.pushAll vs).seen.has x = true ↔
    t.seen.has x = true ∨ (x ∈ vs ∧ x < t.seen.size) := by
  induction vs generalizing t with
  | nil => simp [pushAll]
  | cons v vs ih =>
    refine (ih (t := t.push v)).trans ?_
    rw [has_push, size_push, List.mem_cons, or_and_right, or_assoc]

theorem mem_stack_pushAll : x ∈ (t.pushAll vs).stack ↔
    x ∈ t.stack ∨ (x ∈ vs ∧ x < t.seen.size ∧ ¬ t.seen.has x = true) := by
  induction vs generalizing t with
  | nil => simp [pushAll]
  | cons v vs ih =>
    refine (ih (t := t.push v)).trans ?_
    rw [mem_stack_push, has_push, size_push, List.mem_cons]
    tauto

theorem has_of_not_mem_stack_pushAll (hx : (t.pushAll vs).seen.has x = true)
    (hout : x ∉ (t.pushAll vs).stack) : t.seen.has x = true := by
  rcases has_pushAll.mp hx with hold | ⟨hmem, hlt⟩
  · exact hold
  · by_contra hnot
    exact hout (mem_stack_pushAll.mpr (.inr ⟨hmem, hlt, hnot⟩))

end Push

/-- What a traversal keeps: only what the starts lead to is marked, what is on the stack is marked,
and a marked state that is not on the stack leads to marked states only. -/
structure Underway (next : Nat → List Nat) (size : Nat) (starts : List Nat) (t : Traversal) :
    Prop where
  size_eq : t.seen.size = size
  reached : ∀ x, t.seen.has x = true →
    ∃ s ∈ starts, s < size ∧ ReflTransGen (Step next size) s x
  started : ∀ s ∈ starts, s < size → t.seen.has s = true
  marked : ∀ x ∈ t.stack, t.seen.has x = true
  left : ∀ a b, t.seen.has a = true → a ∉ t.stack → Step next size a b → t.seen.has b = true

variable {size : Nat}

theorem has_start : (Traversal.start size starts).seen.has x = true ↔ x ∈ starts ∧ x < size := by
  unfold Traversal.start
  rw [has_pushAll, Array.size_replicate]
  exact or_iff_right (Marks.not_has_replicate size x)

theorem mem_stack_start : x ∈ (Traversal.start size starts).stack ↔ x ∈ starts ∧ x < size := by
  unfold Traversal.start
  rw [mem_stack_pushAll, Array.size_replicate]
  simp [Marks.not_has_replicate size x]

theorem Underway.start (next : Nat → List Nat) (size : Nat) (starts : List Nat) :
    Underway next size starts (.start size starts) := by
  constructor
  · exact (size_pushAll _ _).trans Array.size_replicate
  · intro x hx
    obtain ⟨hmem, hlt⟩ := has_start.mp hx
    exact ⟨x, hmem, hlt, .refl⟩
  · exact fun s hs hlt => has_start.mpr ⟨hs, hlt⟩
  · exact fun x hx => has_start.mpr (mem_stack_start.mp hx)
  · exact fun a b ha hout _ => absurd (mem_stack_start.mpr (has_start.mp ha)) hout

theorem Underway.turn {seen : Marks} {rest : List Nat}
    (h : Underway next size starts ⟨seen, v :: rest⟩) :
    Underway next size starts (pushAll ⟨seen, rest⟩ (next v)) := by
  have hseen : seen.size = size := h.size_eq
  have hv : seen.has v = true := h.marked v List.mem_cons_self
  constructor
  · exact (size_pushAll _ _).trans hseen
  · intro x hx
    rcases has_pushAll.mp hx with hx | ⟨hmem, hlt⟩
    · exact h.reached x hx
    · obtain ⟨s, hs, hslt, hreach⟩ := h.reached v hv
      exact ⟨s, hs, hslt, hreach.tail ⟨hmem, hseen ▸ hlt⟩⟩
  · exact fun s hs hlt => has_pushAll.mpr (Or.inl (h.started s hs hlt))
  · intro x hx
    rcases mem_stack_pushAll.mp hx with hx | ⟨hmem, hlt, -⟩
    · exact has_pushAll.mpr (Or.inl (h.marked x (List.mem_cons_of_mem v hx)))
    · exact has_pushAll.mpr (Or.inr ⟨hmem, hlt⟩)
  · intro a b ha hout hab
    have hold : seen.has a = true := has_of_not_mem_stack_pushAll ha hout
    rw [has_pushAll]
    by_cases hav : a = v
    · subst hav
      exact Or.inr ⟨hab.1, hseen.symm ▸ hab.2⟩
    · have hrest : a ∉ v :: rest := by
        rw [List.mem_cons, not_or]
        exact ⟨hav, fun hmem => hout (mem_stack_pushAll.mpr (Or.inl hmem))⟩
      exact Or.inl (h.left a b hold hrest hab)

/-- A traversal ends with so many marks after so many turns, one for each state that it takes off its
stack. -/
inductive Ends (next : Nat → List Nat) : Nat → Traversal → Marks → Prop
  | done (seen : Marks) : Ends next 0 ⟨seen, []⟩ seen
  | turn {turns v : Nat} {seen marks : Marks} {rest : List Nat}
      (hrest : Ends next turns (pushAll ⟨seen, rest⟩ (next v)) marks) :
      Ends next (turns + 1) ⟨seen, v :: rest⟩ marks

/-- Each turn takes one of the states that are left off the stack, and what is left in the end are
the open states. -/
theorem ends_finish (next : Nat → List Nat) (t : Traversal) :
    ∃ turns, turns + (t.finish next).count false = t.left ∧ Ends next turns t (t.finish next) := by
  induction t using finish.induct next with
  | case1 seen =>
    rw [finish]
    exact ⟨0, Nat.zero_add _, .done seen⟩
  | case2 seen v rest ih =>
    rw [finish]
    obtain ⟨turns, hturns, hends⟩ := ih
    refine ⟨turns + 1, ?_, .turn hends⟩
    rw [left_pushAll] at hturns
    simp only [Traversal.left, List.length_cons] at hturns ⊢
    omega

theorem Underway.finish (h : Underway next size starts t) :
    Underway next size starts ⟨t.finish next, []⟩ := by
  induction t using Traversal.finish.induct next with
  | case1 seen =>
    rw [Traversal.finish]
    exact h
  | case2 seen v rest ih =>
    rw [Traversal.finish]
    exact ih h.turn

theorem size_finish_start (next : Nat → List Nat) (size : Nat) (starts : List Nat) :
    ((start size starts).finish next).size = size :=
  (Underway.start next size starts).finish.size_eq

theorem Underway.has_iff_of_done {seen : Marks} (h : Underway next size starts ⟨seen, []⟩) :
    seen.has x = true ↔ ∃ s ∈ starts, s < size ∧ ReflTransGen (Step next size) s x := by
  refine ⟨h.reached x, ?_⟩
  rintro ⟨s, hs, hlt, hreach⟩
  induction hreach with
  | refl => exact h.started s hs hlt
  | tail _ hstep ih => exact h.left _ _ ih List.not_mem_nil hstep

theorem has_finish_start_iff :
    ((start size starts).finish next).has x = true ↔
      ∃ s ∈ starts, s < size ∧ ReflTransGen (Step next size) s x :=
  (Underway.start next size starts).finish.has_iff_of_done

end Traversal

theorem Marks.ext {m m' : Marks} (hsize : m.size = m'.size)
    (h : ∀ x, m.has x = true ↔ m'.has x = true) : m = m' := by
  refine Array.ext hsize fun i hi hi' => ?_
  have hsame := Bool.eq_iff_iff.mpr (h i)
  simpa [Marks.has, hi, hi'] using hsame

/-- A traversal, which marks a state when it meets it, ends with the marks of the search that marks a
state when its turn comes. -/
theorem finish_start_eq_spread (next : Nat → List Nat) (size : Nat) (starts : List Nat) :
    (Traversal.start size starts).finish next =
      spread next (Array.replicate size false) starts := by
  refine Marks.ext ?_ fun x => Traversal.has_finish_start_iff.trans has_spread_iff.symm
  rw [Traversal.size_finish_start, size_spread, Array.size_replicate]

/-- A search along the given steps ends, in so many turns as it marks states, and what it marks are
the states below a bound that a relation leads to from some start. -/
structure Exact (next : Nat → List Nat) (size : Nat) (leads : Nat → Nat → Prop) (starts : List Nat)
    (marks : Marks) : Prop where
  size_eq : marks.size = size
  ends : Traversal.Ends next (marks.count true) (.start size starts) marks
  has_iff : ∀ x, marks.has x = true ↔ ∃ s ∈ starts, leads s x

theorem count_add_count (m : Marks) : m.count true + m.count false = m.size := by
  rw [← Array.length_toList, ← Array.count_toList, ← Array.count_toList]
  exact List.count_true_add_count_false m.toList

theorem exact_spread {next : Nat → List Nat} {size : Nat} {starts : List Nat}
    (hstarts : ∀ s ∈ starts, s < size) :
    Exact next size (ReflTransGen (Step next size)) starts
      (spread next (Array.replicate size false) starts) := by
  rw [← finish_start_eq_spread]
  have hsize := Traversal.size_finish_start next size starts
  refine ⟨hsize, ?_, fun x => ?_⟩
  · obtain ⟨turns, hturns, hends⟩ := Traversal.ends_finish next (.start size starts)
    have hleft : (Traversal.start size starts).left = size := by
      unfold Traversal.start
      rw [Traversal.left_pushAll]
      simp [Traversal.left]
    have hcount := count_add_count ((Traversal.start size starts).finish next)
    have hall : turns = ((Traversal.start size starts).finish next).count true := by omega
    rwa [hall] at hends
  · rw [Traversal.has_finish_start_iff]
    exact exists_congr fun s => and_congr_right fun hs => and_iff_right (hstarts s hs)

end Search

end SpecFence
