import Mathlib.Order.Nat
import SpecFence.Proofs.Search

/-!
# Shortest sequences of steps

The queue of `Search.shortest` is ordered by the number of steps, and its entries differ by at most
one step.  So a state is closed with the least number of steps that lead to it, and the steps that
are found are no more than those of any other way to a goal.
-/

set_option autoImplicit false

namespace SpecFence

namespace Search

variable {σ : Type} {next : Nat → List (σ × Nat)} {goal : Nat → Bool}

inductive Leads (next : Nat → List (σ × Nat)) (size : Nat) (start : Nat) : Nat → Nat → Prop
  | refl : Leads next size start 0 start
  | tail {n a b : Nat} {s : σ} (hrest : Leads next size start n a) (hstep : (s, b) ∈ next a)
      (hb : b < size) : Leads next size start (n + 1) b

/-- A state is closed at a depth of at most so many steps, or is queued with at most so many. -/
def Within (depth : Nat → Nat) (closed : Marks) (queue : List (Nat × List σ)) (b n : Nat) : Prop :=
  (closed.has b = true ∧ depth b ≤ n) ∨ ∃ walk, (b, walk) ∈ queue ∧ walk.length ≤ n

/-- What the search keeps: the queue is ordered, each closed state has a depth that no entry of the
queue falls below, and each step from a closed state leads to a state that is one deeper at most. -/
structure Levelled (next : Nat → List (σ × Nat)) (goal : Nat → Bool) (starts : List Nat)
    (depth : Nat → Nat) (closed : Marks) (queue : List (Nat × List σ)) : Prop where
  ordered : queue.Pairwise fun x y => x.2.length ≤ y.2.length ∧ y.2.length ≤ x.2.length + 1
  behind : ∀ a, closed.has a = true → ∀ x ∈ queue, depth a ≤ x.2.length
  starts : ∀ a ∈ starts, a < closed.size → Within depth closed queue a 0
  steps : ∀ a s b, closed.has a = true → (s, b) ∈ next a → b < closed.size →
    Within depth closed queue b (depth a + 1)
  noGoal : ∀ a, closed.has a = true → goal a = false

variable {starts : List Nat} {depth : Nat → Nat} {closed : Marks} {v : Nat} {walk : List σ}
  {rest : List (Nat × List σ)}

theorem Within.mono {queue : List (Nat × List σ)} {b m n : Nat} (h : Within depth closed queue b m)
    (hmn : m ≤ n) : Within depth closed queue b n := by
  rcases h with ⟨hclosed, hle⟩ | ⟨walk, hmem, hle⟩
  · exact Or.inl ⟨hclosed, hle.trans hmn⟩
  · exact Or.inr ⟨walk, hmem, hle.trans hmn⟩

theorem Levelled.within_skip (h : Levelled next goal starts depth closed ((v, walk) :: rest))
    (hclosed : ¬ ∃ hv : v < closed.size, closed[v] = false) {b n : Nat} (hb : b < closed.size)
    (hwithin : Within depth closed ((v, walk) :: rest) b n) : Within depth closed rest b n := by
  rcases hwithin with hdone | ⟨walk', hmem, hle⟩
  · exact Or.inl hdone
  · rcases List.mem_cons.mp hmem with heq | hrest
    · cases heq
      have hdone : closed.has v = true := by
        by_contra hnot
        exact hclosed (Marks.open_iff.mpr ⟨hb, hnot⟩)
      exact Or.inl ⟨hdone, (h.behind v hdone _ List.mem_cons_self).trans hle⟩
    · exact Or.inr ⟨walk', hrest, hle⟩

theorem Levelled.skip (h : Levelled next goal starts depth closed ((v, walk) :: rest))
    (hclosed : ¬ ∃ hv : v < closed.size, closed[v] = false) :
    Levelled next goal starts depth closed rest where
  ordered := (List.pairwise_cons.mp h.ordered).2
  behind a ha x hx := h.behind a ha x (List.mem_cons_of_mem _ hx)
  starts a ha hlt := h.within_skip hclosed hlt (h.starts a ha hlt)
  steps a s b ha hab hb := h.within_skip hclosed hb (h.steps a s b ha hab hb)
  noGoal := h.noGoal

theorem within_close (hv : v < closed.size) (hopen : ¬ closed.has v = true)
    (new : List (Nat × List σ)) {b n : Nat}
    (hwithin : Within depth closed ((v, walk) :: rest) b n) :
    Within (Function.update depth v walk.length) (closed.set v true hv) (rest ++ new) b n := by
  rcases hwithin with ⟨hdone, hle⟩ | ⟨walk', hmem, hle⟩
  · have hne : b ≠ v := fun heq => hopen (heq ▸ hdone)
    refine Or.inl ⟨(Marks.has_set hv).mpr (Or.inr hdone), ?_⟩
    rwa [Function.update_of_ne hne]
  · rcases List.mem_cons.mp hmem with heq | hrest
    · cases heq
      refine Or.inl ⟨(Marks.has_set hv).mpr (Or.inl rfl), ?_⟩
      rwa [Function.update_self]
    · exact Or.inr ⟨walk', List.mem_append_left new hrest, hle⟩

theorem Levelled.close (h : Levelled next goal starts depth closed ((v, walk) :: rest))
    (hv : v < closed.size) (hopen : ¬ closed.has v = true) (hgoal : ¬ goal v = true) :
    Levelled next goal starts (Function.update depth v walk.length) (closed.set v true hv)
      (rest ++ (next v).map fun (s, w) => (w, s :: walk)) := by
  have hnew : ∀ x ∈ (next v).map fun (s, w) => (w, s :: walk), x.2.length = walk.length + 1 := by
    rintro x hx
    obtain ⟨⟨s, w⟩, -, rfl⟩ := List.mem_map.mp hx
    rfl
  obtain ⟨hfirst, hordered⟩ := List.pairwise_cons.mp h.ordered
  constructor
  · rw [List.pairwise_append]
    refine ⟨hordered, List.pairwise_map.mpr ?_, ?_⟩
    · exact List.pairwise_of_forall fun _ _ => ⟨Nat.le_refl _, Nat.le_succ _⟩
    · intro x hx y hy
      obtain ⟨hle, hlt⟩ := hfirst x hx
      rw [hnew y hy]
      exact ⟨hlt, Nat.succ_le_succ hle⟩
  · -- nothing that is left or added is shorter than the first entry
    have hleft : ∀ x ∈ rest ++ (next v).map (fun (s, w) => (w, s :: walk)),
        walk.length ≤ x.2.length := by
      intro x hx
      rcases List.mem_append.mp hx with hx | hx
      · exact (hfirst x hx).1
      · rw [hnew x hx]
        exact Nat.le_succ _
    intro a ha x hx
    rcases (Marks.has_set hv).mp ha with rfl | ha
    · rw [Function.update_self]
      exact hleft x hx
    · have hne : a ≠ v := fun heq => hopen (heq ▸ ha)
      rw [Function.update_of_ne hne]
      exact (h.behind a ha _ List.mem_cons_self).trans (hleft x hx)
  · intro a ha hlt
    rw [Array.size_set] at hlt
    exact within_close hv hopen _ (h.starts a ha hlt)
  · intro a s b ha hab hb
    rw [Array.size_set] at hb
    rcases (Marks.has_set hv).mp ha with rfl | ha
    · rw [Function.update_self]
      refine Or.inr ⟨s :: walk, List.mem_append_right rest ?_, Nat.le_refl _⟩
      exact List.mem_map.mpr ⟨(s, b), hab, rfl⟩
    · have hne : a ≠ v := fun heq => hopen (heq ▸ ha)
      rw [Function.update_of_ne hne]
      exact within_close hv hopen _ (h.steps a s b ha hab hb)
  · intro a ha
    rcases (Marks.has_set hv).mp ha with rfl | ha
    · simpa using hgoal
    · exact h.noGoal a ha

/-- Whatever steps lead to is closed or queued with no more steps, or an entry on the way is. -/
theorem Levelled.reach {queue : List (Nat × List σ)}
    (h : Levelled next goal starts depth closed queue) {start n b : Nat} (hstart : start ∈ starts)
    (hlt : start < closed.size) (hleads : Leads next closed.size start n b) :
    (closed.has b = true ∧ depth b ≤ n) ∨ ∃ x ∈ queue, x.2.length ≤ n := by
  have hsplit : ∀ {c m : Nat}, Within depth closed queue c m →
      (closed.has c = true ∧ depth c ≤ m) ∨ ∃ x ∈ queue, x.2.length ≤ m := by
    rintro c m (hdone | ⟨walk, hmem, hle⟩)
    · exact Or.inl hdone
    · exact Or.inr ⟨(c, walk), hmem, hle⟩
  induction hleads with
  | refl => exact hsplit (h.starts start hstart hlt)
  | @tail n a b s _ hstep hb ih =>
    rcases ih with ⟨ha, hle⟩ | ⟨x, hx, hle⟩
    · exact hsplit ((h.steps a s b ha hstep hb).mono (Nat.succ_le_succ hle))
    · exact Or.inr ⟨x, hx, Nat.le_succ_of_le hle⟩

theorem shortest_le (closed : Marks) (queue : List (Nat × List σ))
    (h : Levelled next goal starts depth closed queue) {steps : List σ}
    (hsome : shortest next goal closed queue = some steps) {start n b : Nat}
    (hstart : start ∈ starts) (hlt : start < closed.size)
    (hleads : Leads next closed.size start n b) (hb : goal b = true) : steps.length ≤ n := by
  induction closed, queue using shortest.induct next goal generalizing depth with
  | case1 closed =>
    rw [shortest] at hsome
    cases hsome
  | case2 closed v walk rest hopen hgoal =>
    rw [shortest, dif_pos hopen, if_pos hgoal] at hsome
    cases hsome
    rw [List.length_reverse]
    rcases h.reach hstart hlt hleads with ⟨hclosed, -⟩ | ⟨x, hx, hle⟩
    · rw [h.noGoal b hclosed] at hb
      cases hb
    · rcases List.mem_cons.mp hx with rfl | hx
      · exact hle
      · exact ((List.pairwise_cons.mp h.ordered).1 x hx).1.trans hle
  | case3 closed v walk rest hopen hgoal ih =>
    rw [shortest, dif_pos hopen, if_neg hgoal] at hsome
    have hv : v < closed.size := hopen.1
    refine ih (h.close hv (Marks.open_iff.mp hopen).2 hgoal) hsome ?_ ?_
    · rwa [Array.size_set]
    · rwa [Array.size_set]
  | case4 closed v walk rest hskip ih =>
    rw [shortest, dif_neg hskip] at hsome
    exact ih (h.skip hskip) hsome hlt hleads

theorem levelled_start (next : Nat → List (σ × Nat)) (goal : Nat → Bool) (n : Nat)
    (starts : List Nat) :
    Levelled next goal starts (fun _ => 0) (Array.replicate n false)
      (starts.map fun v => (v, [])) where
  ordered := by
    rw [List.pairwise_map]
    exact List.pairwise_of_forall fun _ _ => ⟨Nat.le_refl 0, Nat.le_succ 0⟩
  behind a ha := absurd ha (Marks.not_has_replicate n a)
  starts a ha _ := Or.inr ⟨[], List.mem_map.mpr ⟨a, ha, rfl⟩, Nat.le_refl 0⟩
  steps a _ _ ha := absurd ha (Marks.not_has_replicate n a)
  noGoal a ha := absurd ha (Marks.not_has_replicate n a)

theorem count_set_of_open (hv : v < closed.size) (hopen : ¬ closed.has v = true) :
    (closed.set v true hv).count true = closed.count true + 1 := by
  have hfalse := (Marks.open_iff.mpr ⟨hv, hopen⟩).2
  rw [Array.count_set hv, hfalse]
  simp

theorem count_le_count_set (hv : v < closed.size) :
    closed.count true ≤ (closed.set v true hv).count true := by
  by_cases hdone : closed.has v = true
  · have htrue := (Marks.has_iff.mp hdone).2
    have hpos : 0 < closed.count true := Array.count_pos_iff.mpr (htrue ▸ Array.getElem_mem hv)
    rw [Array.count_set hv, htrue]
    simp
    omega
  · rw [count_set_of_open hv hdone]
    exact Nat.le_succ _

theorem carried_length (n : Nat) : Carried next goal fun closed _ (walk : List σ) =>
    closed.size = n ∧ walk.length ≤ closed.count true where
  close closed u hu v walk h := by
    rw [Array.size_set]
    exact ⟨h.1, h.2.trans (count_le_count_set hu)⟩
  step closed v hv walk hopen hgoal h s w hmem := by
    rw [Array.size_set, count_set_of_open hv hopen]
    exact ⟨h.1, Nat.succ_le_succ h.2⟩

theorem length_lt_of_shortest {n : Nat} {steps : List σ}
    (h : shortest next goal (Array.replicate n false) (starts.map fun v => (v, [])) = some steps) :
    steps.length < n := by
  have hqueue : ∀ v walk, (v, walk) ∈ starts.map (fun v => (v, ([] : List σ))) →
      (Array.replicate n false).size = n ∧ walk.length ≤ (Array.replicate n false).count true := by
    intro v walk hmem
    obtain ⟨u, -, heq⟩ := List.mem_map.mp hmem
    cases heq
    exact ⟨Array.size_replicate, Nat.zero_le _⟩
  obtain ⟨closed, v, walk, hlt, -, ⟨hsize, hlength⟩, hopen, rfl⟩ :=
    shortest_some (carried_length n) _ _ hqueue steps h
  have hv : v < closed.size := by
    rwa [hsize, ← Array.size_replicate (n := n) (v := false)]
  have hcount := count_set_of_open hv hopen
  have hle : (closed.set v true hv).count true ≤ (closed.set v true hv).size := Array.count_le_size
  rw [Array.size_set] at hle
  rw [List.length_reverse]
  omega

end Search

end SpecFence
