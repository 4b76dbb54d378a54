import SpecFence.Graph.Discovery
import SpecFence.Proofs.Search

/-!
# The steps that the parents give are the shortest

Every noted state leads back to a start in fewer steps than there are noted states, so the parents
hold no circle and the steps to a goal can be read off.  The states that are queued are those that
`Search.shortest` has in its queue for the first time, in the same order and with the same steps.
A goal that is noted comes before every other goal in that queue, which is why the search may stop
there: both find the same steps.
-/

set_option autoImplicit false

namespace SpecFence

namespace Search

open Relation

variable {σ : Type} {next : Nat → List (σ × Nat)} {goal : Nat → Bool} {parents : Parents σ}
  {u v w n : Nat} {s : σ} {walk : List σ} {origin : Option (Nat × σ)}

def Parents.Has (parents : Parents σ) (v : Nat) : Prop := ∃ origin, parents[v]? = some (some origin)

def ParentOf (parents : Parents σ) (u v : Nat) : Prop :=
  ∃ s, parents[v]? = some (some (some (u, s)))

/-- Following the parents of a state leads to a start, over the given steps, the last one first. -/
inductive TracesBack (parents : Parents σ) : Nat → List σ → Prop
  | start {v : Nat} (h : parents[v]? = some (some none)) : TracesBack parents v []
  | step {u v : Nat} {s : σ} {walk : List σ} (h : parents[v]? = some (some (some (u, s))))
      (hrest : TracesBack parents u walk) : TracesBack parents v (s :: walk)

section Parents

theorem getElem?_note (hw : parents[w]? = some none) (origin : Option (Nat × σ)) (v : Nat) :
    (parents.note w origin)[v]? = if w = v then some (some origin) else parents[v]? := by
  obtain ⟨hlt, -⟩ := Array.getElem?_eq_some_iff.mp hw
  unfold Parents.note
  rw [Array.getElem?_setIfInBounds, if_pos hlt]

theorem getElem?_note_of_some (hw : parents[w]? = some none) (origin : Option (Nat × σ))
    {entry : Option (Nat × σ)} (hv : parents[v]? = some (some entry)) :
    (parents.note w origin)[v]? = some (some entry) := by
  have hne : w ≠ v := by
    rintro rfl
    rw [hw] at hv
    cases hv
  rw [getElem?_note hw, if_neg hne, hv]

theorem Parents.has_note (hw : parents[w]? = some none) :
    (parents.note w origin).Has v ↔ v = w ∨ parents.Has v := by
  unfold Has
  rw [getElem?_note hw]
  by_cases h : w = v
  · simp [h]
  · simp [h, Ne.symm h]

theorem not_has (hw : parents[w]? = some none) : ¬ parents.Has w := by
  rintro ⟨origin, hsome⟩
  rw [hw] at hsome
  cases hsome

theorem getElem?_of_not_has (hlt : w < parents.size) (h : ¬ parents.Has w) :
    parents[w]? = some none := by
  have hsome := Array.getElem?_eq_getElem hlt
  cases hentry : parents[w] with
  | none => rw [hsome, hentry]
  | some origin =>
    rw [hentry] at hsome
    exact absurd ⟨origin, hsome⟩ h

theorem size_note : (parents.note w origin).size = parents.size := by
  unfold Parents.note
  rw [Array.size_setIfInBounds]

/-- The number of noted states. -/
def Parents.count (parents : Parents σ) : Nat := parents.countP Option.isSome

theorem count_note (hw : parents[w]? = some none) :
    (parents.note w origin).count = parents.count + 1 := by
  obtain ⟨hlt, hnone⟩ := Array.getElem?_eq_some_iff.mp hw
  unfold Parents.count Parents.note
  rw [Array.setIfInBounds_def, dif_pos hlt, Array.countP_set hlt, hnone]
  simp

theorem TracesBack.has (h : TracesBack parents v walk) : parents.Has v := by
  cases h with
  | start h => exact ⟨_, h⟩
  | step h _ => exact ⟨_, h⟩

theorem TracesBack.unique {other : List σ} (h : TracesBack parents v walk)
    (hother : TracesBack parents v other) : walk = other := by
  induction h generalizing other with
  | start h =>
    cases hother with
    | start => rfl
    | step h' _ =>
      rw [h] at h'
      cases h'
  | step h _ ih =>
    cases hother with
    | start h' =>
      rw [h] at h'
      cases h'
    | step h' hrest =>
      rw [h] at h'
      cases h'
      rw [ih hrest]

theorem TracesBack.note (h : TracesBack parents v walk) (hw : parents[w]? = some none) :
    TracesBack (parents.note w origin) v walk := by
  induction h with
  | start h => exact .start (getElem?_note_of_some hw _ h)
  | step h _ ih => exact .step (getElem?_note_of_some hw _ h) ih

theorem TracesBack.noted (h : TracesBack parents v walk) (hw : parents[w]? = some none) :
    TracesBack (parents.note w (some (v, s))) w (s :: walk) := by
  refine .step ?_ (h.note hw)
  rw [getElem?_note hw, if_pos rfl]

theorem traceBack?_eq (h : TracesBack parents v walk) (hn : walk.length < n) :
    traceBack? parents n v = some walk := by
  induction h generalizing n with
  | start h =>
    obtain ⟨n, rfl⟩ := Nat.exists_eq_succ_of_ne_zero (Nat.ne_zero_of_lt hn)
    simp [traceBack?, h]
  | step h _ ih =>
    obtain ⟨n, rfl⟩ := Nat.exists_eq_succ_of_ne_zero (Nat.ne_zero_of_lt hn)
    simp [traceBack?, h, ih (Nat.lt_of_succ_lt_succ hn)]

def Parents.Rooted (parents : Parents σ) : Prop :=
  ∀ v, parents.Has v → ∃ walk, TracesBack parents v walk ∧ walk.length < parents.count

theorem Parents.Rooted.note (h : parents.Rooted) (hw : parents[w]? = some none)
    (hv : parents.Has v) : (parents.note w (some (v, s))).Rooted := by
  intro x hx
  rw [count_note hw]
  rcases (Parents.has_note hw).mp hx with rfl | hx
  · obtain ⟨walk, htrace, hlt⟩ := h v hv
    exact ⟨s :: walk, htrace.noted hw, Nat.succ_lt_succ hlt⟩
  · obtain ⟨walk, htrace, hlt⟩ := h x hx
    exact ⟨walk, htrace.note hw, Nat.lt_succ_of_lt hlt⟩

theorem TracesBack.exists_shorter (hbefore : TransGen (ParentOf parents) u v)
    (h : TracesBack parents v walk) :
    ∃ before, TracesBack parents u before ∧ before.length < walk.length := by
  have hparent : ∀ {x y : Nat} {steps : List σ}, ParentOf parents x y → TracesBack parents y steps →
      ∃ before, TracesBack parents x before ∧ before.length < steps.length := by
    rintro x y steps ⟨s, hs⟩ htrace
    cases htrace with
    | start h =>
      rw [hs] at h
      cases h
    | step h hrest =>
      rw [hs] at h
      cases h
      exact ⟨_, hrest, Nat.lt_succ_self _⟩
  induction hbefore generalizing walk with
  | single hparent' => exact hparent hparent' h
  | tail _ hparent' ih =>
    obtain ⟨middle, hmiddle, hlt⟩ := hparent hparent' h
    obtain ⟨before, htrace, hless⟩ := ih hmiddle
    exact ⟨before, htrace, Nat.lt_trans hless hlt⟩

theorem Parents.Rooted.acyclic (h : parents.Rooted) (v : Nat) :
    ¬ TransGen (ParentOf parents) v v := by
  intro hcircle
  obtain ⟨u, -, s, hs⟩ := TransGen.tail'_iff.mp hcircle
  obtain ⟨walk, htrace, -⟩ := h v ⟨_, hs⟩
  obtain ⟨before, hbefore, hlt⟩ := htrace.exists_shorter hcircle
  rw [hbefore.unique htrace] at hlt
  exact Nat.lt_irrefl _ hlt

end Parents

namespace Discovery

/-- A search ends with its parents and the goal it noted after so many turns, one for each state
that it takes from its queue. -/
inductive Ends (next : Nat → List (σ × Nat)) (goal : Nat → Bool) :
    Nat → Discovery σ → Parents σ → Option Nat → Prop
  | exhausted (parents : Parents σ) : Ends next goal 0 ⟨parents, []⟩ parents none
  | found {v found : Nat} {parents : Parents σ} {rest : List Nat} {d : Discovery σ}
      (hscan : scan goal v (next v) ⟨parents, rest⟩ = (d, some found)) :
      Ends next goal 1 ⟨parents, v :: rest⟩ d.parents (some found)
  | turn {turns v : Nat} {parents result : Parents σ} {rest : List Nat} {d : Discovery σ}
      {found : Option Nat} (hscan : scan goal v (next v) ⟨parents, rest⟩ = (d, none))
      (hrest : Ends next goal turns d result found) :
      Ends next goal (turns + 1) ⟨parents, v :: rest⟩ result found

variable {d : Discovery σ}

theorem ends_finish (next : Nat → List (σ × Nat)) (goal : Nat → Bool) (d : Discovery σ) :
    ∃ turns ≤ d.left, Ends next goal turns d (d.finish next goal).1 (d.finish next goal).2 := by
  induction d using finish.induct next goal with
  | case1 parents =>
    rw [finish]
    exact ⟨0, Nat.zero_le _, .exhausted parents⟩
  | case2 parents v rest turn found hfound =>
    have hscan : scan goal v (next v) ⟨parents, rest⟩ = (turn.1, some found) :=
      Prod.ext rfl hfound
    have hfinish : finish next goal ⟨parents, v :: rest⟩ = (turn.1.parents, some found) := by
      rw [finish, hscan]
    rw [hfinish]
    refine ⟨1, ?_, .found hscan⟩
    simp only [left, List.length_cons]
    omega
  | case3 parents v rest turn hnone ih =>
    have hscan : scan goal v (next v) ⟨parents, rest⟩ = (turn.1, none) := Prod.ext rfl hnone
    have hfinish : finish next goal ⟨parents, v :: rest⟩ = finish next goal turn.1 := by
      rw [finish, hscan]
    rw [hfinish]
    obtain ⟨turns, hle, hends⟩ := ih
    refine ⟨turns + 1, ?_, .turn hscan hends⟩
    have hless := left_scan_le goal v (next v) ⟨parents, rest⟩
    rw [hscan] at hless
    have hmore : left ⟨parents, v :: rest⟩ = left ⟨parents, rest⟩ + 1 := rfl
    rw [hmore]
    exact Nat.succ_le_succ (Nat.le_trans hle hless)

/-- All noted states lead back to a start, and what is queued is noted. -/
structure Sound (d : Discovery σ) : Prop where
  rooted : d.parents.Rooted
  queued : ∀ v ∈ d.queue, d.parents.Has v

theorem Sound.scan (h : d.Sound) (hv : d.parents.Has v) (goal : Nat → Bool)
    (steps : List (σ × Nat)) : (scan goal v steps d).1.Sound := by
  induction steps generalizing d with
  | nil => exact h
  | cons x steps ih =>
    rw [Discovery.scan]
    split
    · rename_i hnew
      have hrooted := h.rooted.note (s := x.1) hnew hv
      have hkept : ∀ y, d.parents.Has y → (d.parents.note x.2 (some (v, x.1))).Has y := fun y hy =>
        (Parents.has_note hnew).mpr (.inr hy)
      split
      · exact ⟨hrooted, fun y hy => hkept y (h.queued y hy)⟩
      · refine ih ⟨hrooted, fun y hy => ?_⟩ (hkept v hv)
        rcases List.mem_append.mp hy with hy | hy
        · exact hkept y (h.queued y hy)
        · exact (Parents.has_note hnew).mpr (.inl (List.mem_singleton.mp hy))
    · exact ih h hv

theorem Ends.rooted {result : Parents σ} {found : Option Nat}
    (hends : Ends next goal n d result found) (h : d.Sound) : result.Rooted := by
  induction hends with
  | exhausted parents => exact h.rooted
  | @found v found parents rest d hscan =>
    have hsound := Sound.scan (d := ⟨parents, rest⟩)
      ⟨h.rooted, fun y hy => h.queued y (List.mem_cons_of_mem v hy)⟩
      (h.queued v List.mem_cons_self) goal (next v)
    rw [hscan] at hsound
    exact hsound.rooted
  | @turn turns v parents result rest d found hscan _ ih =>
    have hsound := Sound.scan (d := ⟨parents, rest⟩)
      ⟨h.rooted, fun y hy => h.queued y (List.mem_cons_of_mem v hy)⟩
      (h.queued v List.mem_cons_self) goal (next v)
    rw [hscan] at hsound
    exact ih hsound

/-- What is read off for the goal that was noted, if one was. -/
inductive ReadOff (parents : Parents σ) : Option Nat → Option (List σ) → Prop
  | nothing : ReadOff parents none none
  | steps {v : Nat} {walk : List σ} (h : TracesBack parents v walk) :
      ReadOff parents (some v) (some walk.reverse)

theorem ReadOff.unique {found : Option Nat} {result other : Option (List σ)}
    (h : ReadOff parents found result) (hother : ReadOff parents found other) : result = other := by
  cases h with
  | nothing =>
    cases hother
    rfl
  | steps h =>
    cases hother with
    | steps hother => rw [h.unique hother]

section Shortest

theorem shortest_drop (closed : Marks) (before after : List (Nat × List σ))
    (hdead : (¬ ∃ hv : v < closed.size, closed[v] = false) ∨ v ∈ before.map Prod.fst) :
    shortest next goal closed (before ++ (v, walk) :: after) =
      shortest next goal closed (before ++ after) := by
  have hfirst : ∀ {closed : Marks} {after : List (Nat × List σ)},
      (¬ ∃ hv : v < closed.size, closed[v] = false) →
        shortest next goal closed ((v, walk) :: after) = shortest next goal closed after := by
    intro closed after hskip
    rw [shortest, dif_neg hskip]
  generalize hqueue : before ++ after = queue
  induction closed, queue using shortest.induct next goal generalizing before after with
  | case1 closed =>
    obtain ⟨rfl, rfl⟩ := List.append_eq_nil_iff.mp hqueue
    exact hfirst (hdead.resolve_right List.not_mem_nil)
  | case2 closed x steps rest hopen hgoal =>
    rcases List.append_eq_cons_iff.mp hqueue with ⟨rfl, rfl⟩ | ⟨before, rfl, rfl⟩
    · exact hfirst (hdead.resolve_right List.not_mem_nil)
    · rw [List.cons_append, shortest, shortest, dif_pos hopen, dif_pos hopen, if_pos hgoal,
        if_pos hgoal]
  | case3 closed x steps rest hopen hgoal ih =>
    rcases List.append_eq_cons_iff.mp hqueue with ⟨rfl, rfl⟩ | ⟨before, rfl, rfl⟩
    · exact hfirst (hdead.resolve_right List.not_mem_nil)
    · rw [List.cons_append, shortest, shortest, dif_pos hopen, dif_pos hopen, if_neg hgoal,
        if_neg hgoal, List.append_assoc, List.cons_append]
      refine ih before _ ?_ (List.append_assoc _ _ _).symm
      have hv : x < closed.size := hopen.1
      rw [Marks.open_iff, Array.size_set, Marks.has_set hv]
      rcases hdead with hdead | hdead
      · rw [Marks.open_iff] at hdead
        exact .inl fun h => hdead ⟨h.1, fun hclosed => h.2 (.inr hclosed)⟩
      · rcases List.mem_cons.mp hdead with rfl | hdead
        · exact .inl fun h => h.2 (.inl rfl)
        · exact .inr hdead
  | case4 closed x steps rest hskip ih =>
    rcases List.append_eq_cons_iff.mp hqueue with ⟨rfl, rfl⟩ | ⟨before, rfl, rfl⟩
    · exact hfirst (hdead.resolve_right List.not_mem_nil)
    · rw [List.cons_append, shortest, shortest, dif_neg hskip, dif_neg hskip]
      refine ih before after ?_ rfl
      rcases hdead with hdead | hdead
      · exact .inl hdead
      · rcases List.mem_cons.mp hdead with rfl | hdead
        · exact .inl hskip
        · exact .inr hdead

theorem shortest_ahead (closed : Marks) (before after : List (Nat × List σ))
    (hopen : ∃ hv : v < closed.size, closed[v] = false) (hgoal : goal v = true)
    (hbefore : ∀ x ∈ before, goal x.1 = false) :
    shortest next goal closed (before ++ (v, walk) :: after) = some walk.reverse := by
  induction before generalizing closed after with
  | nil => rw [List.nil_append, shortest, dif_pos hopen, if_pos hgoal]
  | cons x before ih =>
    obtain ⟨hx, hbefore⟩ := List.forall_mem_cons.mp hbefore
    rw [List.cons_append, shortest]
    split
    · rename_i hfree
      have hne : v ≠ x.1 := by
        rintro rfl
        rw [hx] at hgoal
        cases hgoal
      rw [if_neg (by simp [hx]), List.append_assoc, List.cons_append]
      refine ih _ _ ?_ hbefore
      rw [Marks.open_iff] at hopen ⊢
      rw [Array.size_set, Marks.has_set hfree.1]
      exact ⟨hopen.1, fun h => h.elim hne hopen.2⟩
    · exact ih _ _ hopen hbefore

/-- A search that closes states when it takes them from its queue is followed by one that notes
them: what is queued is open, and the parents give the steps that came with it. -/
structure Follows (goal : Nat → Bool) (closed : Marks) (queue : List (Nat × List σ))
    (d : Discovery σ) : Prop where
  size : d.parents.size = closed.size
  queued : d.queue = queue.map Prod.fst
  has : ∀ v, d.parents.Has v ↔ closed.has v = true ∨ v ∈ d.queue
  unclosed : ∀ v ∈ d.queue, ¬ closed.has v = true
  nodup : d.queue.Nodup
  noGoal : ∀ v ∈ d.queue, goal v = false
  traced : ∀ x ∈ queue, TracesBack d.parents x.1 x.2

variable {closed : Marks} {queue : List (Nat × List σ)}

theorem Follows.lt (h : Follows goal closed queue d) (hv : d.parents.Has v) :
    v < closed.size := by
  obtain ⟨origin, hsome⟩ := hv
  exact h.size ▸ (Array.getElem?_eq_some_iff.mp hsome).1

theorem Follows.take {rest : List Nat} {queue : List (Nat × List σ)}
    (h : Follows goal closed queue ⟨parents, v :: rest⟩) :
    ∃ (hv : v < closed.size) (walk : List σ) (queue' : List (Nat × List σ)),
      queue = (v, walk) :: queue' ∧ ¬ closed.has v = true ∧ goal v = false ∧
      TracesBack parents v walk ∧
      Follows goal (closed.set v true hv) queue' ⟨parents, rest⟩ := by
  obtain ⟨⟨x, walk⟩, queue', rfl, hx, hrest⟩ := List.map_eq_cons_iff.mp h.queued.symm
  obtain rfl : x = v := hx
  have hhas : parents.Has x := (h.has x).mpr (.inr List.mem_cons_self)
  have hv : x < closed.size := h.lt hhas
  obtain ⟨hnot, hnodup⟩ := List.nodup_cons.mp h.nodup
  refine ⟨hv, walk, queue', rfl, h.unclosed x List.mem_cons_self, h.noGoal x List.mem_cons_self,
    h.traced _ List.mem_cons_self, ?_⟩
  constructor
  case size =>
    rw [Array.size_set]
    exact h.size
  case queued => exact hrest.symm
  case has =>
    intro y
    rw [h.has, Marks.has_set, List.mem_cons]
    tauto
  case unclosed =>
    intro y hy
    rw [Marks.has_set]
    rintro (rfl | hclosed)
    · exact hnot hy
    · exact h.unclosed y (List.mem_cons_of_mem x hy) hclosed
  case nodup => exact hnodup
  case noGoal => exact fun y hy => h.noGoal y (List.mem_cons_of_mem x hy)
  case traced => exact fun y hy => h.traced y (List.mem_cons_of_mem _ hy)

theorem Follows.note (h : Follows goal closed queue d) (hw : d.parents[w]? = some none)
    (hgoal : ¬ goal w = true) (hv : TracesBack d.parents v walk) :
    Follows goal closed (queue ++ [(w, s :: walk)])
      ⟨d.parents.note w (some (v, s)), d.queue ++ [w]⟩ := by
  have hnew : ¬ (closed.has w = true ∨ w ∈ d.queue) := fun hhas =>
    not_has hw ((h.has w).mpr hhas)
  obtain ⟨hopen, hqueue⟩ := not_or.mp hnew
  constructor
  case size => exact size_note.trans h.size
  case queued => rw [List.map_append, ← h.queued, List.map_singleton]
  case has =>
    intro x
    rw [Parents.has_note hw, h.has, List.mem_append, List.mem_singleton]
    tauto
  case unclosed =>
    intro x hx
    rcases List.mem_append.mp hx with hx | hx
    · exact h.unclosed x hx
    · rwa [List.mem_singleton.mp hx]
  case nodup =>
    rw [List.nodup_append]
    refine ⟨h.nodup, List.pairwise_singleton _ w, fun x hx y hy => ?_⟩
    rintro rfl
    exact hqueue (List.mem_singleton.mp hy ▸ hx)
  case noGoal =>
    intro x hx
    rcases List.mem_append.mp hx with hx | hx
    · exact h.noGoal x hx
    · rw [List.mem_singleton.mp hx]
      exact Bool.eq_false_iff.mpr hgoal
  case traced =>
    intro x hx
    rcases List.mem_append.mp hx with hx | hx
    · exact (h.traced x hx).note hw
    · rw [List.mem_singleton.mp hx]
      exact hv.noted hw

/-- What a search does with the steps from a state: it stops at the goal that the other search finds,
or goes on beside it. -/
theorem Follows.scan {turn : Discovery σ} {found : Option Nat}
    (h : Follows goal closed queue d) (hv : TracesBack d.parents v walk)
    (next : Nat → List (σ × Nat)) {steps : List (σ × Nat)}
    (hscan : scan goal v steps d = (turn, found)) :
    (∃ w back, found = some w ∧ TracesBack turn.parents w back ∧
      shortest next goal closed (queue ++ steps.map fun (s, w) => (w, s :: walk)) =
        some back.reverse) ∨
    (found = none ∧ ∃ queue', Follows goal closed queue' turn ∧
      shortest next goal closed (queue ++ steps.map fun (s, w) => (w, s :: walk)) =
        shortest next goal closed queue') := by
  induction steps generalizing d queue with
  | nil =>
    cases hscan
    refine .inr ⟨rfl, queue, h, ?_⟩
    rw [List.map_nil, List.append_nil]
  | cons x steps ih =>
    obtain ⟨s, w⟩ := x
    rw [Discovery.scan] at hscan
    rw [List.map_cons]
    split at hscan
    · rename_i hnew
      have hlt : w < closed.size := h.size ▸ (Array.getElem?_eq_some_iff.mp hnew).1
      have hopen : ∃ hw : w < closed.size, closed[w] = false :=
        Marks.open_iff.mpr ⟨hlt, fun hclosed => not_has hnew ((h.has w).mpr (.inl hclosed))⟩
      split at hscan
      · rename_i hgoal
        cases hscan
        refine .inl ⟨w, s :: walk, rfl, hv.noted hnew, ?_⟩
        refine shortest_ahead closed queue _ hopen hgoal fun y hy => h.noGoal y.1 ?_
        rw [h.queued]
        exact List.mem_map_of_mem hy
      · rename_i hgoal
        have hrest := ih (h.note (s := s) hnew hgoal hv) (hv.note hnew) hscan
        rwa [List.append_assoc, List.singleton_append] at hrest
    · rename_i hold
      have hdead : (¬ ∃ hw : w < closed.size, closed[w] = false) ∨ w ∈ queue.map Prod.fst := by
        by_contra hlive
        obtain ⟨hfree, hqueue⟩ := not_or.mp hlive
        obtain ⟨hlt, hclosed⟩ := Marks.open_iff.mp (not_not.mp hfree)
        have hnot : ¬ d.parents.Has w := fun hhas =>
          ((h.has w).mp hhas).elim hclosed fun hw => hqueue (h.queued ▸ hw)
        exact hold (getElem?_of_not_has (h.size ▸ hlt) hnot)
      rw [shortest_drop closed queue _ hdead]
      exact ih h hv hscan

theorem Ends.readOff_shortest {result : Parents σ} {found : Option Nat}
    (hends : Ends next goal n d result found) (h : Follows goal closed queue d) :
    ReadOff result found (shortest next goal closed queue) := by
  induction hends generalizing closed queue with
  | exhausted parents =>
    rw [List.map_eq_nil_iff.mp h.queued.symm, shortest]
    exact .nothing
  | found hscan =>
    obtain ⟨hv, walk, queue, rfl, hopen, hgoal, htrace, hrest⟩ := h.take
    rw [shortest, dif_pos (Marks.open_iff.mpr ⟨hv, hopen⟩), if_neg (by simp [hgoal])]
    rcases hrest.scan htrace next hscan with ⟨_, back, heq, hback, hsame⟩ | ⟨hnone, -⟩
    · cases heq
      rw [hsame]
      exact .steps hback
    · cases hnone
  | turn hscan _ ih =>
    obtain ⟨hv, walk, queue, rfl, hopen, hgoal, htrace, hrest⟩ := h.take
    rw [shortest, dif_pos (Marks.open_iff.mpr ⟨hv, hopen⟩), if_neg (by simp [hgoal])]
    rcases hrest.scan htrace next hscan with ⟨_, _, heq, -⟩ | ⟨-, queue', hfollows, hsame⟩
    · cases heq
    · rw [hsame]
      exact ih hfollows

end Shortest

section Start

variable {size : Nat} {starts : List Nat}

theorem getElem?_foldl_note (parents : Parents σ) (hlt : ∀ v ∈ starts, v < parents.size) (v : Nat) :
    (starts.foldl (fun parents v => parents.note v none) parents)[v]? =
      if v ∈ starts then some (some none) else parents[v]? := by
  induction starts generalizing parents with
  | nil => rfl
  | cons x starts ih =>
    obtain ⟨hx, hrest⟩ := List.forall_mem_cons.mp hlt
    rw [List.foldl_cons, ih _ (by rwa [size_note]), Parents.note, Array.getElem?_setIfInBounds,
      if_pos hx]
    by_cases hv : v ∈ starts
    · simp [hv]
    · by_cases heq : x = v
      · simp [heq]
      · simp [hv, heq, Ne.symm heq]

theorem getElem?_start (hlt : ∀ v ∈ starts, v < size) (v : Nat) :
    (start (σ := σ) size starts).parents[v]? =
      if v ∈ starts then some (some none) else (Array.replicate size none)[v]? :=
  getElem?_foldl_note _ (by rwa [Array.size_replicate]) v

theorem has_start (hlt : ∀ v ∈ starts, v < size) (v : Nat) :
    (start (σ := σ) size starts).parents.Has v ↔ v ∈ starts := by
  unfold Parents.Has
  rw [getElem?_start hlt, Array.getElem?_replicate]
  by_cases hv : v ∈ starts
  · simp [hv]
  · by_cases hsize : v < size
    · simp [hv, hsize]
    · simp [hv, hsize]

theorem left_start (hnodup : starts.Nodup) (hlt : ∀ v ∈ starts, v < size) :
    (start (σ := σ) size starts).left = size := by
  have hall : ∀ (starts : List Nat) (parents : Parents σ), starts.Nodup →
      (∀ v ∈ starts, parents[v]? = some none) →
        (starts.foldl (fun parents v => parents.note v none) parents).countP Option.isNone +
          starts.length = parents.countP Option.isNone := by
    intro starts
    induction starts with
    | nil => exact fun parents _ _ => rfl
    | cons x starts ih =>
      intro parents hnodup hopen
      obtain ⟨hx, hnodup⟩ := List.nodup_cons.mp hnodup
      obtain ⟨hfirst, hopen⟩ := List.forall_mem_cons.mp hopen
      have hrest := ih (parents.note x none) hnodup fun v hv => by
        have hne : x ≠ v := fun heq => hx (heq ▸ hv)
        rw [getElem?_note hfirst, if_neg hne]
        exact hopen v hv
      rw [List.foldl_cons, List.length_cons, ← Nat.add_assoc, hrest]
      exact countP_note hfirst none
  refine (hall starts (Array.replicate size none) hnodup fun v hv => ?_).trans ?_
  · rw [Array.getElem?_replicate, if_pos (hlt v hv)]
  · simp [Array.countP_replicate]

theorem sound_start (hlt : ∀ v ∈ starts, v < size) : (start (σ := σ) size starts).Sound := by
  constructor
  · intro v hv
    have hsome := getElem?_start (σ := σ) hlt v
    rw [if_pos ((has_start hlt v).mp hv)] at hsome
    refine ⟨[], .start hsome, ?_⟩
    obtain ⟨hbound, hentry⟩ := Array.getElem?_eq_some_iff.mp hsome
    exact Array.countP_pos_iff.mpr ⟨_, Array.getElem_mem hbound, by rw [hentry]; rfl⟩
  · exact fun v hv => (has_start hlt v).mpr hv

theorem follows_start (hnodup : starts.Nodup) (hlt : ∀ v ∈ starts, v < size)
    (hgoal : ∀ v ∈ starts, goal v = false) :
    Follows goal (Array.replicate size false) (starts.map fun v => (v, ([] : List σ)))
      (start size starts) := by
  constructor
  case size =>
    have hfold : ∀ (starts : List Nat) (parents : Parents σ),
        (starts.foldl (fun parents v => parents.note v none) parents).size = parents.size := by
      intro starts
      induction starts with
      | nil => exact fun parents => rfl
      | cons x starts ih => exact fun parents => (ih _).trans size_note
    exact (hfold starts _).trans (by simp)
  case queued =>
    rw [List.map_map]
    exact (List.map_id starts).symm
  case has =>
    intro v
    rw [has_start hlt]
    exact (or_iff_right (Marks.not_has_replicate size v)).symm
  case unclosed => exact fun v _ => Marks.not_has_replicate size v
  case nodup => exact hnodup
  case noGoal => exact hgoal
  case traced =>
    intro x hx
    obtain ⟨v, hv, rfl⟩ := List.mem_map.mp hx
    refine .start ?_
    rw [getElem?_start hlt, if_pos hv]

end Start

end Discovery

section Ends

open Discovery

variable {size : Nat} {starts : List Nat}

/-- The steps that are read off from the goal are all that is found, and no bound on the states on
the way stops the reading. -/
theorem firstNoted?_eq_of_readOff {result : Option (List σ)}
    (hrooted : ((start size starts).finish next goal).1.Rooted)
    (h : ReadOff ((start size starts).finish next goal).1 ((start size starts).finish next goal).2
      result) : firstNoted? next goal size starts = result := by
  unfold firstNoted?
  generalize (start size starts).finish next goal = ended at hrooted h
  obtain ⟨parents, found⟩ := ended
  cases h with
  | nothing => rfl
  | @steps v walk htrace =>
    obtain ⟨other, hother, hlt⟩ := hrooted v htrace.has
    rw [← htrace.unique hother] at hlt
    have hback := traceBack?_eq htrace (Nat.lt_of_lt_of_le hlt Array.countP_le_size)
    simp only [hback, Option.map_some]

theorem firstNoted?_eq_shortest (hnodup : starts.Nodup) (hlt : ∀ v ∈ starts, v < size)
    (hgoal : ∀ v ∈ starts, goal v = false) :
    firstNoted? next goal size starts =
      shortest next goal (Array.replicate size false) (starts.map fun v => (v, [])) := by
  obtain ⟨turns, -, hends⟩ := ends_finish next goal (start size starts)
  exact firstNoted?_eq_of_readOff (hends.rooted (sound_start hlt))
    (hends.readOff_shortest (follows_start hnodup hlt hgoal))

/-- The search ends in as many turns as there are states, its parents hold no circle, and what it
finds is read off from the goal. -/
theorem ends_firstNoted? (next : Nat → List (σ × Nat)) (hnodup : starts.Nodup)
    (hlt : ∀ v ∈ starts, v < size) (hgoal : ∀ v ∈ starts, goal v = false) :
    ∃ turns ≤ size, ∃ parents found,
      Discovery.Ends next goal turns (start size starts) parents found ∧
      (∀ v, ¬ TransGen (ParentOf parents) v v) ∧
      ReadOff parents found (firstNoted? next goal size starts) := by
  obtain ⟨turns, hle, hends⟩ := ends_finish next goal (start size starts)
  have hrooted := hends.rooted (sound_start hlt)
  refine ⟨turns, (left_start hnodup hlt).subst hle, _, _, hends, hrooted.acyclic, ?_⟩
  rw [firstNoted?_eq_shortest hnodup hlt hgoal]
  exact hends.readOff_shortest (follows_start hnodup hlt hgoal)

end Ends

end Search

end SpecFence
