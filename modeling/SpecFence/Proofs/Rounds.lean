import Mathlib.Data.List.ProdSigma
import SpecFence.Proofs.Origins
import SpecFence.Propagation.Clause

/-!
# Rounds reach the least solution

Every round makes what is held anew from what was held before it.  A round that gives more when it is
given more makes the held facts grow from none on, so there is at most one round with a change for
each fact, and the last round gives back what it is given.  What clauses and channels reach in this
way is exactly what can be derived from them.
-/

set_option autoImplicit false

namespace SpecFence

theorem exists_iterate_fixpoint {α : Type} [DecidableEq α] (round : α → α) (n : Nat) (x : α) :
    ∃ k ≤ n, fixpoint round n x = round^[k] x := by
  induction n generalizing x with
  | zero => exact ⟨0, Nat.le_refl 0, rfl⟩
  | succ n ih =>
    rw [fixpoint]
    split
    · exact ⟨0, Nat.zero_le _, rfl⟩
    · obtain ⟨k, hk, heq⟩ := ih (round x)
      exact ⟨k + 1, Nat.succ_le_succ hk, heq⟩

theorem fixpoint_succ_of_fixed {α : Type} [DecidableEq α] {round : α → α} {n : Nat} {x : α}
    (h : round (fixpoint round n x) = fixpoint round n x) :
    fixpoint round (n + 1) x = fixpoint round n x := by
  induction n generalizing x with
  | zero => exact if_pos h
  | succ n ih =>
    unfold fixpoint at h ⊢
    dsimp only at h ⊢
    split at h
    · rename_i hround
      rw [if_pos hround, if_pos hround]
    · rename_i hround
      rw [if_neg hround, if_neg hround]
      exact ih h

theorem fixpoint_eq_of_le {α : Type} [DecidableEq α] {round : α → α} {m n : Nat} {x : α}
    (h : round (fixpoint round m x) = fixpoint round m x) (hmn : m ≤ n) :
    fixpoint round n x = fixpoint round m x := by
  induction n, hmn using Nat.le_induction with
  | base => rfl
  | succ n _ ih => exact (fixpoint_succ_of_fixed (ih ▸ h)).trans ih

theorem countP_lt_countP {α : Type} {p q : α → Bool} {l : List α} {b : α}
    (himp : ∀ a ∈ l, p a = true → q a = true) (hb : b ∈ l) (hp : p b = false) (hq : q b = true) :
    l.countP p < l.countP q := by
  obtain ⟨before, after, rfl⟩ := List.append_of_mem hb
  have hbefore : before.countP p ≤ before.countP q :=
    List.countP_mono_left fun a ha => himp a (by simp [ha])
  have hafter : after.countP p ≤ after.countP q :=
    List.countP_mono_left fun a ha => himp a (by simp [ha])
  simp only [List.countP_append, List.countP_cons, hp, hq]
  simp
  omega

def unknownCount {α β : Type} (knows : α → β → Bool) (facts : List β) (x : α) : Nat :=
  facts.countP fun b => !knows x b

theorem fixpoint_fixed_of_facts {α β : Type} [DecidableEq α] {round : α → α} {P : α → Prop}
    (knows : α → β → Bool) (facts : List β) (step : ∀ x, P x → P (round x))
    (keep : ∀ x, P x → ∀ b ∈ facts, knows x b = true → knows (round x) b = true)
    (news : ∀ x, P x → round x ≠ x →
      ∃ b ∈ facts, knows x b = false ∧ knows (round x) b = true)
    {n : Nat} {x : α} (h : P x) (hn : facts.length ≤ n) :
    round (fixpoint round n x) = fixpoint round n x := by
  have hlower : ∀ x, P x → round x ≠ x →
      unknownCount knows facts (round x) < unknownCount knows facts x := by
    intro x hx hne
    obtain ⟨b, hb, hold, hnew⟩ := news x hx hne
    refine countP_lt_countP ?_ hb (by simp [hnew]) (by simp [hold])
    intro a ha hunknown
    cases hknown : knows x a with
    | false => rfl
    | true => simp [keep x hx a ha hknown] at hunknown
  exact fixpoint_fixed step hlower n x h (List.countP_le_length.trans hn)

/-- Rounds that make what is held anew, from what was held before. -/
structure Remakes {α β : Type} (round : α → α) (held : α → β → Prop) (facts : List β)
    (Good : α → Prop) : Prop where
  good : ∀ x, Good x → Good (round x)
  mono : ∀ x y, Good x → Good y → (∀ b, held x b → held y b) → ∀ b, held (round x) b → held (round y) b
  bound : ∀ x, Good x → ∀ b, held x b → b ∈ facts
  ext : ∀ x, Good x → (∀ b, held (round x) b → held x b) → (∀ b, held x b → held (round x) b) →
    round x = x

/-- The rounds from a start only add, some number of them leads to a result that a further round
leaves as it is, and whatever a round adds nothing to holds what the result holds. -/
structure Converges {α β : Type} (round : α → α) (held : α → β → Prop) (start : α) (rounds : Nat)
    (result : α) : Prop where
  grows : ∀ n b, held (round^[n] start) b → held (round^[n + 1] start) b
  reached : ∃ n ≤ rounds, result = round^[n] start
  fixed : round result = result
  least : ∀ x, (∀ b, held (round x) b → held x b) → ∀ b, held result b → held x b

namespace Remakes

variable {α β : Type} [DecidableEq α] {round : α → α} {held : α → β → Prop} {facts : List β}
  {Good : α → Prop} {n : Nat} {x : α}

theorem fixed (h : Remakes round held facts Good) (hx : Good x) (hempty : ∀ b, ¬ held x b)
    (hn : facts.length ≤ n) : round (fixpoint round n x) = fixpoint round n x := by
  classical
  refine fixpoint_fixed_of_facts (P := fun y => Good y ∧ ∀ b, held y b → held (round y) b)
    (fun y b => decide (held y b)) facts ?_ ?_ ?_ ?_ hn
  · intro y hy
    exact ⟨h.good y hy.1, h.mono y (round y) hy.1 (h.good y hy.1) hy.2⟩
  · intro y hy b _ hb
    exact decide_eq_true (hy.2 b (of_decide_eq_true hb))
  · intro y hy hne
    by_contra hnone
    refine hne (h.ext y hy.1 ?_ hy.2)
    intro b hb
    by_contra hnew
    exact hnone ⟨b, h.bound _ (h.good y hy.1) b hb, decide_eq_false hnew, decide_eq_true hb⟩
  · exact ⟨hx, fun b hb => absurd hb (hempty b)⟩

theorem converges (h : Remakes round held facts Good)
    (hmono : ∀ x y, (∀ b, held x b → held y b) → ∀ b, held (round x) b → held (round y) b)
    (hx : Good x) (hempty : ∀ b, ¬ held x b) (hn : facts.length ≤ n) :
    Converges round held x facts.length (fixpoint round n x) := by
  rw [fixpoint_eq_of_le (h.fixed hx hempty le_rfl) hn]
  constructor
  case grows =>
    intro k
    induction k with
    | zero => exact fun b hb => absurd hb (hempty b)
    | succ k ih =>
      rw [Function.iterate_succ_apply', Function.iterate_succ_apply' (n := k + 1)]
      exact hmono _ _ ih
  case reached => exact exists_iterate_fixpoint round facts.length x
  case fixed => exact h.fixed hx hempty le_rfl
  case least =>
    intro y hy
    refine fixpoint_induction (P := fun known => ∀ b, held known b → held y b) ?_ _ x
      fun b hb => absurd hb (hempty b)
    intro known hknown b hb
    exact hy b (hmono known y hknown b hb)

end Remakes

def allMembers (places members : Nat) : List (Nat × Nat) := List.range places ×ˢ List.range members

theorem mem_allMembers {places members : Nat} {b : Nat × Nat} :
    b ∈ allMembers places members ↔ b.1 < places ∧ b.2 < members := by
  exact List.mem_product.trans (and_congr List.mem_range List.mem_range)

theorem length_allMembers (places members : Nat) :
    (allMembers places members).length = places * members := by
  rw [allMembers, List.length_product, List.length_range, List.length_range]

namespace Clause

/-- The facts that follow from given ones. -/
inductive Derived (clauses : List Clause) (facts : AscSet Nat) : Nat → Prop
  | given {x : Nat} (h : x ∈ facts) : Derived clauses facts x
  | clause {c : Clause} (hc : c ∈ clauses) (h : ∀ p ∈ c.premises, Derived clauses facts p) :
      Derived clauses facts c.conclusion

theorem fires_iff {known : AscSet Nat} {c : Clause} :
    fires known c = true ↔ ∀ p ∈ c.premises, p ∈ known := by
  simp [fires]

theorem round_closure (clauses : List Clause) (facts : AscSet Nat) :
    round clauses (closure clauses facts) = closure clauses facts := by
  refine fixpoint_fixed_of_facts (P := fun _ => True) (fun known x => decide (x ∈ known))
    (clauses.map conclusion) (fun _ _ => trivial) ?_ ?_ trivial (by simp)
  · intro known _ x _ hx
    exact decide_eq_true (mem_round.mpr (Or.inl (of_decide_eq_true hx)))
  · intro known _ hne
    by_contra hnone
    refine hne (AscSet.ext fun x => ?_)
    rw [mem_round]
    constructor
    · rintro (hx | ⟨c, hc, hfires, rfl⟩)
      · exact hx
      · by_contra hnew
        refine hnone ⟨c.conclusion, List.mem_map.mpr ⟨c, hc, rfl⟩, decide_eq_false hnew, ?_⟩
        exact decide_eq_true (mem_round.mpr (Or.inr ⟨c, hc, hfires, rfl⟩))
    · exact Or.inl

theorem mem_closure_iff {clauses : List Clause} {facts : AscSet Nat} {x : Nat} :
    x ∈ closure clauses facts ↔ Derived clauses facts x := by
  constructor
  · have hall : ∀ y ∈ closure clauses facts, Derived clauses facts y := by
      apply fixpoint_induction (P := fun known : AscSet Nat => ∀ y ∈ known, Derived clauses facts y)
      · intro known ih y hy
        rcases mem_round.mp hy with hknown | ⟨c, hc, hfires, rfl⟩
        · exact ih y hknown
        · exact Derived.clause hc fun p hp => ih p (fires_iff.mp hfires p hp)
      · exact fun y hy => Derived.given hy
    exact hall x
  · intro h
    induction h with
    | @given x hx =>
      exact fixpoint_induction (P := fun known : AscSet Nat => x ∈ known)
        (fun known hknown => mem_round.mpr (Or.inl hknown)) _ facts hx
    | @clause c hc _ ih =>
      rw [← round_closure]
      exact mem_round.mpr (Or.inr ⟨c, hc, fires_iff.mpr ih, rfl⟩)

end Clause

namespace Channel

/-- What a place holds in the end: members that a channel gives it, its own or those of a source. -/
inductive Holds (channels : List Channel) : Nat → Nat → Prop
  | own {c : Channel} {x : Nat} (hc : c ∈ channels) (hx : x ∈ c.own) : Holds channels c.target x
  | source {c : Channel} {p x : Nat} (hc : c ∈ channels) (hp : p ∈ c.sources)
      (hx : Holds channels p x) : Holds channels c.target x

variable {channels : List Channel} {places members : Nat}

theorem getElem?_foldl_setIfInBounds {h start : Holding} {place : Nat}
    (hone : ∀ c ∈ channels, ∀ d ∈ channels, c.target = d.target → c = d) :
    (channels.foldl (fun h' c => h'.setIfInBounds c.target (c.output h)) start)[place]? =
      if place < start.size then
        some (((channels.find? fun c => c.target == place).map (output h)).getD (start.at place))
      else none := by
  induction channels generalizing start with
  | nil =>
    by_cases hplace : place < start.size
    · simp [hplace, Holding.at]
    · simp [hplace]
  | cons c channels ih =>
    have hrest : ∀ c ∈ channels, ∀ d ∈ channels, c.target = d.target → c = d := fun a ha b hb =>
      hone a (List.mem_cons_of_mem c ha) b (List.mem_cons_of_mem c hb)
    rw [List.foldl_cons, ih hrest, Array.size_setIfInBounds]
    by_cases hplace : place < start.size
    · rw [if_pos hplace, if_pos hplace, List.find?_cons]
      by_cases htarget : c.target = place
      · have hset : Holding.at (start.setIfInBounds c.target (c.output h)) place = c.output h := by
          unfold Holding.at
          rw [htarget, Array.getElem?_setIfInBounds, if_pos rfl, if_pos hplace]
          rfl
        rw [hset]
        cases hfind : channels.find? fun d => d.target == place with
        | none => simp [htarget]
        | some d =>
          have hd := List.mem_of_find?_eq_some hfind
          have hdplace : d.target = place := by simpa using List.find?_some hfind
          have hsame := hone c List.mem_cons_self d (List.mem_cons_of_mem c hd)
            (htarget.trans hdplace.symm)
          simp [htarget, ← hsame]
      · have hkeep : Holding.at (start.setIfInBounds c.target (c.output h)) place =
            start.at place := by
          unfold Holding.at
          rw [Array.getElem?_setIfInBounds, if_neg htarget]
        have hother : (c.target == place) = false := by simpa using htarget
        simp only [hkeep, hother]
    · rw [if_neg hplace, if_neg hplace]

/-- When no two channels have a target in common, a round gives each place what its channel
gives. -/
theorem mem_at_round_iff (hone : ∀ c ∈ channels, ∀ d ∈ channels, c.target = d.target → c = d)
    {h : Holding} {place x : Nat} :
    x ∈ Holding.at (round channels places h) place ↔
      place < places ∧ ∃ c ∈ channels, c.target = place ∧ x ∈ c.output h := by
  unfold Holding.at round
  rw [getElem?_foldl_setIfInBounds hone, Array.size_replicate]
  by_cases hplace : place < places
  · rw [if_pos hplace, Option.getD_some]
    cases hfind : channels.find? fun c => c.target == place with
    | none =>
      have hnone := List.find?_eq_none.mp hfind
      simp only [Option.map_none, Option.getD_none, not_mem_at_replicate, hplace, true_and,
        false_iff]
      rintro ⟨c, hc, htarget, -⟩
      exact hnone c hc (by simpa using htarget)
    | some d =>
      have hd := List.mem_of_find?_eq_some hfind
      have hdplace : d.target = place := by simpa using List.find?_some hfind
      simp only [Option.map_some, Option.getD_some, hplace, true_and]
      constructor
      · intro hx
        exact ⟨d, hd, hdplace, hx⟩
      · rintro ⟨c, hc, htarget, hx⟩
        rwa [hone d hd c hc (hdplace.trans htarget.symm)]
  · simp [hplace]

theorem size_round (h : Holding) : (round channels places h).size = places := by
  unfold round
  have hfold : ∀ start : Holding,
      (channels.foldl (fun h' c => h'.setIfInBounds c.target (c.output h)) start).size =
        start.size := by
    induction channels with
    | nil => exact fun start => rfl
    | cons c channels ih =>
      intro start
      rw [List.foldl_cons, ih, Array.size_setIfInBounds]
  rw [hfold, Array.size_replicate]

theorem Holding.ext {g h : Holding} (hsize : g.size = h.size) (hat : ∀ p, g.at p = h.at p) :
    g = h := by
  refine Array.ext hsize fun i hi hj => ?_
  have hsame := hat i
  unfold Holding.at at hsame
  rwa [Array.getElem?_eq_getElem hi, Array.getElem?_eq_getElem hj] at hsame

theorem Holding.at_of_le {h : Holding} {place : Nat} (hplace : h.size ≤ place) :
    h.at place = .empty := by
  unfold Holding.at
  rw [Array.getElem?_eq_none hplace]
  rfl

def Holding.Has (h : Holding) (b : Nat × Nat) : Prop := b.2 ∈ h.at b.1

theorem round_mono (hone : ∀ c ∈ channels, ∀ d ∈ channels, c.target = d.target → c = d)
    {g h : Holding} (hgh : ∀ b, g.Has b → h.Has b) (b : Nat × Nat)
    (hb : Holding.Has (round channels places g) b) : Holding.Has (round channels places h) b := by
  obtain ⟨hp, c, hc, htarget, hout⟩ := (mem_at_round_iff hone).mp hb
  refine (mem_at_round_iff hone).mpr ⟨hp, c, hc, htarget, mem_output.mpr ?_⟩
  rcases mem_output.mp hout with hown | ⟨q, hq, hx⟩
  · exact Or.inl hown
  · exact Or.inr ⟨q, hq, hgh (q, b.2) hx⟩

theorem remakes (hone : ∀ c ∈ channels, ∀ d ∈ channels, c.target = d.target → c = d)
    (hown : ∀ c ∈ channels, ∀ x ∈ c.own, x < members) :
    Remakes (round channels places) Holding.Has (allMembers places members)
      fun h => h.size = places ∧ ∀ b, h.Has b → b.2 < members := by
  constructor
  case good =>
    rintro h ⟨-, hlt⟩
    refine ⟨size_round h, fun b hb => ?_⟩
    obtain ⟨-, c, hc, -, hout⟩ := (mem_at_round_iff hone).mp hb
    rcases mem_output.mp hout with hown' | ⟨q, -, hq⟩
    · exact hown c hc b.2 hown'
    · exact hlt (q, b.2) hq
  case mono => exact fun g h _ _ => round_mono hone
  case bound =>
    rintro h ⟨hsize, hlt⟩ b hb
    refine mem_allMembers.mpr ⟨?_, hlt b hb⟩
    by_contra hp
    unfold Holding.Has at hb
    rw [Holding.at_of_le (by omega)] at hb
    exact AscSet.not_mem_empty b.2 hb
  case ext =>
    rintro h ⟨hsize, -⟩ hless hmore
    refine Holding.ext ((size_round h).trans hsize.symm) fun p => AscSet.ext fun x => ?_
    exact ⟨hless (p, x), hmore (p, x)⟩

theorem not_has_replicate (b : Nat × Nat) :
    ¬ Holding.Has (Array.replicate places .empty) b := not_mem_at_replicate

theorem converges_spread (hone : ∀ c ∈ channels, ∀ d ∈ channels, c.target = d.target → c = d)
    (hown : ∀ c ∈ channels, ∀ x ∈ c.own, x < members) :
    Converges (round channels places) Holding.Has (Array.replicate places .empty)
      (places * members) (spread channels places members) := by
  rw [← length_allMembers]
  exact (remakes hone hown).converges (fun _ _ => round_mono hone)
    ⟨Array.size_replicate, fun b hb => absurd hb (not_has_replicate b)⟩ not_has_replicate
    ((length_allMembers places members).trans_le (Nat.le_succ _))

theorem mem_at_spread_iff (hone : ∀ c ∈ channels, ∀ d ∈ channels, c.target = d.target → c = d)
    (htarget : ∀ c ∈ channels, c.target < places)
    (hown : ∀ c ∈ channels, ∀ x ∈ c.own, x < members) {place x : Nat} :
    x ∈ Holding.at (spread channels places members) place ↔ Holds channels place x := by
  constructor
  · have hall : ∀ p y, y ∈ Holding.at (spread channels places members) p → Holds channels p y := by
      apply fixpoint_induction (P := fun h : Holding => ∀ p y, y ∈ h.at p → Holds channels p y)
      · intro h ih p y hy
        obtain ⟨-, c, hc, rfl, hout⟩ := (mem_at_round_iff hone).mp hy
        rcases mem_output.mp hout with hown' | ⟨q, hq, hyq⟩
        · exact Holds.own hc hown'
        · exact Holds.source hc hq (ih q y hyq)
      · intro p y hy
        exact absurd hy not_mem_at_replicate
    exact hall place x
  · have hfixed : round channels places (spread channels places members) =
        spread channels places members := (converges_spread hone hown).fixed
    intro h
    induction h with
    | @own c x hc hx =>
      rw [← hfixed]
      exact (mem_at_round_iff hone).mpr ⟨htarget c hc, c, hc, rfl, mem_output.mpr (Or.inl hx)⟩
    | @source c p x hc hp _ ih =>
      rw [← hfixed]
      exact (mem_at_round_iff hone).mpr
        ⟨htarget c hc, c, hc, rfl, mem_output.mpr (Or.inr ⟨p, hp, ih⟩)⟩

end Channel

end SpecFence
