import SpecFence.Cut.LabelTables
import SpecFence.Proofs.Narrowing
import SpecFence.Proofs.Received

/-!
# Sweeps end with the least labels

Sweeps over two tables end with the labels that rounds over one table end with.  A sweep only adds
to the tables, and notes whether it does; the labels received after it are those of one more round,
because whatever a node emits by then it emits by the labels that it received before.  So there is
at most one sweep for each label and node, and two more.

The labels solve the label equations, and are part of every solution.  A label is received by a node
exactly when a walk over uncut edges that has visited the stages up to that of the label ends there.
-/

set_option autoImplicit false

namespace SpecFence

namespace Channel

variable {h : Holding} {place q : Nat} {members : AscSet Nat}

theorem Holding.size_add : (h.add place members).1.size = h.size :=
  Array.size_setIfInBounds

theorem Holding.at_add (hplace : place < h.size) :
    (h.add place members).1.at q = if place = q then h.at q ∪ members else h.at q := by
  unfold add Holding.at
  rw [Array.getElem?_setIfInBounds]
  by_cases heq : place = q
  · subst heq
    rw [if_pos rfl, if_pos hplace, if_pos rfl]
    rfl
  · rw [if_neg heq, if_neg heq]

theorem Holding.mem_add (hplace : place < h.size) {x : Nat} :
    x ∈ (h.add place members).1.at q ↔ x ∈ h.at q ∨ (q = place ∧ x ∈ members) := by
  rw [at_add hplace]
  split
  · rename_i heq
    simp [heq]
  · rename_i hne
    simp [Ne.symm hne]

theorem Holding.new_add (hplace : place < h.size) :
    (h.add place members).2 = false ↔ (h.add place members).1 = h := by
  have hnew : (h.add place members).2 = false ↔ h.at place ∪ members = h.at place := by
    unfold add
    simp
  rw [hnew]
  constructor
  · intro hsame
    refine Holding.ext size_add fun q => ?_
    rw [at_add hplace]
    split
    · rename_i heq
      rw [← heq, hsame]
    · rfl
  · intro hsame
    have hat : (h.add place members).1.at place = h.at place ∪ members := by
      rw [at_add hplace, if_pos rfl]
    rw [← hat, hsame]

end Channel

namespace LabelTables

open Channel

/-- Tables with more labels; whether there are more has been noted. -/
structure Grows (t u : LabelTables) : Prop where
  size_received : u.received.size = t.received.size
  size_emitted : u.emitted.size = t.emitted.size
  received : ∀ v l, l ∈ t.received.at v → l ∈ u.received.at v
  emitted : ∀ v l, l ∈ t.emitted.at v → l ∈ u.emitted.at v
  changed : u.changed = false ↔
    t.changed = false ∧ u.received = t.received ∧ u.emitted = t.emitted

variable {t u w : LabelTables} {v : Node} {labels : AscSet Nat} {e : Edge}

theorem Grows.refl (t : LabelTables) : t.Grows t :=
  ⟨rfl, rfl, fun _ _ h => h, fun _ _ h => h, by simp⟩

/-- What has been added stays, so the tables are the same in the end only if they are the same in
between. -/
theorem Grows.trans (h : t.Grows u) (h' : u.Grows w) : t.Grows w := by
  refine ⟨h'.size_received.trans h.size_received, h'.size_emitted.trans h.size_emitted,
    fun v l hl => h'.received v l (h.received v l hl),
    fun v l hl => h'.emitted v l (h.emitted v l hl), ?_⟩
  rw [h'.changed, h.changed]
  constructor
  · rintro ⟨⟨hchanged, hreceived, hemitted⟩, hreceived', hemitted'⟩
    exact ⟨hchanged, hreceived'.trans hreceived, hemitted'.trans hemitted⟩
  · rintro ⟨hchanged, hreceived, hemitted⟩
    have hbetween : u.received = t.received :=
      Holding.ext h.size_received fun v => AscSet.ext fun l =>
        ⟨fun hl => hreceived ▸ h'.received v l hl, h.received v l⟩
    have hbetween' : u.emitted = t.emitted :=
      Holding.ext h.size_emitted fun v => AscSet.ext fun l =>
        ⟨fun hl => hemitted ▸ h'.emitted v l hl, h.emitted v l⟩
    exact ⟨⟨hchanged, hbetween, hbetween'⟩, hreceived.trans hbetween.symm,
      hemitted.trans hbetween'.symm⟩

theorem mem_emit (hv : v < t.emitted.size) {x : Node} {l : Nat} :
    l ∈ (t.emit v labels).emitted.at x ↔ l ∈ t.emitted.at x ∨ (x = v ∧ l ∈ labels) :=
  Holding.mem_add hv

theorem grows_emit (hv : v < t.emitted.size) (labels : AscSet Nat) :
    t.Grows (t.emit v labels) := by
  refine ⟨rfl, Holding.size_add, fun _ _ h => h, fun x l hl => (mem_emit hv).mpr (Or.inl hl), ?_⟩
  change (t.changed || (t.emitted.add v labels).2) = false ↔ _
  rw [Bool.or_eq_false_iff, Holding.new_add hv]
  exact and_congr_right fun _ => (and_iff_right rfl).symm

theorem mem_pass (he : e.dst < t.received.size) {x : Node} {l : Nat} :
    l ∈ (t.pass e).received.at x ↔
      l ∈ t.received.at x ∨ (x = e.dst ∧ l ∈ t.emitted.at e.src) :=
  Holding.mem_add he

theorem grows_pass (he : e.dst < t.received.size) : t.Grows (t.pass e) := by
  refine ⟨Holding.size_add, rfl, fun x l hl => (mem_pass he).mpr (Or.inl hl), fun _ _ h => h, ?_⟩
  change (t.changed || (t.received.add e.dst (t.emitted.at e.src)).2) = false ↔ _
  rw [Bool.or_eq_false_iff, Holding.new_add he]
  exact and_congr_right fun _ => (and_iff_left rfl).symm

theorem emitted_foldl_pass (t : LabelTables) (edges : List Edge) :
    (edges.foldl pass t).emitted = t.emitted := by
  induction edges generalizing t with
  | nil => rfl
  | cons e edges ih => exact ih _

theorem mem_foldl_pass {edges : List Edge} (hedges : ∀ e ∈ edges, e.dst < t.received.size)
    {x : Node} {l : Nat} :
    l ∈ (edges.foldl pass t).received.at x ↔
      l ∈ t.received.at x ∨ ∃ u, (⟨u, x⟩ : Edge) ∈ edges ∧ l ∈ t.emitted.at u := by
  induction edges generalizing t with
  | nil => simp
  | cons e edges ih =>
    obtain ⟨he, hedges⟩ := List.forall_mem_cons.mp hedges
    have hgrows := grows_pass he
    refine (ih (hgrows.size_received ▸ hedges)).trans ?_
    rw [mem_pass he]
    change _ ∨ (∃ u, _ ∧ l ∈ t.emitted.at u) ↔ _
    constructor
    · rintro ((hl | ⟨rfl, hl⟩) | ⟨u, hu, hl⟩)
      · exact Or.inl hl
      · exact Or.inr ⟨e.src, List.mem_cons_self, hl⟩
      · exact Or.inr ⟨u, List.mem_cons_of_mem e hu, hl⟩
    · rintro (hl | ⟨u, hu, hl⟩)
      · exact Or.inl (Or.inl hl)
      · rcases List.mem_cons.mp hu with rfl | hu
        · exact Or.inl (Or.inr ⟨rfl, hl⟩)
        · exact Or.inr ⟨u, hu, hl⟩

theorem grows_foldl_pass {edges : List Edge} (hedges : ∀ e ∈ edges, e.dst < t.received.size) :
    t.Grows (edges.foldl pass t) := by
  induction edges generalizing t with
  | nil => exact .refl t
  | cons e edges ih =>
    obtain ⟨he, hedges⟩ := List.forall_mem_cons.mp hedges
    have hgrows := grows_pass he
    exact hgrows.trans (ih (hgrows.size_received ▸ hedges))

end LabelTables

namespace LabelProblem

open Channel

variable {p : LabelProblem} {cut : EdgeSet} {t : LabelTables}

theorem emitted_mono {v : Node} {r r' : AscSet Nat} (h : ∀ l ∈ r, l ∈ r') {l : Nat}
    (hl : l ∈ p.emitted v r) : l ∈ p.emitted v r' := by
  rcases mem_emitted.mp hl with hl | ⟨i, k, c, hemits, rfl⟩
  · exact mem_emitted.mpr (Or.inl (h l hl))
  · refine mem_emitted.mpr (Or.inr ⟨i, k, c, ?_, rfl⟩)
    exact ⟨hemits.group, hemits.stage, hemits.inner, fun j hj => h _ (hemits.known j hj)⟩

theorem received_noteAll (t : LabelTables) (vs : List Node) :
    (p.noteAll t vs).received = t.received := by
  induction vs generalizing t with
  | nil => rfl
  | cons v vs ih => exact ih _

theorem mem_noteAll {vs : List Node} (hvs : ∀ v ∈ vs, v < t.emitted.size) {x : Node} {l : Nat} :
    l ∈ (p.noteAll t vs).emitted.at x ↔
      l ∈ t.emitted.at x ∨ (x ∈ vs ∧ l ∈ p.emitted x (t.received.at x)) := by
  induction vs generalizing t with
  | nil => simp [noteAll]
  | cons v vs ih =>
    obtain ⟨hv, hvs⟩ := List.forall_mem_cons.mp hvs
    have hgrows := LabelTables.grows_emit hv (p.emitted v (t.received.at v))
    refine (ih (hgrows.size_emitted ▸ hvs)).trans ?_
    rw [LabelTables.mem_emit hv, List.mem_cons]
    constructor
    · rintro ((hl | ⟨rfl, hl⟩) | ⟨hx, hl⟩)
      · exact Or.inl hl
      · exact Or.inr ⟨Or.inl rfl, hl⟩
      · exact Or.inr ⟨Or.inr hx, hl⟩
    · rintro (hl | ⟨rfl | hx, hl⟩)
      · exact Or.inl (Or.inl hl)
      · exact Or.inl (Or.inr ⟨rfl, hl⟩)
      · exact Or.inr ⟨hx, hl⟩

theorem grows_noteAll {vs : List Node} (hvs : ∀ v ∈ vs, v < t.emitted.size) :
    t.Grows (p.noteAll t vs) := by
  induction vs generalizing t with
  | nil => exact .refl t
  | cons v vs ih =>
    obtain ⟨hv, hvs⟩ := List.forall_mem_cons.mp hvs
    have hgrows := LabelTables.grows_emit hv (p.emitted v (t.received.at v))
    exact hgrows.trans (ih (hgrows.size_emitted ▸ hvs))

/-- What sweeps keep: labels are emitted by what has been received, and received by what is then
emitted. -/
structure Underway (p : LabelProblem) (cut : EdgeSet) (t : LabelTables) : Prop where
  size_received : t.received.size = p.size
  size_emitted : t.emitted.size = p.size
  emitted : ∀ v l, l ∈ t.emitted.at v → l ∈ p.emitted v (t.received.at v)
  received : ∀ v l, l ∈ t.received.at v →
    ∃ u, p.Passable cut u v ∧ l ∈ p.emitted u (t.received.at u)

theorem Underway.empty (p : LabelProblem) (cut : EdgeSet) :
    p.Underway cut (.empty p.size) := by
  have hnone : ∀ v l, l ∉ Holding.at (Array.replicate p.size .empty) v := fun v l =>
    not_mem_at_replicate
  exact ⟨Array.size_replicate, Array.size_replicate, fun v l hl => absurd hl (hnone v l),
    fun v l hl => absurd hl (hnone v l)⟩

theorem receivedAt_toList (h : Holding) (v : Node) : receivedAt h.toList v = h.at v := by
  unfold receivedAt Holding.at
  rw [Array.getElem?_toList]

theorem Underway.at_emitted_of_le (h : p.Underway cut t) {v : Node} (hv : p.size ≤ v) :
    t.emitted.at v = .empty :=
  Holding.at_of_le (h.size_emitted ▸ hv)

theorem Underway.at_received_of_le (h : p.Underway cut t) {v : Node} (hv : p.size ≤ v) :
    t.received.at v = .empty :=
  Holding.at_of_le (h.size_received ▸ hv)

section Sweep

theorem Underway.grows_noted (h : p.Underway cut t) :
    ({ t with changed := false } : LabelTables).Grows
      (p.noteAll { t with changed := false } (List.range p.size)) :=
  grows_noteAll fun _ hv => h.size_emitted ▸ List.mem_range.mp hv

theorem Underway.edges_bound (h : p.Underway cut t) (hp : p.WellFormed) :
    ∀ e ∈ p.uncut cut,
      e.dst < (p.noteAll { t with changed := false } (List.range p.size)).received.size := by
  intro e he
  rw [received_noteAll]
  exact h.size_received ▸ (Passable.bound hp (mem_uncutEdges.mp he)).2

theorem Underway.grows_sweep (h : p.Underway cut t) (hp : p.WellFormed) :
    ({ t with changed := false } : LabelTables).Grows (p.sweep cut t) :=
  h.grows_noted.trans (LabelTables.grows_foldl_pass (h.edges_bound hp))

/-- What has been noted before is noted again, so the labels received before a sweep settle what is
emitted after it. -/
theorem Underway.at_emitted_sweep (h : p.Underway cut t) {v : Node} (hv : v < p.size) :
    (p.sweep cut t).emitted.at v = p.emitted v (t.received.at v) := by
  refine AscSet.ext fun l => ?_
  unfold sweep
  rw [LabelTables.emitted_foldl_pass,
    mem_noteAll fun _ hx => h.size_emitted ▸ List.mem_range.mp hx]
  constructor
  · rintro (hl | ⟨-, hl⟩)
    · exact h.emitted v l hl
    · exact hl
  · exact fun hl => Or.inr ⟨List.mem_range.mpr hv, hl⟩

theorem Underway.mem_received_sweep (h : p.Underway cut t) (hp : p.WellFormed) {v : Node} {l : Nat} :
    l ∈ (p.sweep cut t).received.at v ↔
      ∃ u, p.Passable cut u v ∧ l ∈ p.emitted u (t.received.at u) := by
  have hnoted : ∀ u, p.Passable cut u v →
      (p.noteAll { t with changed := false } (List.range p.size)).emitted.at u =
        p.emitted u (t.received.at u) := by
    intro u hu
    rw [← h.at_emitted_sweep (Passable.bound hp hu).1, sweep, LabelTables.emitted_foldl_pass]
  rw [sweep, LabelTables.mem_foldl_pass (h.edges_bound hp), received_noteAll]
  constructor
  · rintro (hl | ⟨u, hu, hl⟩)
    · exact h.received v l hl
    · have hpass : p.Passable cut u v := mem_uncutEdges.mp hu
      exact ⟨u, hpass, hnoted u hpass ▸ hl⟩
  · rintro ⟨u, hpass, hl⟩
    exact Or.inr ⟨u, mem_uncutEdges.mpr hpass, (hnoted u hpass).symm ▸ hl⟩

theorem Underway.sweep (h : p.Underway cut t) (hp : p.WellFormed) :
    p.Underway cut (p.sweep cut t) := by
  have hgrows := h.grows_sweep hp
  have hsize : (p.sweep cut t).emitted.size = p.size := hgrows.size_emitted.trans h.size_emitted
  have hmore : ∀ v l, l ∈ p.emitted v (t.received.at v) →
      l ∈ p.emitted v ((p.sweep cut t).received.at v) := fun v l =>
    emitted_mono (hgrows.received v)
  refine ⟨hgrows.size_received.trans h.size_received, hsize, fun v l hl => ?_, fun v l hl => ?_⟩
  · rcases Nat.lt_or_ge v p.size with hv | hv
    · rw [h.at_emitted_sweep hv] at hl
      exact hmore v l hl
    · rw [Holding.at_of_le (hsize ▸ hv)] at hl
      exact absurd hl (AscSet.not_mem_empty l)
  · obtain ⟨u, hpass, hl⟩ := (h.mem_received_sweep hp).mp hl
    exact ⟨u, hpass, hmore u l hl⟩

theorem Underway.received_sweep (h : p.Underway cut t) (hp : p.WellFormed) :
    (p.sweep cut t).received.toList = p.round cut t.received.toList := by
  have hlength : t.received.toList.length = p.size := h.size_received
  have hsize := (h.sweep hp).size_received
  refine List.ext_getElem (hsize.trans (length_round cut _).symm) fun v hv hv' => ?_
  have hsame : receivedAt (p.sweep cut t).received.toList v =
      receivedAt (p.round cut t.received.toList) v := by
    refine AscSet.ext fun l => ?_
    rw [receivedAt_toList, h.mem_received_sweep hp, mem_receivedAt_round hp hlength]
    simp only [receivedAt_toList]
  unfold receivedAt at hsame
  rwa [List.getElem?_eq_getElem hv, List.getElem?_eq_getElem hv'] at hsame

theorem Underway.changed_sweep (h : p.Underway cut t) (hp : p.WellFormed) :
    (p.sweep cut t).changed = false ↔
      (p.sweep cut t).received = t.received ∧ (p.sweep cut t).emitted = t.emitted :=
  (h.grows_sweep hp).changed.trans (and_iff_right rfl)

end Sweep

/-- Sweeps from one pair of tables end with another one, in any number of sweeps from some number
on. -/
structure Settles (p : LabelProblem) (cut : EdgeSet) (enough : Nat) (t u : LabelTables) : Prop where
  sweeps : ∀ fuel, enough ≤ fuel → p.sweeps cut fuel t = some u
  emitted : ∀ v < p.size, u.emitted.at v = p.emitted v (u.received.at v)
  underway : p.Underway cut u

theorem Settles.last (hp : p.WellFormed) (h : p.Underway cut t)
    (hsame : (p.sweep cut t).changed = false) : p.Settles cut 1 t (p.sweep cut t) := by
  refine ⟨fun fuel hfuel => ?_, fun v hv => ?_, h.sweep hp⟩
  · obtain ⟨left, rfl⟩ := Nat.exists_eq_add_of_le' hfuel
    exact if_neg (Bool.eq_false_iff.mp hsame)
  · rw [h.at_emitted_sweep hv, ((h.changed_sweep hp).mp hsame).1]

theorem Settles.more {u : LabelTables} {enough : Nat} (hmore : (p.sweep cut t).changed = true)
    (h : p.Settles cut enough (p.sweep cut t) u) : p.Settles cut (enough + 1) t u := by
  refine ⟨fun fuel hfuel => ?_, h.emitted, h.underway⟩
  obtain ⟨left, rfl⟩ := Nat.exists_eq_add_of_le' (Nat.le_of_add_left_le hfuel)
  exact (if_pos hmore).trans (h.sweeps left (by omega))

theorem Settles.mono {u : LabelTables} {enough enough' : Nat} (h : p.Settles cut enough t u)
    (hle : enough ≤ enough') : p.Settles cut enough' t u :=
  ⟨fun fuel hfuel => h.sweeps fuel (Nat.le_trans hle hfuel), h.emitted, h.underway⟩

/-- When a round would give nobody a new label, one sweep may note what is emitted, and the next one
adds nothing. -/
theorem Underway.settles_of_round (hp : p.WellFormed) (h : p.Underway cut t)
    (hround : p.round cut t.received.toList = t.received.toList) :
    ∃ u, p.Settles cut 2 t u ∧ u.received.toList = t.received.toList := by
  have hnext := h.sweep hp
  have hreceived : (p.sweep cut t).received = t.received :=
    Array.toList_inj.mp ((h.received_sweep hp).trans hround)
  cases hchanged : (p.sweep cut t).changed with
  | false =>
    exact ⟨_, (Settles.last hp h hchanged).mono (Nat.le_succ 1), congrArg Array.toList hreceived⟩
  | true =>
    have hreceived' : (p.sweep cut (p.sweep cut t)).received = (p.sweep cut t).received := by
      refine Array.toList_inj.mp ((hnext.received_sweep hp).trans ?_)
      rw [hreceived, hround]
    have hemitted' : (p.sweep cut (p.sweep cut t)).emitted = (p.sweep cut t).emitted := by
      have hnext' := hnext.sweep hp
      refine Holding.ext (hnext'.size_emitted.trans hnext.size_emitted.symm) fun v => ?_
      rcases Nat.lt_or_ge v p.size with hv | hv
      · rw [hnext.at_emitted_sweep hv, h.at_emitted_sweep hv, hreceived]
      · rw [hnext'.at_emitted_of_le hv, hnext.at_emitted_of_le hv]
    have hlast := Settles.last hp hnext ((hnext.changed_sweep hp).mpr ⟨hreceived', hemitted'⟩)
    refine ⟨_, hlast.more hchanged, ?_⟩
    rw [hreceived', hreceived]

theorem Underway.settles (hp : p.WellFormed) (h : p.Underway cut t) {n : Nat}
    (hfixed : p.round cut (fixpoint (p.round cut) n t.received.toList) =
      fixpoint (p.round cut) n t.received.toList) :
    ∃ u, p.Settles cut (n + 2) t u ∧
      u.received.toList = fixpoint (p.round cut) n t.received.toList := by
  induction n generalizing t with
  | zero => exact h.settles_of_round hp hfixed
  | succ n ih =>
    rw [fixpoint] at hfixed ⊢
    split at hfixed
    · rename_i hround
      rw [if_pos hround]
      obtain ⟨u, hsettles, hsame⟩ := h.settles_of_round hp hround
      exact ⟨u, hsettles.mono (Nat.le_add_left 2 (n + 1)), hsame⟩
    · rename_i hround
      rw [if_neg hround]
      have hchanged : (p.sweep cut t).changed = true := by
        rw [← Bool.not_eq_false, h.changed_sweep hp]
        rintro ⟨hreceived, -⟩
        exact hround ((h.received_sweep hp).symm.trans (congrArg Array.toList hreceived))
      rw [← h.received_sweep hp] at hfixed ⊢
      obtain ⟨u, hsettles, hsame⟩ := ih (h.sweep hp) hfixed
      exact ⟨u, hsettles.more hchanged, hsame⟩

theorem exists_settles_empty (hp : p.WellFormed) (cut : EdgeSet) :
    ∃ u, p.Settles cut (p.size * p.labelCount + 2) (.empty p.size) u ∧
      u.received.toList = p.evaluate cut := by
  have hfixed := (remakes hp cut).fixed (n := p.size * p.labelCount)
    (x := List.replicate p.size .empty)
    ⟨List.length_replicate, fun _ _ hl => absurd hl receivedAt_replicate⟩
    (fun _ => receivedAt_replicate) (length_allMembers _ _).le
  have hstart : (LabelTables.empty p.size).received.toList = List.replicate p.size .empty := by
    simp [LabelTables.empty]
  rw [← hstart] at hfixed
  obtain ⟨u, hsettles, hsame⟩ := (Underway.empty p cut).settles hp hfixed
  refine ⟨u, hsettles, ?_⟩
  rw [hstart] at hsame hfixed
  exact hsame.trans (fixpoint_succ_of_fixed hfixed).symm

/-- The labels of the stages but the last that a node is in, unless the label of the stage before is
not known. -/
def Grants (p : LabelProblem) (v : Node) (known : Nat → Prop) (l : Nat) : Prop :=
  ∃ i c k s, p.groups[i]? = some c ∧ k < labelsOf c ∧ c.stages[k]? = some s ∧ v ∈ s ∧
    (∀ j, k = j + 1 → known (p.label i j)) ∧ l = p.label i k

theorem mem_emitted_iff_grants {v l : Nat} {r : AscSet Nat} :
    l ∈ p.emitted v r ↔ l ∈ r ∨ p.Grants v (· ∈ r) l := by
  rw [mem_emitted]
  refine or_congr_right ⟨?_, ?_⟩
  · rintro ⟨i, k, c, ⟨hc, ⟨s, hs, hv⟩, hk, hknown⟩, hl⟩
    exact ⟨i, c, k, s, hc, hk, hs, hv, hknown, hl⟩
  · rintro ⟨i, c, k, s, hc, hk, hs, hv, hknown, hl⟩
    exact ⟨i, k, c, ⟨hc, ⟨s, hs, hv⟩, hk, hknown⟩, hl⟩

theorem Grants.imp {v l : Nat} {known known' : Nat → Prop} (himp : ∀ l, known l → known' l)
    (h : p.Grants v known l) : p.Grants v known' l := by
  obtain ⟨i, c, k, s, hc, hk, hs, hv, hknown, hl⟩ := h
  exact ⟨i, c, k, s, hc, hk, hs, hv, fun j hj => himp _ (hknown j hj), hl⟩

/-- The label equations: a node receives what the nodes with an uncut edge to it emit; it emits what
it receives, and what the stages that it is in grant. -/
structure Solves (p : LabelProblem) (cut : EdgeSet) (received emitted : Node → Nat → Prop) :
    Prop where
  received_iff : ∀ v l, received v l ↔ ∃ u, p.Passable cut u v ∧ emitted u l
  emitted_iff : ∀ v l, emitted v l ↔ received v l ∨ p.Grants v (received v) l

variable {u : LabelTables} {enough : Nat}

theorem Settles.solves (hp : p.WellFormed) (h : p.Settles cut enough t u)
    (hsame : u.received.toList = p.evaluate cut) :
    p.Solves cut (fun v l => l ∈ u.received.at v) (fun v l => l ∈ u.emitted.at v) := by
  have hat : ∀ v, receivedAt (p.evaluate cut) v = u.received.at v := fun v =>
    hsame ▸ receivedAt_toList u.received v
  constructor
  · intro v l
    rw [← hat, ← round_evaluate hp cut, mem_receivedAt_round hp (length_evaluate cut)]
    refine exists_congr fun x => and_congr_right fun hpass => ?_
    rw [hat, h.emitted x (Passable.bound hp hpass).1]
  · intro v l
    rcases Nat.lt_or_ge v p.size with hv | hv
    · rw [h.emitted v hv, mem_emitted_iff_grants]
    · rw [h.underway.at_emitted_of_le hv, h.underway.at_received_of_le hv]
      refine iff_of_false (AscSet.not_mem_empty l) ?_
      rintro (hl | ⟨i, c, k, s, hc, -, hs, hmem, -⟩)
      · exact AscSet.not_mem_empty l hl
      · have hgroup := hp.groups c (List.mem_of_getElem? hc)
        exact Nat.not_lt_of_le hv (hgroup.bound s (List.mem_of_getElem? hs) v hmem)

theorem Solves.of_mem_evaluate (hp : p.WellFormed) {received emitted : Node → Nat → Prop}
    (h : p.Solves cut received emitted) {v l : Nat}
    (hl : l ∈ receivedAt (p.evaluate cut) v) : received v l := by
  have hall : (p.evaluate cut).length = p.size ∧
      ∀ v l, l ∈ receivedAt (p.evaluate cut) v → received v l := by
    apply fixpoint_induction (P := fun r : List (AscSet Nat) => r.length = p.size ∧
      ∀ v l, l ∈ receivedAt r v → received v l)
    · rintro r ⟨hlength, ih⟩
      refine ⟨length_round cut r, fun v l hl => ?_⟩
      obtain ⟨x, hpass, hl⟩ := (mem_receivedAt_round hp hlength).mp hl
      refine (h.received_iff v l).mpr ⟨x, hpass, (h.emitted_iff x l).mpr ?_⟩
      exact (mem_emitted_iff_grants.mp hl).imp (ih x l) (Grants.imp (ih x))
    · exact ⟨List.length_replicate, fun v l hl => absurd hl receivedAt_replicate⟩
  exact hall.2 v l hl

theorem enters_iff_walk {c : WaypointGroup} {k : Nat} (hk : k < c.stages.length) {v : Node} :
    p.Enters cut c k v ↔ ∃ walk places, (walk ++ [v]).IsChain (p.Passable cut) ∧
      VisitsAt (· ∈ ·) walk places (c.stages.take (k + 1)) := by
  constructor
  · rintro ⟨x, hprogress, hxv⟩
    obtain ⟨walk, places, hchain, hlast, hvisits⟩ := hprogress.exists_walk
    refine ⟨walk, places, hchain.append (List.isChain_singleton v) ?_, hvisits⟩
    intro y hy z hz
    cases hlast.symm.trans hy
    cases hz
    exact hxv
  · rintro ⟨walk, places, hchain, hvisits⟩
    obtain ⟨hwalk, -, hstep⟩ := List.isChain_append.mp hchain
    have hne : walk ≠ [] := by
      rintro rfl
      have hlength := hvisits.2.length_eq
      rw [List.length_take] at hlength
      have hp : places[0]? = some _ := List.getElem?_eq_getElem (by omega)
      exact Nat.not_lt_zero _ (hvisits.lt_length (List.mem_of_getElem? hp))
    have hlast := List.getLast?_eq_some_getLast hne
    exact ⟨_, .of_walk hk hwalk hlast hvisits, hstep _ hlast v rfl⟩

/-- Whatever edges are cut, sweeps over the tables end, within two more than there are pairs of a
node and a label.  They end in the least solution of the label equations.  A node receives the label
of a stage exactly when a walk over relevant edges that are not cut ends there and has visited the
stages of the group up to that one, in order and before its end.  Stages that are not the same have
labels that are not the same, all below the number of labels. -/
theorem sweeps_least_walks (graph : Digraph) (hg : graph.Consistent) (groups : List WaypointGroup)
    (hgroups : ∀ g ∈ groups, g.fault? graph.size = none) (cut : EdgeSet) (p : LabelProblem)
    (hp : p = encode graph groups) :
    (∃ u, (∀ fuel, p.size * p.labelCount + 2 ≤ fuel →
          p.sweeps cut fuel (.empty p.size) = some u) ∧
        u.received.toList = p.evaluate cut ∧
        p.Solves cut (fun v l => l ∈ u.received.at v) (fun v l => l ∈ u.emitted.at v) ∧
        (∀ received emitted, p.Solves cut received emitted →
          ∀ v l, (l ∈ u.received.at v → received v l) ∧ (l ∈ u.emitted.at v → emitted v l)) ∧
        ∀ i c k, p.groups[i]? = some c → k < labelsOf c → ∀ v,
          p.label i k ∈ u.received.at v ↔
            ∃ walk places, (walk ++ [v]).IsChain (p.Passable cut) ∧
              VisitsAt (· ∈ ·) walk places (c.stages.take (k + 1))) ∧
      ∀ i c k, p.groups[i]? = some c → k < labelsOf c → p.label i k < p.labelCount ∧
        ∀ j d m, p.groups[j]? = some d → m < labelsOf d → p.label i k = p.label j m →
          i = j ∧ k = m := by
  have hwell : p.WellFormed := by
    rw [hp]
    exact encode_wellFormed hg fun g hmem => WaypointGroup.wellPosed_of_fault? (hgroups g hmem)
  obtain ⟨u, hsettles, hsame⟩ := exists_settles_empty hwell cut
  have hat : ∀ v, receivedAt (p.evaluate cut) v = u.received.at v := fun v =>
    hsame ▸ receivedAt_toList u.received v
  have hsolves := hsettles.solves hwell hsame
  refine ⟨⟨u, hsettles.sweeps, hsame, hsolves, fun received emitted h => ?_,
    fun i c k hc hk v => ?_⟩, fun i c k hc hk => ?_⟩
  · have hreceived : ∀ v l, l ∈ u.received.at v → received v l := fun v l hl =>
      h.of_mem_evaluate hwell ((hat v).symm ▸ hl)
    refine fun v l => ⟨hreceived v l, fun hl => (h.emitted_iff v l).mpr ?_⟩
    exact ((hsolves.emitted_iff v l).mp hl).imp (hreceived v l) (Grants.imp (hreceived v))
  · have hlong : k < c.stages.length := Nat.lt_of_lt_of_le hk (Nat.sub_le _ _)
    rw [← hat, mem_evaluate_iff hwell hc hk, enters_iff_walk hlong]
  · exact ⟨label_lt hc hk, fun j d m hd hm => label_inj hc hd hk hm⟩

/-- Two nodes that lead to each other, and a way out. -/
def roundTrip : WeightedGraph :=
  (WeightedGraph.withNodes 3).putAll [(⟨0, 1⟩, 1), (⟨1, 0⟩, 1), (⟨1, 2⟩, 1)]

def roundTripGroups : List WaypointGroup := [⟨[.singleton 0, .singleton 1, .singleton 2]⟩]

/-- A walk comes back to node 0 from the second stage; with the second edge cut, none does. -/
theorem sweeps_roundTrip :
    (∀ g ∈ roundTripGroups, g.fault? roundTrip.digraph.size = none) ∧
      (∃ walk places,
        (walk ++ [0]).IsChain ((encode roundTrip.digraph roundTripGroups).Passable .empty) ∧
          VisitsAt (· ∈ ·) walk places [.singleton 0, .singleton 1]) ∧
      ¬ ∃ walk places,
        (walk ++ [0]).IsChain ((encode roundTrip.digraph roundTripGroups).Passable (.singleton 1)) ∧
          VisitsAt (· ∈ ·) walk places [.singleton 0, .singleton 1] := by
  have hgroups : ∀ g ∈ roundTripGroups, g.fault? roundTrip.digraph.size = none := by
    decide +kernel
  have hleast := fun cut => sweeps_least_walks roundTrip.digraph roundTrip.digraph_consistent
    roundTripGroups hgroups cut _ rfl
  obtain ⟨⟨u, -, hu, -, -, hback⟩, -⟩ := hleast .empty
  obtain ⟨⟨w, -, hw, -, -, hcut⟩, -⟩ := hleast (.singleton 1)
  have hgroup : (encode roundTrip.digraph roundTripGroups).groups[0]? =
      some ⟨[.singleton 0, .singleton 1, .singleton 2]⟩ := by
    cbv
  have hreceived : (u.received.at 0).toList = [0, 1] := by
    rw [← receivedAt_toList, hu]
    cbv
  have hnone : (w.received.at 0).toList = [] := by
    rw [← receivedAt_toList, hw]
    cbv
  have hlabel : (encode roundTrip.digraph roundTripGroups).label 0 1 = 1 := by
    cbv
  refine ⟨hgroups, ?_, fun hwalk => ?_⟩
  · refine (hback 0 _ 1 hgroup (by decide) 0).mp ?_
    rw [hlabel, AscSet.mem_def, hreceived]
    decide
  · have hmem := (hcut 0 _ 1 hgroup (by decide) 0).mpr hwalk
    rw [AscSet.mem_def, hnone] at hmem
    exact List.not_mem_nil hmem

end LabelProblem

end SpecFence
