import SpecFence.Proofs.Progress

/-!
# The labels that nodes receive

A node receives the label of a stage of a group exactly when an uncut edge enters it from a node
that a walk stands at after visiting the stages up to that one in order.  All groups spread their
labels at the same time, and no two stages share a label, so each group has its labels to itself.
-/

set_option autoImplicit false

namespace SpecFence

namespace LabelProblem

variable {p : LabelProblem}

section Numbering

theorem labelsBefore_succ {i : Nat} {c : WaypointGroup} (hc : p.groups[i]? = some c) :
    p.labelsBefore (i + 1) = p.labelsBefore i + labelsOf c := by
  unfold labelsBefore
  rw [List.take_add_one, hc, List.foldl_append]
  rfl

theorem labelsBefore_mono {i j : Nat} (hij : i ≤ j) : p.labelsBefore i ≤ p.labelsBefore j := by
  induction j, hij using Nat.le_induction with
  | base => exact Nat.le_refl _
  | succ j _ ih =>
    cases hc : p.groups[j]? with
    | none =>
      unfold labelsBefore at ih ⊢
      rwa [List.take_add_one, hc, Option.toList_none, List.append_nil]
    | some c =>
      rw [labelsBefore_succ hc]
      omega

theorem label_inj {i j k m : Nat} {c d : WaypointGroup} (hc : p.groups[i]? = some c)
    (hd : p.groups[j]? = some d) (hk : k < labelsOf c) (hm : m < labelsOf d)
    (h : p.label i k = p.label j m) : i = j ∧ k = m := by
  have hci := labelsBefore_succ hc
  have hdj := labelsBefore_succ hd
  unfold label at h
  rcases Nat.lt_trichotomy i j with hij | rfl | hij
  · have hle := labelsBefore_mono (p := p) (show i + 1 ≤ j from hij)
    omega
  · exact ⟨rfl, by omega⟩
  · have hle := labelsBefore_mono (p := p) (show j + 1 ≤ i from hij)
    omega

theorem label_lt {i k : Nat} {c : WaypointGroup} (hc : p.groups[i]? = some c)
    (hk : k < labelsOf c) : p.label i k < p.labelCount := by
  have hci := labelsBefore_succ hc
  have hlt : i < p.groups.length := (List.getElem?_eq_some_iff.mp hc).1
  have hle := labelsBefore_mono (p := p) (show i + 1 ≤ p.groups.length from hlt)
  unfold label labelCount
  omega

end Numbering

section Emitted

/-- A stage of a group makes a node emit its label, given the labels that the node receives. -/
structure Emits (p : LabelProblem) (v : Node) (received : AscSet Nat) (i k : Nat)
    (c : WaypointGroup) : Prop where
  group : p.groups[i]? = some c
  stage : ∃ s, c.stages[k]? = some s ∧ v ∈ s
  inner : k < labelsOf c
  known : ∀ j, k = j + 1 → p.label i j ∈ received

theorem mem_emittedBy {v : Node} {received : AscSet Nat} {base stage l : Nat}
    {stages : List NodeSet} :
    l ∈ emittedBy v received base stage stages ↔
      ∃ k s, stages[k]? = some s ∧ v ∈ s ∧ k < stages.length - 1 ∧ l = base + (stage + k) ∧
        (stage + k = 0 ∨ base + (stage + k - 1) ∈ received) := by
  induction stages generalizing stage with
  | nil => simp [emittedBy]
  | cons s rest ih =>
    cases rest with
    | nil => simp [emittedBy]
    | cons t rest =>
      rw [emittedBy, List.mem_append, ih]
      constructor
      · rintro (hhere | ⟨k, x, hx, hv, hk, hl, hreceived⟩)
        · split at hhere
          · rename_i hcond
            exact ⟨0, s, rfl, hcond.1, by simp, List.mem_singleton.mp hhere, hcond.2⟩
          · exact absurd hhere List.not_mem_nil
        · refine ⟨k + 1, x, hx, hv, ?_, ?_, ?_⟩
          · simp only [List.length_cons] at hk ⊢
            omega
          · omega
          · rwa [show stage + (k + 1) = stage + 1 + k by omega]
      · rintro ⟨k, x, hx, hv, hk, hl, hreceived⟩
        cases k with
        | zero =>
          cases hx
          refine Or.inl ?_
          rw [if_pos ⟨hv, hreceived⟩]
          exact List.mem_singleton.mpr hl
        | succ k =>
          refine Or.inr ⟨k, x, hx, hv, ?_, by omega, ?_⟩
          · simp only [List.length_cons] at hk ⊢
            omega
          · rwa [show stage + 1 + k = stage + (k + 1) by omega]

theorem mem_foldl_insertAll {α : Type} {l : List α} (members : α → List Nat) {start : AscSet Nat}
    {x : Nat} :
    x ∈ l.foldl (fun out a => out.insertAll (members a)) start ↔
      x ∈ start ∨ ∃ a ∈ l, x ∈ members a := by
  induction l generalizing start with
  | nil => simp
  | cons a l ih =>
    rw [List.foldl_cons, ih, AscSet.mem_insertAll]
    simp [or_assoc]

theorem mem_emitted {v : Node} {received : AscSet Nat} {l : Nat} :
    l ∈ p.emitted v received ↔
      l ∈ received ∨ ∃ i k c, p.Emits v received i k c ∧ l = p.label i k := by
  have hlabel : ∀ i k, p.label i 0 + (0 + k) = p.label i k := by
    intro i k
    unfold label
    omega
  unfold emitted
  refine (mem_foldl_insertAll (fun x : WaypointGroup × Nat =>
    emittedBy v received (p.label x.2 0) 0 x.1.stages)).trans (or_congr_right ?_)
  constructor
  · rintro ⟨⟨c, i⟩, hmem, hl⟩
    obtain ⟨k, s, hs, hv, hk, hl, hreceived⟩ := mem_emittedBy.mp hl
    refine ⟨i, k, c, ⟨List.mem_zipIdx_iff_getElem?.mp hmem, ⟨s, hs, hv⟩, hk, ?_⟩, ?_⟩
    · rintro j rfl
      rcases hreceived with hzero | hreceived
      · omega
      · rwa [← hlabel i j]
    · rw [hl, hlabel]
  · rintro ⟨i, k, c, ⟨hc, ⟨s, hs, hv⟩, hk, hknown⟩, rfl⟩
    refine ⟨(c, i), List.mem_zipIdx_iff_getElem?.mpr hc, ?_⟩
    refine mem_emittedBy.mpr ⟨k, s, hs, hv, hk, (hlabel i k).symm, ?_⟩
    cases k with
    | zero => exact Or.inl rfl
    | succ j =>
      refine Or.inr ?_
      have hj := hknown j rfl
      rw [← hlabel] at hj
      exact hj

end Emitted

section Round

def receivedAt (received : List (AscSet Nat)) (v : Node) : AscSet Nat := received[v]?.getD .empty

theorem mem_foldl_union {l : List Edge} {v : Node} {out : Array (AscSet Nat)}
    {start : AscSet Nat} {x : Nat} :
    x ∈ l.foldl (fun acc e => if e.dst = v then acc ∪ out[e.src]?.getD .empty else acc) start ↔
      x ∈ start ∨ ∃ u, (⟨u, v⟩ : Edge) ∈ l ∧ x ∈ out[u]?.getD .empty := by
  induction l generalizing start with
  | nil => simp
  | cons e l ih =>
    obtain ⟨src, dst⟩ := e
    rw [List.foldl_cons, ih]
    by_cases hdst : dst = v
    · subst hdst
      simp only [if_true, AscSet.mem_union, List.mem_cons, Edge.mk.injEq, and_true]
      constructor
      · rintro ((hx | hx) | ⟨u, hu, hx⟩)
        · exact Or.inl hx
        · exact Or.inr ⟨src, Or.inl rfl, hx⟩
        · exact Or.inr ⟨u, Or.inr hu, hx⟩
      · rintro (hx | ⟨u, rfl | hu, hx⟩)
        · exact Or.inl (Or.inl hx)
        · exact Or.inl (Or.inr hx)
        · exact Or.inr ⟨u, hu, hx⟩
    · have hother : ∀ u, (⟨u, v⟩ : Edge) ≠ ⟨src, dst⟩ := fun u heq => hdst (Edge.mk.inj heq).2.symm
      simp [hdst, hother]

theorem mem_uncutEdges {cut : EdgeSet} {u v : Node} :
    (⟨u, v⟩ : Edge) ∈ (p.edges.toList.zipIdx.filterMap
      fun x => if x.2 ∈ cut then none else some x.1.1) ↔ p.Passable cut u v := by
  rw [List.mem_filterMap]
  constructor
  · rintro ⟨⟨⟨e, w⟩, i⟩, hmem, hsome⟩
    dsimp only at hsome
    split at hsome
    · cases hsome
    · rename_i hfree
      cases hsome
      refine ⟨i, w, ?_, hfree⟩
      simpa using List.mem_zipIdx_iff_getElem?.mp hmem
  · rintro ⟨i, w, hedge, hfree⟩
    refine ⟨((⟨u, v⟩, w), i), List.mem_zipIdx_iff_getElem?.mpr (by simpa using hedge), ?_⟩
    exact if_neg hfree

theorem Passable.bound (h : p.WellFormed) {cut : EdgeSet} {u v : Node} (hpass : p.Passable cut u v) :
    u < p.size ∧ v < p.size := by
  obtain ⟨i, w, hedge, -⟩ := hpass
  exact h.bound i _ w hedge

theorem mem_receivedAt_round (h : p.WellFormed) {cut : EdgeSet} {received : List (AscSet Nat)}
    (hlength : received.length = p.size) {v : Node} {l : Nat} :
    l ∈ receivedAt (p.round cut received) v ↔
      ∃ u, p.Passable cut u v ∧ l ∈ p.emitted u (receivedAt received u) := by
  have hout : ∀ u < p.size,
      ((received.zipIdx.map fun x => p.emitted x.2 x.1).toArray[u]?.getD .empty) =
        p.emitted u (receivedAt received u) := by
    intro u hu
    have hget : received[u]? = some received[u] := List.getElem?_eq_getElem (by omega)
    unfold receivedAt
    simp [hget]
  unfold receivedAt round
  dsimp only
  by_cases hv : v < p.size
  · rw [List.getElem?_map, List.getElem?_range hv, Option.map_some, Option.getD_some,
      mem_foldl_union]
    constructor
    · rintro (hl | ⟨u, hu, hl⟩)
      · exact absurd hl (AscSet.not_mem_empty l)
      · have hpass := mem_uncutEdges.mp hu
        rw [hout u (Passable.bound h hpass).1] at hl
        exact ⟨u, hpass, hl⟩
    · rintro ⟨u, hpass, hl⟩
      refine Or.inr ⟨u, mem_uncutEdges.mpr hpass, ?_⟩
      rwa [hout u (Passable.bound h hpass).1]
  · rw [List.getElem?_eq_none (by simpa using hv)]
    refine iff_of_false (AscSet.not_mem_empty l) ?_
    rintro ⟨u, hpass, -⟩
    exact hv (Passable.bound h hpass).2

theorem length_round (cut : EdgeSet) (received : List (AscSet Nat)) :
    (p.round cut received).length = p.size := by
  unfold round
  simp

theorem remakes (h : p.WellFormed) (cut : EdgeSet) :
    Remakes (p.round cut) (fun received b => b.2 ∈ receivedAt received b.1)
      (allMembers p.size p.labelCount) fun received => received.length = p.size ∧
        ∀ v l, l ∈ receivedAt received v → l < p.labelCount := by
  constructor
  case good =>
    rintro received ⟨hlength, hlt⟩
    refine ⟨length_round cut received, fun v l hl => ?_⟩
    obtain ⟨u, -, hl⟩ := (mem_receivedAt_round h hlength).mp hl
    rcases mem_emitted.mp hl with hl | ⟨i, k, c, hemits, rfl⟩
    · exact hlt u l hl
    · exact label_lt hemits.group hemits.inner
  case mono =>
    rintro x y ⟨hx, -⟩ ⟨hy, -⟩ hxy ⟨v, l⟩ hl
    obtain ⟨u, hpass, hl⟩ := (mem_receivedAt_round h hx).mp hl
    refine (mem_receivedAt_round h hy).mpr ⟨u, hpass, mem_emitted.mpr ?_⟩
    rcases mem_emitted.mp hl with hl | ⟨i, k, c, hemits, rfl⟩
    · exact Or.inl (hxy (u, l) hl)
    · exact Or.inr ⟨i, k, c, ⟨hemits.group, hemits.stage, hemits.inner,
        fun j hj => hxy (u, _) (hemits.known j hj)⟩, rfl⟩
  case bound =>
    rintro received ⟨hlength, hlt⟩ ⟨v, l⟩ hl
    refine mem_allMembers.mpr ⟨?_, hlt v l hl⟩
    by_contra hv
    change l ∈ receivedAt received v at hl
    unfold receivedAt at hl
    rw [List.getElem?_eq_none (by omega)] at hl
    exact AscSet.not_mem_empty l hl
  case ext =>
    rintro received ⟨hlength, -⟩ hless hmore
    refine List.ext_getElem ((length_round cut received).trans hlength.symm) fun v hv hv' => ?_
    have hsame : receivedAt (p.round cut received) v = receivedAt received v :=
      AscSet.ext fun l => ⟨hless (v, l), hmore (v, l)⟩
    unfold receivedAt at hsame
    rwa [List.getElem?_eq_getElem hv, List.getElem?_eq_getElem hv'] at hsame

end Round

section Evaluate

/-- An uncut edge enters a node from one that walks stand at after the stages up to a numbered one
of a group. -/
def Enters (p : LabelProblem) (cut : EdgeSet) (c : WaypointGroup) (k : Nat) (v : Node) : Prop :=
  ∃ u, Progress (p.Passable cut) c.stages k u ∧ p.Passable cut u v

theorem receivedAt_replicate {n l : Nat} {v : Node} :
    l ∉ receivedAt (List.replicate n .empty) v := by
  unfold receivedAt
  rw [List.getElem?_replicate]
  split
  · exact AscSet.not_mem_empty l
  · exact AscSet.not_mem_empty l

theorem length_evaluate (cut : EdgeSet) : (p.evaluate cut).length = p.size :=
  fixpoint_induction (P := fun received : List (AscSet Nat) => received.length = p.size)
    (fun received _ => length_round cut received) _ _ List.length_replicate

theorem enters_of_mem (h : p.WellFormed) {cut : EdgeSet} {v : Node} {l : Nat}
    (hl : l ∈ receivedAt (p.evaluate cut) v) :
    ∃ i k c, p.groups[i]? = some c ∧ k < labelsOf c ∧ l = p.label i k ∧ p.Enters cut c k v := by
  have hall : (p.evaluate cut).length = p.size ∧ ∀ v l, l ∈ receivedAt (p.evaluate cut) v →
      ∃ i k c, p.groups[i]? = some c ∧ k < labelsOf c ∧ l = p.label i k ∧ p.Enters cut c k v := by
    apply fixpoint_induction (P := fun received : List (AscSet Nat) => received.length = p.size ∧
      ∀ v l, l ∈ receivedAt received v →
        ∃ i k c, p.groups[i]? = some c ∧ k < labelsOf c ∧ l = p.label i k ∧ p.Enters cut c k v)
    · rintro received ⟨hlength, ih⟩
      refine ⟨length_round cut received, fun v l hl => ?_⟩
      obtain ⟨u, hpass, hl⟩ := (mem_receivedAt_round h hlength).mp hl
      rcases mem_emitted.mp hl with hl | ⟨i, k, c, ⟨hc, ⟨s, hs, hu⟩, hk, hknown⟩, rfl⟩
      · obtain ⟨i, k, c, hc, hk, rfl, x, hx, hxu⟩ := ih u l hl
        exact ⟨i, k, c, hc, hk, rfl, u, hx.step hxu, hpass⟩
      · refine ⟨i, k, c, hc, hk, rfl, u, ?_, hpass⟩
        cases k with
        | zero => exact .start hs hu
        | succ k =>
          obtain ⟨j, m, d, hd, hm, hlabel, x, hx, hxu⟩ := ih u _ (hknown k rfl)
          obtain ⟨rfl, rfl⟩ := label_inj hc hd (by omega) hm hlabel
          rw [hc] at hd
          cases hd
          exact (hx.step hxu).enter hs hu
    · exact ⟨List.length_replicate, fun v l hl => absurd hl receivedAt_replicate⟩
  exact hall.2 v l hl

theorem round_evaluate (h : p.WellFormed) (cut : EdgeSet) :
    p.round cut (p.evaluate cut) = p.evaluate cut :=
  (remakes h cut).fixed ⟨List.length_replicate, fun _ _ hl => absurd hl receivedAt_replicate⟩
    (fun _ => receivedAt_replicate) ((length_allMembers _ _).trans_le (Nat.le_succ _))

/-- A node with progress up to a stage emits the label of the stage, and receives it unless it is in
the stage itself. -/
theorem emitted_of_progress (h : p.WellFormed) {cut : EdgeSet} {i k : Nat} {c : WaypointGroup}
    {v : Node} (hc : p.groups[i]? = some c) (hk : k < labelsOf c)
    (hprogress : Progress (p.Passable cut) c.stages k v) :
    p.label i k ∈ p.emitted v (receivedAt (p.evaluate cut) v) ∧
      ((∀ s, c.stages[k]? = some s → v ∉ s) → p.label i k ∈ receivedAt (p.evaluate cut) v) := by
  induction hprogress with
  | @start s v hs hv =>
    refine ⟨mem_emitted.mpr (Or.inr ⟨i, 0, c, ⟨hc, ⟨s, hs, hv⟩, hk, ?_⟩, rfl⟩), ?_⟩
    · intro j hj
      omega
    · exact fun hout => absurd hv (hout s hs)
  | @step k u v _ huv ih =>
    have hreceived : p.label i k ∈ receivedAt (p.evaluate cut) v := by
      rw [← round_evaluate h cut]
      exact (mem_receivedAt_round h (length_evaluate cut)).mpr ⟨u, huv, (ih hk).1⟩
    exact ⟨mem_emitted.mpr (Or.inl hreceived), fun _ => hreceived⟩
  | @enter k s v _ hs hv ih =>
    have hdisjoint := (h.groups c (List.mem_of_getElem? hc)).disjoint
    have hout : ∀ t, c.stages[k]? = some t → v ∉ t := by
      intro t ht hvt
      obtain ⟨hlt, rfl⟩ := List.getElem?_eq_some_iff.mp hs
      obtain ⟨hlt', rfl⟩ := List.getElem?_eq_some_iff.mp ht
      exact hdisjoint.getElem k hlt v hvt hv
    have hreceived := (ih (by omega)).2 hout
    refine ⟨mem_emitted.mpr (Or.inr ⟨i, k + 1, c, ⟨hc, ⟨s, hs, hv⟩, hk, ?_⟩, rfl⟩), ?_⟩
    · rintro j hj
      cases hj
      exact hreceived
    · exact fun hout => absurd hv (hout s hs)

/-- A node receives the label of a stage exactly when walks that have visited the stages up to it
enter the node. -/
theorem mem_evaluate_iff (h : p.WellFormed) {cut : EdgeSet} {i k : Nat} {c : WaypointGroup}
    {v : Node} (hc : p.groups[i]? = some c) (hk : k < labelsOf c) :
    p.label i k ∈ receivedAt (p.evaluate cut) v ↔ p.Enters cut c k v := by
  constructor
  · intro hl
    obtain ⟨j, m, d, hd, hm, hlabel, henters⟩ := enters_of_mem h hl
    obtain ⟨rfl, rfl⟩ := label_inj hc hd hk hm hlabel
    rw [hc] at hd
    cases hd
    exact henters
  · rintro ⟨u, hprogress, huv⟩
    rw [← round_evaluate h cut]
    exact (mem_receivedAt_round h (length_evaluate cut)).mpr
      ⟨u, huv, (emitted_of_progress h hc hk hprogress).1⟩

/-- A walk satisfies a group exactly when one enters a node of the last stage after visiting all
others. -/
theorem satisfiable_iff_enters {size : Nat} {c : WaypointGroup} (hwell : c.WellPosed size)
    {cut : EdgeSet} :
    c.Satisfiable (p.Passable cut) ↔
      ∃ v ∈ c.sinks?.getD .empty, p.Enters cut c (labelsOf c - 1) v := by
  have hlong := hwell.long
  have hlast : c.stages[labelsOf c - 1 + 1]? = some (c.sinks?.getD .empty) := by
    unfold WaypointGroup.sinks? labelsOf
    rw [List.getLast?_eq_getElem?, show c.stages.length - 1 - 1 + 1 = c.stages.length - 1 by omega,
      List.getElem?_eq_getElem (by omega)]
    rfl
  rw [WaypointGroup.satisfiable_iff_progress,
    show c.stages.length - 1 = labelsOf c - 1 + 1 by unfold labelsOf; omega]
  constructor
  · rintro ⟨w, hw⟩
    obtain ⟨s, v, hs, hv, hprogress⟩ := hw.exists_entered
    rw [hlast] at hs
    cases hs
    refine ⟨v, hv, hprogress.exists_step ?_⟩
    intro t ht hvt
    obtain ⟨hlt, hget⟩ := List.getElem?_eq_some_iff.mp hlast
    obtain ⟨hlt', rfl⟩ := List.getElem?_eq_some_iff.mp ht
    refine hwell.disjoint.getElem _ hlt v hvt ?_
    rwa [hget]
  · rintro ⟨v, hv, u, hprogress, huv⟩
    exact ⟨v, (hprogress.step huv).enter hlast hv⟩

theorem isValid_iff (h : p.WellFormed) {cut : EdgeSet} :
    p.isValid cut = true ↔ ∀ c ∈ p.groups, ¬ c.Satisfiable (p.Passable cut) := by
  have hat : ∀ v, (p.evaluate cut).toArray[v]?.getD .empty = receivedAt (p.evaluate cut) v := by
    intro v
    unfold receivedAt
    rw [List.getElem?_toArray]
  have hgroup : ∀ i c, p.groups[i]? = some c →
      ((labelsOf c == 0 || (c.sinks?.getD .empty).toList.all fun v =>
        !decide (p.label i (labelsOf c - 1) ∈ (p.evaluate cut).toArray[v]?.getD .empty)) = true ↔
      ¬ c.Satisfiable (p.Passable cut)) := by
    intro i c hc
    have hwell := h.groups c (List.mem_of_getElem? hc)
    have hpos : 0 < labelsOf c := by
      have hlong := hwell.long
      unfold labelsOf
      omega
    rw [satisfiable_iff_enters hwell, Bool.or_eq_true, beq_iff_eq, List.all_eq_true]
    simp only [hat, mem_evaluate_iff h hc (show labelsOf c - 1 < labelsOf c by omega),
      Bool.not_eq_true', decide_eq_false_iff_not, not_exists, not_and]
    rw [or_iff_right (by omega)]
    rfl
  unfold isValid
  rw [List.all_eq_true]
  constructor
  · intro hall c hmem
    obtain ⟨i, hc⟩ := List.mem_iff_getElem?.mp hmem
    exact (hgroup i c hc).mp (hall (c, i) (List.mem_zipIdx_iff_getElem?.mpr hc))
  · rintro hall ⟨c, i⟩ hmem
    have hc := List.mem_zipIdx_iff_getElem?.mp hmem
    exact (hgroup i c hc).mpr (hall c (List.mem_of_getElem? hc))

end Evaluate

end LabelProblem

end SpecFence
