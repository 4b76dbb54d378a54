import SpecFence.Proofs.Assignment
import SpecFence.Proofs.Optimality

/-!
# Converged passes

Cutting the groups in turn converges exactly when the sweeps over assignments settle within the
limit of passes.  At the assignment where they settle the parts do not overlap, each part is the
cut of its group on what the other parts leave, and together they separate every group.
-/

set_option autoImplicit false

namespace SpecFence

/-- Steps that lead from one state to the next, never to an earlier one, up to a state that a step
leaves as it is. -/
structure Settles {α : Type} (step : α → Except CutError α) (seq : Nat → α) (last : Nat) :
    Prop where
  steps : ∀ i, i < last → step (seq i) = .ok (seq (i + 1))
  settled : step (seq last) = .ok (seq last)
  fresh : ∀ i j, i < j → j ≤ last → seq i ≠ seq j

theorem Settles.of_settled {α : Type} {step : α → Except CutError α} {a : α}
    (h : step a = .ok a) : Settles step (fun _ => a) 0 :=
  ⟨fun i hi => absurd hi (Nat.not_lt_zero i), h, fun i j hij hj => by omega⟩

theorem Settles.cons {α : Type} {step : α → Except CutError α} {seq : Nat → α} {last : Nat} {a : α}
    (h : Settles step seq last) (hstep : step a = .ok (seq 0)) (hfresh : ∀ i ≤ last, seq i ≠ a) :
    Settles step (fun i => i.casesOn a seq) (last + 1) := by
  refine ⟨fun i hi => ?_, h.settled, fun i j hij hj => ?_⟩
  · cases i with
    | zero => exact hstep
    | succ i => exact h.steps i (by omega)
  · obtain ⟨j, rfl⟩ : ∃ k, j = k + 1 := ⟨j - 1, by omega⟩
    cases i with
    | zero => exact (hfresh j (by omega)).symm
    | succ i => exact h.fresh i j (by omega) (by omega)

namespace Assignment

variable {g : Digraph} {groups : List WaypointGroup} {p q : Assignment}

theorem Within.eq_of_map_eq (hp : p.Within groups) (hq : q.Within groups)
    (h : groups.map p = groups.map q) : p = q := by
  funext x
  by_cases hx : x ∈ groups
  · exact List.map_inj_left.mp h x hx
  · rw [hp x hx, hq x hx]

theorem within_of_steps {seq : Nat → Assignment} {last : Nat}
    (h : Settles (fun p => p.sweep g groups groups) seq last) (hstart : (seq 0).Within groups) :
    ∀ i ≤ last, (seq i).Within groups := by
  intro i hi
  induction i with
  | zero => exact hstart
  | succ i ih => exact (ih (by omega)).sweep (fun _ hx => hx) (h.steps i (by omega))

end Assignment

namespace CutState

variable {g : Digraph} {groups : List WaypointGroup} {s t : CutState} {part : Assignment}
  {earlier : List Assignment} {made made' left : Nat}

theorem mem_history (hwithin : part.Within groups) (hearlier : ∀ p ∈ earlier, p.Within groups) :
    groups.map part ∈ earlier.map (fun p => groups.map p) ↔ part ∈ earlier := by
  rw [List.mem_map]
  constructor
  · rintro ⟨p, hp, heq⟩
    rwa [← (hearlier p hp).eq_of_map_eq hwithin heq]
  · intro hpart
    exact ⟨part, hpart, rfl⟩

theorem Assigned.settles_of_passes (h : Assigned g groups s part) (hg : g.Consistent)
    (hnodup : groups.Nodup) (hwell : ∀ x ∈ groups, x.WellPosed g.size)
    (hearlier : ∀ p ∈ earlier, p.Within groups) (hpart : part ∈ earlier)
    (hrun : (s.passes false groups made (earlier.map fun p => groups.map p) left).result =
      .ok (t, made', .converged)) :
    ∃ seq last, last < left ∧ seq 0 = part ∧ Settles (fun p => p.sweep g groups groups) seq last ∧
      (∀ i, 0 < i → i ≤ last → seq i ∉ earlier) ∧ Assigned g groups t (seq last) := by
  induction left generalizing s part earlier made with
  | zero => cases hrun
  | succ left ih =>
    rcases h.pass_all hg hnodup hwell with ⟨e, -, hpass⟩ |
      ⟨next, u, changed, hsweep, hpass, hu, hsame⟩
    · rw [passes_eq_of_error hpass] at hrun
      cases hrun
    · rw [passes_result_eq hpass] at hrun
      cases changed with
      | false =>
        cases hrun
        obtain rfl := hsame.mp rfl
        exact ⟨_, 0, Nat.succ_pos left, rfl, .of_settled hsweep, fun i hi hle => by omega, hu⟩
      | true =>
        rw [Bool.not_true, if_neg Bool.false_ne_true, hu.parts] at hrun
        by_cases hmem : groups.map next ∈ earlier.map fun p => groups.map p
        · rw [if_pos hmem] at hrun
          cases hrun
        · rw [if_neg hmem] at hrun
          rw [mem_history hu.within hearlier] at hmem
          obtain ⟨seq, last, hlast, rfl, hseq, hnew, ht⟩ := ih hu
            (List.forall_mem_cons.mpr ⟨hu.within, hearlier⟩) List.mem_cons_self hrun
          have hout : ∀ i ≤ last, seq i ∉ earlier := by
            intro i hi hearly
            cases i with
            | zero => exact hmem hearly
            | succ i => exact hnew (i + 1) (Nat.succ_pos i) hi (List.mem_cons_of_mem _ hearly)
          refine ⟨_, last + 1, by omega, rfl, hseq.cons hsweep fun i hi heq => ?_, ?_, ht⟩
          · exact hout i hi (heq ▸ hpart)
          · intro i hi hle
            cases i with
            | zero => omega
            | succ i => exact hout i (by omega)

theorem Assigned.passes_of_settles {seq : Nat → Assignment} {last k : Nat}
    (hseq : Settles (fun p => p.sweep g groups groups) seq last)
    (h : Assigned g groups s (seq k)) (hg : g.Consistent) (hnodup : groups.Nodup)
    (hwell : ∀ x ∈ groups, x.WellPosed g.size) (hk : k ≤ last) (hleft : last < k + left)
    (hearlier : ∀ p ∈ earlier, p.Within groups ∧ ∃ i ≤ k, p = seq i) :
    ∃ t made', (s.passes false groups made (earlier.map fun p => groups.map p) left).result =
        .ok (t, made', .converged) ∧ Assigned g groups t (seq last) := by
  induction left generalizing s k earlier made with
  | zero => omega
  | succ left ih =>
    rcases h.pass_all hg hnodup hwell with ⟨e, hsweep, -⟩ |
      ⟨next, u, changed, hsweep, hpass, hu, hsame⟩
    · rcases Nat.eq_or_lt_of_le hk with rfl | hlt
      · rw [hseq.settled] at hsweep
        cases hsweep
      · rw [hseq.steps k hlt] at hsweep
        cases hsweep
    · rw [passes_result_eq hpass]
      rcases Nat.eq_or_lt_of_le hk with rfl | hlt
      · rw [hseq.settled] at hsweep
        cases hsweep
        rw [hsame.mpr rfl]
        exact ⟨u, made + 1, rfl, hu⟩
      · rw [hseq.steps k hlt] at hsweep
        cases hsweep
        have hchanged : changed = true := by
          rw [← Bool.not_eq_false, hsame]
          exact (hseq.fresh k (k + 1) (Nat.lt_succ_self k) hlt).symm
        have hnew : groups.map (seq (k + 1)) ∉ earlier.map fun p => groups.map p := by
          rw [mem_history hu.within fun p hp => (hearlier p hp).1]
          intro hmem
          obtain ⟨-, i, hi, heq⟩ := hearlier _ hmem
          exact hseq.fresh i (k + 1) (by omega) hlt heq.symm
        rw [hchanged, Bool.not_true, if_neg Bool.false_ne_true, hu.parts, if_neg hnew]
        have hnext : ∀ p ∈ seq (k + 1) :: earlier,
            p.Within groups ∧ ∃ i ≤ k + 1, p = seq i := by
          intro p hp
          rcases List.mem_cons.mp hp with rfl | hp
          · exact ⟨hu.within, k + 1, Nat.le_refl _, rfl⟩
          · obtain ⟨hwithin, i, hi, heq⟩ := hearlier p hp
            exact ⟨hwithin, i, by omega, heq⟩
        exact ih hu hlt (by omega) hnext

theorem Assigned.mem_cut (h : Assigned g groups s part) {e : Edge} :
    e ∈ s.cut ↔ ∃ x ∈ groups, e ∈ part x := by
  rw [h.toValid.mem_cut, h.balanced, ← Nat.pos_iff_ne_zero, List.countP_pos_iff, h.parts]
  simp

end CutState

section Converged

variable {g : Digraph} {groups : List WaypointGroup} {limit : Nat} {before : CutProgress}
  {cut : Cut}

/-- Sweeps that start with nothing cut and settle within a limit of passes. -/
def SettlesAt (g : Digraph) (groups : List WaypointGroup) (limit : Nat) (part : Assignment) :
    Prop :=
  ∃ seq last, last < limit ∧ seq 0 = Assignment.empty ∧
    Settles (fun p => p.sweep g groups groups) seq last ∧ seq last = part

theorem ofPrepared_converged_iff (hg : g.Consistent) (hnodup : groups.Nodup)
    (hwell : ∀ x ∈ groups, x.WellPosed g.size) :
    ((IteratedRun.ofPrepared limit false g groups).outcome.result = .ok cut ∧
        (IteratedRun.ofPrepared limit false g groups).progress.converged = true) ↔
      ∃ part, SettlesAt g groups limit part ∧ ∀ e, e ∈ cut ↔ ∃ x ∈ groups, e ∈ part x := by
  have hstart := CutState.Assigned.start g groups
  have hwithin : Assignment.empty.Within groups := fun _ _ => rfl
  have hhistory : [(CutState.start g groups.length).parts] =
      [Assignment.empty].map fun p => groups.map p := by
    rw [List.map_singleton, hstart.parts]
  unfold IteratedRun.ofPrepared
  simp only [hhistory]
  constructor
  · rintro ⟨hresult, hconverged⟩
    split at hresult
    · cases hresult
    · rename_i s made hrun
      cases hresult
      obtain ⟨seq, last, hlast, hseq, hsettles, -, hassigned⟩ := hstart.settles_of_passes hg hnodup
        hwell (by simpa using hwithin) (List.mem_singleton.mpr rfl) hrun
      exact ⟨seq last, ⟨seq, last, hlast, hseq, hsettles, rfl⟩, fun e => hassigned.mem_cut⟩
    · rename_i s made ending hending hrun
      rw [hrun] at hconverged
      cases hrepair : (s.repair false 0 groups).result with
      | error e =>
        rw [hrepair] at hresult
        cases hresult
      | ok t =>
        cases ending with
        | converged => exact absurd rfl hending
        | repeated =>
          dsimp only at hconverged
          rw [hrepair] at hconverged
          cases hconverged
        | limited =>
          dsimp only at hconverged
          rw [hrepair] at hconverged
          cases hconverged
  · rintro ⟨part, ⟨seq, last, hlast, hseq, hsettles, rfl⟩, hcut⟩
    have hearlier : ∀ p ∈ [Assignment.empty], p.Within groups ∧ ∃ i ≤ 0, p = seq i := by
      intro p hp
      rw [List.mem_singleton.mp hp]
      exact ⟨hwithin, 0, Nat.le_refl 0, hseq.symm⟩
    rw [← hseq] at hstart
    obtain ⟨t, made, hrun, hassigned⟩ : ∃ t made, ((CutState.start g groups.length).passes false
        groups 0 ([Assignment.empty].map fun p => groups.map p) limit).result =
          .ok (t, made, .converged) ∧
          CutState.Assigned g groups t (seq last) :=
      hstart.passes_of_settles hsettles hg hnodup hwell (Nat.zero_le _) (by omega) hearlier
    rw [hrun]
    refine ⟨congrArg Except.ok (AscSet.ext fun e => ?_), rfl⟩
    rw [hassigned.mem_cut, hcut]

theorem nodup_of_prepareGroups {prepared : List WaypointGroup}
    (h : prepareGroups g groups = .ok prepared) : prepared.Nodup := by
  unfold prepareGroups at h
  split at h
  · cases h
  · cases h
    exact (AscSet.ofList groups).nodup_toList

/-- Cutting the groups in turn converges exactly when the sweeps over the prepared groups settle
within the limit. -/
theorem iteratedCut_converged_iff (hg : g.Consistent) {cancelled : Bool} :
    ((iteratedCut limit cancelled before g groups).outcome.result = .ok cut ∧
        (iteratedCut limit cancelled before g groups).progress.converged = true) ↔
      ∃ prepared part, prepareGroups g groups = .ok prepared ∧
        (cancelled = false ∨ prepared = []) ∧ SettlesAt g prepared (max limit 1) part ∧
        ∀ e, e ∈ cut ↔ ∃ x ∈ prepared, e ∈ part x := by
  cases hprepare : prepareGroups g groups with
  | error e =>
    unfold iteratedCut
    rw [hprepare]
    simp
  | ok prepared =>
    have hnodup := nodup_of_prepareGroups hprepare
    obtain ⟨hwell, hsame⟩ := prepareGroups_eq_ok hprepare
    have hprepared : ∀ x ∈ prepared, x.WellPosed g.size := fun x hx => hwell x ((hsame x).mp hx)
    simp only [Except.ok.injEq, exists_eq_left', exists_and_left]
    cases prepared with
    | nil =>
      have hempty : (iteratedCut limit cancelled before g groups) =
          ⟨⟨.ok .empty, []⟩, ⟨0, true⟩, []⟩ := by
        unfold iteratedCut
        rw [hprepare]
      rw [hempty]
      constructor
      · rintro ⟨hresult, -⟩
        cases hresult
        refine ⟨Or.inr rfl, .empty, ⟨_, 0, by omega, rfl, .of_settled rfl, rfl⟩, fun e => ?_⟩
        simp
      · rintro ⟨-, part, -, hcut⟩
        refine ⟨congrArg Except.ok (AscSet.ext fun e => ?_), rfl⟩
        rw [hcut]
        simp
    | cons group rest =>
      cases cancelled with
      | true =>
        constructor
        · rintro ⟨hresult, -⟩
          cases not_cancelled_of_iteratedCut hprepare hresult
        · rintro ⟨hor, -⟩
          simp at hor
      | false =>
        have hrun : iteratedCut limit false before g groups =
            .ofPrepared (max limit 1) false g (group :: rest) := by
          unfold iteratedCut
          rw [hprepare]
        rw [hrun, ofPrepared_converged_iff hg hnodup hprepared]
        simp

theorem separatedBy_iff (hg : g.Consistent) {group : WaypointGroup}
    (hwell : group.WellPosed g.size) (cut : List Edge) :
    group.separatedBy g cut = true ↔ ¬ group.Satisfiable (g.Uncut (· ∈ cut)) := by
  have hone : separatesAll g cut [group] = group.separatedBy g cut := Bool.and_true _
  rw [← hone, separatesAll_iff hg (by simpa using hwell)]
  simp

/-- When cutting the groups in turn converges, the cut is made of one part for each group, no two of
which share an edge.  Each part is exactly the cut of its group on the graph without all other
parts; for a group of two stages no finite edges that separate it there are lighter.  The whole cut
separates every group. -/
theorem iteratedCut_locally_optimal (graph : Digraph) (hg : graph.Consistent)
    (groups : List WaypointGroup) (limit : Nat) (cancelled : Bool) (before : CutProgress)
    (cut : Cut)
    (hcut : (iteratedCut limit cancelled before graph groups).outcome.result = .ok cut)
    (hconverged : (iteratedCut limit cancelled before graph groups).progress.converged = true) :
    ∃ prepared, prepareGroups graph groups = .ok prepared ∧
      separatesAll graph cut.toList groups = true ∧
      ∃ part : Assignment,
        (∀ e, e ∈ cut ↔ ∃ x ∈ prepared, e ∈ part x) ∧
        (∀ x ∈ prepared, ∀ y ∈ prepared, x ≠ y → ∀ e ∈ part x, e ∉ part y) ∧
        ∀ x ∈ prepared,
          minCutGroup (part.remaining graph prepared x) x false = .ok (part x) ∧
          (x.stages.length = 2 → ∀ other : Cut,
            (∀ e ∈ other, (part.remaining graph prepared x).weight e.src e.dst < Weight.infinite) →
            x.separatedBy (part.remaining graph prepared x) other.toList = true →
              cutWeight (part.remaining graph prepared x) (part x).toList ≤
                cutWeight (part.remaining graph prepared x) other.toList) := by
  obtain ⟨prepared, part, hprepare, -, ⟨seq, last, -, -, hsettles, rfl⟩, hmem⟩ :=
    (iteratedCut_converged_iff hg).mp ⟨hcut, hconverged⟩
  obtain ⟨hwell, hsame⟩ := prepareGroups_eq_ok hprepare
  have hprepared : ∀ x ∈ prepared,
      x.WellPosed ((seq last).remaining graph prepared x).size := by
    intro x hx
    rw [Assignment.size_remaining]
    exact hwell x ((hsame x).mp hx)
  have hparts := Assignment.minCutGroup_of_sweep_eq (nodup_of_prepareGroups hprepare)
    hsettles.settled
  refine ⟨prepared, hprepare, ?_, seq last, hmem, ?_, fun x hx => ⟨hparts x hx, ?_⟩⟩
  · exact (separatesAll_iff hg hwell).mpr (iteratedCut_separatesAll hg hcut).separated
  · -- a part lies in what the others leave, which has none of their edges
    intro x hx y hy hne e he hother
    have hfinite := (minCutGroup_separates (Assignment.remaining_consistent hg prepared _ x)
      (hprepared x hx) (hparts x hx)).finite e he
    exact (Assignment.joins_remaining hfinite.1).2 ⟨y, hy, hne.symm, hother⟩
  · intro htwo other hfinite hseparated
    have hconsistent := Assignment.remaining_consistent hg prepared (seq last) x
    exact minCutGroup_lightest hconsistent (hprepared x hx) htwo (hparts x hx) hfinite
      ((separatedBy_iff hconsistent (hprepared x hx) other.toList).mp hseparated)

/-- On the graph with an edge that serves two groups the passes converge, and the part of each group
is its own cut on what the other leaves. -/
theorem iteratedCut_locally_optimal_servingEdge :
    (iteratedCut 64 false .initial servingEdge.digraph servingGroups).progress.converged = true ∧
      ∃ part : Assignment,
        (∀ e, e ∈ (.ofList [⟨0, 1⟩, ⟨3, 1⟩] : Cut) ↔ ∃ x ∈ servingGroups, e ∈ part x) ∧
        ∀ x ∈ servingGroups,
          minCutGroup (part.remaining servingEdge.digraph servingGroups x) x false =
            .ok (part x) := by
  have hrun : ((iteratedCut 64 false .initial servingEdge.digraph servingGroups).outcome.result,
      (iteratedCut 64 false .initial servingEdge.digraph servingGroups).progress.converged) =
        (.ok (.ofList [⟨0, 1⟩, ⟨3, 1⟩]), true) := by
    cbv
  obtain ⟨hcut, hconverged⟩ := Prod.mk.inj hrun
  have hprepare : prepareGroups servingEdge.digraph servingGroups = .ok servingGroups := by
    cbv
  obtain ⟨prepared, hprepared, -, part, hmem, -, hparts⟩ := iteratedCut_locally_optimal
    servingEdge.digraph servingEdge.digraph_consistent servingGroups 64 false .initial
    (.ofList [⟨0, 1⟩, ⟨3, 1⟩]) hcut hconverged
  rw [hprepare] at hprepared
  cases hprepared
  exact ⟨hconverged, part, hmem, fun x hx => (hparts x hx).1⟩

end Converged

end SpecFence
