import SpecFence.Proofs.Built
import SpecFence.Proofs.Leaks

/-!
# The directions of the table of uses

Uses, dependencies and dependents are read off one function.  An instruction is listed once among
the uses of a value, however often it has the value as an operand.  Whatever depends on a value has
the value among its dependencies, and the other way round for all but one kind of value: a further
result of an instruction has dependencies, but it is nobody's dependent.
-/

set_option autoImplicit false

namespace SpecFence

namespace DefUse

variable {f : Function} {throughCalls : Bool} {v w : ValueId}

section Once

/-- No instruction is listed twice among the uses of a value. -/
def ListsOnce (d : DefUse) : Prop := ∀ v i, (d.usesOf v).count (.inst i) ≤ 1

variable {d : DefUse}

theorem usesOf_modify (uses : Array (List ValueUse)) (dependencies : Array (List ValueId))
    (g : List ValueUse → List ValueUse) (v x : ValueId) :
    (⟨uses.modify v g, dependencies⟩ : DefUse).usesOf x =
      if v = x ∧ x < uses.size then g ((⟨uses, dependencies⟩ : DefUse).usesOf x)
      else (⟨uses, dependencies⟩ : DefUse).usesOf x := by
  unfold usesOf
  rw [Array.getElem?_modify]
  by_cases hx : v = x
  · by_cases hlt : x < uses.size
    · simp [hx, hlt]
    · simp [hx, hlt]
  · simp [hx]

theorem ListsOnce.addUse (h : d.ListsOnce) (i : InstId) (v : ValueId) : (d.addUse i v).ListsOnce := by
  intro x j
  unfold DefUse.addUse
  rw [usesOf_modify]
  have hbefore := h x j
  by_cases hx : v = x ∧ x < d.uses.size
  · rw [if_pos hx]
    by_cases hlisted : .inst i ∈ d.usesOf x
    · rwa [if_pos hlisted]
    · rw [if_neg hlisted, List.count_append, List.count_singleton]
      by_cases hj : i = j
      · subst hj
        rw [List.count_eq_zero.mpr hlisted]
        split <;> omega
      · have hother : ((ValueUse.inst i == ValueUse.inst j) = false) := by simpa using hj
        rw [hother]
        exact hbefore
  · rwa [if_neg hx]

theorem ListsOnce.addPassed (h : d.ListsOnce) (p v : ValueId) : (d.addPassed p v).ListsOnce := by
  intro x j
  unfold DefUse.addPassed push
  rw [usesOf_modify]
  split
  · rw [List.count_append, List.count_singleton]
    exact h x j
  · exact h x j

theorem ListsOnce.addInst (h : d.ListsOnce) (f : Function) (throughCalls : Bool) (i : InstId) :
    (d.addInst f throughCalls i).ListsOnce := by
  unfold DefUse.addInst
  -- dependencies are recorded in a table of their own
  refine List.foldlRecOn _ _ h fun e he v _ => ?_
  exact List.foldlRecOn _ _ (he.addUse i v) fun e he _ _ => he

theorem ListsOnce.addParams (h : d.ListsOnce) (f : Function) (b : BlockId) :
    (d.addParams f b).ListsOnce := by
  unfold DefUse.addParams
  refine List.foldlRecOn _ _ h fun e he q _ => ?_
  refine List.foldlRecOn _ _ he fun e he call _ => ?_
  split
  · exact List.foldlRecOn _ _ he fun e he x _ => he.addPassed x.1 x.2
  · exact he

theorem listsOnce_ofFunction (f : Function) (throughCalls : Bool) :
    (ofFunction f throughCalls).ListsOnce := by
  unfold ofFunction
  refine List.foldlRecOn _ _ ?_ fun d hd l _ => ?_
  · intro v i
    unfold usesOf
    rw [Array.getElem?_replicate]
    split <;> exact Nat.zero_le 1
  · exact (List.foldlRecOn _ _ hd fun e he i _ => he.addInst f throughCalls i).addParams f l.block

end Once

theorem count_usesOf (h : f.WellFormed) (hd : f.Defined) (i : InstId) :
    ((ofFunction f throughCalls).usesOf v).count (.inst i) =
      if i ∈ f.layoutInsts ∧ v ∈ f.args i then 1 else 0 := by
  split
  · rename_i huse
    have hmem : .inst i ∈ (ofFunction f throughCalls).usesOf v :=
      (mem_usesOf h).mpr ⟨hd.args_lt i huse.1 v huse.2, Or.inl ⟨i, huse.1, huse.2, rfl⟩⟩
    exact Nat.le_antisymm (listsOnce_ofFunction f throughCalls v i) (List.count_pos_iff.mpr hmem)
  · rename_i hnot
    refine List.count_eq_zero.mpr fun hmem => hnot ?_
    rcases ((mem_usesOf h).mp hmem).2 with ⟨j, hj, hv, hsame⟩ | ⟨p, hp, -⟩
    · cases hsame
      exact ⟨hj, hv⟩
    · cases hp

theorem param_mem_usesOf (h : f.WellFormed) (hd : f.Defined) {p : ValueId} :
    .param p ∈ (ofFunction f throughCalls).usesOf v ↔ f.Passes v p := by
  rw [mem_usesOf h]
  constructor
  · rintro ⟨-, ⟨i, -, -, hi⟩ | ⟨q, hq, hpasses⟩⟩
    · cases hi
    · cases hq
      exact hpasses
  · intro hpasses
    exact ⟨hd.lt_of_passes h hpasses, Or.inr ⟨p, rfl, hpasses⟩⟩

/-- A value depends on another because an instruction makes it from that one, or because a branch
passes that one for it. -/
theorem mem_dependenciesOf_iff (h : f.WellFormed) (hd : f.Defined) :
    v ∈ (ofFunction f throughCalls).dependenciesOf w ↔
      (∃ i ∈ f.layoutInsts, v ∈ f.args i ∧ w ∈ f.results i ∧
        (throughCalls = true ∨ (f.opcode i).isCall = false)) ∨ f.Passes v w := by
  rw [mem_dependenciesOf h, and_iff_right_iff_imp]
  rintro (⟨i, hi, -, hw, -⟩ | hpasses)
  · exact Function.lt_of_definition? (hd.results_defined i hi w hw)
  · obtain ⟨b, hparam⟩ := hd.passes_defined hpasses
    exact Function.lt_of_definition? hparam

/-- What depends on a value: the first results of the instructions that have it as an operand, and
the parameters that it is passed for. -/
theorem mem_dependentsOf_iff (h : f.WellFormed) (hd : f.Defined) :
    w ∈ (ofFunction f throughCalls).dependentsOf f v ↔
      (∃ i ∈ f.layoutInsts, v ∈ f.args i ∧ f.firstResult? i = some w ∧
        (throughCalls = true ∨ (f.opcode i).isCall = false)) ∨ f.Passes v w := by
  unfold dependentsOf
  rw [List.mem_filterMap]
  constructor
  · rintro ⟨u, hu, hw⟩
    rcases ((mem_usesOf h).mp hu).2 with ⟨i, hi, hv, rfl⟩ | ⟨p, rfl, hpasses⟩
    · obtain ⟨hr, hdep⟩ := Option.filter_eq_some_iff.mp hw
      have hcall := (hd.mem_dependenciesOf_firstResult h throughCalls hi hr).mp (by simpa using hdep)
      exact Or.inl ⟨i, hi, hv, hr, hcall.2⟩
    · cases Option.some_inj.mp hw
      exact Or.inr hpasses
  · rintro (⟨i, hi, hv, hr, hcall⟩ | hpasses)
    · refine ⟨.inst i, (mem_usesOf h).mpr ⟨hd.args_lt i hi v hv, Or.inl ⟨i, hi, hv, rfl⟩⟩, ?_⟩
      have hdep := (hd.mem_dependenciesOf_firstResult h throughCalls hi hr).mpr ⟨hv, hcall⟩
      simp [dependent?, hr, hdep]
    · exact ⟨.param w, (param_mem_usesOf h hd).mpr hpasses, rfl⟩

theorem mem_dependentsOf_iff_mem_dependenciesOf (h : f.WellFormed) (hd : f.Defined) :
    w ∈ (ofFunction f throughCalls).dependentsOf f v ↔
      v ∈ (ofFunction f throughCalls).dependenciesOf w ∧
        ∀ i ∈ f.layoutInsts, w ∈ f.results i → f.firstResult? i = some w := by
  rw [mem_dependentsOf_iff h hd, mem_dependenciesOf_iff h hd]
  constructor
  · rintro (⟨i, hi, hv, hr, hcall⟩ | hpasses)
    · refine ⟨Or.inl ⟨i, hi, hv, List.mem_of_mem_head? hr, hcall⟩, fun j hj hw => ?_⟩
      have hdefined := hd.results_defined j hj w hw
      rw [hd.firstResult?_defined hi hr] at hdefined
      cases hdefined
      exact hr
    · refine ⟨Or.inr hpasses, fun j hj hw => ?_⟩
      obtain ⟨b, hparam⟩ := hd.passes_defined hpasses
      rw [hd.results_defined j hj w hw] at hparam
      cases hparam
  · rintro ⟨⟨i, hi, hv, hw, hcall⟩ | hpasses, hfirst⟩
    · exact Or.inl ⟨i, hi, hv, hfirst i hi hw, hcall⟩
    · exact Or.inr hpasses

/-- The table says of a function exactly what is to be said.  An instruction of the layout is listed
once for each of its operands, a parameter wherever a branch passes a value for it.  A value depends
on what it is made from and on what is passed for it, and the values that depend on one are those
that have it among their dependencies, the further results of instructions left out. -/
theorem ofFunction_exact (f : Function) (h : f.WellFormed) (hd : f.Defined) (throughCalls : Bool)
    (v w : ValueId) :
    (∀ i, ((ofFunction f throughCalls).usesOf v).count (.inst i) =
        if i ∈ f.layoutInsts ∧ v ∈ f.args i then 1 else 0) ∧
      (∀ p, .param p ∈ (ofFunction f throughCalls).usesOf v ↔ f.Passes v p) ∧
      (v ∈ (ofFunction f throughCalls).dependenciesOf w ↔
        (∃ i ∈ f.layoutInsts, v ∈ f.args i ∧ w ∈ f.results i ∧
          (throughCalls = true ∨ (f.opcode i).isCall = false)) ∨ f.Passes v w) ∧
      (w ∈ (ofFunction f throughCalls).dependentsOf f v ↔
        v ∈ (ofFunction f throughCalls).dependenciesOf w ∧
          ∀ i ∈ f.layoutInsts, w ∈ f.results i → f.firstResult? i = some w) :=
  ⟨count_usesOf h hd, fun _ => param_mem_usesOf h hd, mem_dependenciesOf_iff h hd,
    mem_dependentsOf_iff_mem_dependenciesOf h hd⟩

/-- A value is doubled; one block is named twice by the branch, which passes it the sum or what a
call makes of the sum, as the overflow flag says. -/
def flaggedSum : Function := .build ⟨.numbered 0 0, [], [],
  [⟨[⟨.i64, 1⟩],
    [⟨.uaddOverflow, [0, 0], .none, some ⟨.i64, 1⟩, [⟨.i64, 1⟩, ⟨.i8, 1⟩]⟩,
      ⟨.call, [2], .callee 0, none, [⟨.i64, 1⟩]⟩,
      ⟨.brif, [3], .targets [⟨1, [2]⟩, ⟨1, [4]⟩], some ⟨.i8, 1⟩, []⟩]⟩,
    ⟨[⟨.i64, 1⟩], [⟨.ret, [1], .none, none, []⟩]⟩], none⟩

/-- The doubled value is used once, the sum depends on it, and without dependencies through calls
the branch alone leads on from the sum. -/
theorem ofFunction_flaggedSum :
    flaggedSum.WellFormed ∧ flaggedSum.Defined ∧
      ((ofFunction flaggedSum false).usesOf 0).count (.inst 0) = 1 ∧
      2 ∈ (ofFunction flaggedSum false).dependentsOf flaggedSum 0 ∧
      (.param 1 ∈ (ofFunction flaggedSum false).usesOf 2 ∧
        .param 1 ∈ (ofFunction flaggedSum false).usesOf 4) ∧
      4 ∉ (ofFunction flaggedSum false).dependentsOf flaggedSum 2 ∧
      4 ∈ (ofFunction flaggedSum true).dependentsOf flaggedSum 2 := by
  have h : flaggedSum.WellFormed := Function.build_wellFormed (by decide)
  have hd : flaggedSum.Defined := Function.build_defined (by decide)
  obtain ⟨hcount, -, hdeps, hdependents⟩ := ofFunction_exact flaggedSum h hd false 0 2
  obtain ⟨-, hsum, -, hdependents'⟩ := ofFunction_exact flaggedSum h hd false 2 4
  obtain ⟨-, hcalled, -⟩ := ofFunction_exact flaggedSum h hd false 4 1
  obtain ⟨-, -, hdeps'', hdependents''⟩ := ofFunction_exact flaggedSum h hd true 2 4
  have hpasses : flaggedSum.Passes 2 1 := ⟨0, 2, ⟨1, [2]⟩, by decide +kernel⟩
  have hpasses' : flaggedSum.Passes 4 1 := ⟨0, 2, ⟨1, [4]⟩, by decide +kernel⟩
  refine ⟨h, hd, (hcount 0).trans (if_pos (by decide +kernel)), ?_,
    ⟨(hsum 1).mpr hpasses, (hcalled 1).mpr hpasses'⟩, ?_, ?_⟩
  · exact hdependents.mpr ⟨hdeps.mpr (Or.inl ⟨0, by decide +kernel⟩), by decide +kernel⟩
  · exact fun hmem => absurd (hdependents'.mp hmem).1 (by decide +kernel)
  · exact hdependents''.mpr ⟨hdeps''.mpr (Or.inl ⟨1, by decide +kernel⟩), by decide +kernel⟩

/-- The overflow flag of a sum depends on the summand, which knows only of the sum. -/
theorem dependents_flaggedSum :
    0 ∈ (ofFunction flaggedSum false).dependenciesOf 3 ∧
      (ofFunction flaggedSum false).dependentsOf flaggedSum 0 = [2] ∧
      ¬ ∀ v w, w ∈ (ofFunction flaggedSum false).dependentsOf flaggedSum v ↔
        v ∈ (ofFunction flaggedSum false).dependenciesOf w := by
  have hflag : 0 ∈ (ofFunction flaggedSum false).dependenciesOf 3 := by decide +kernel
  have hsum : (ofFunction flaggedSum false).dependentsOf flaggedSum 0 = [2] := by decide +kernel
  refine ⟨hflag, hsum, fun hall => ?_⟩
  have hmem := (hall 0 3).mpr hflag
  rw [hsum] at hmem
  exact absurd hmem (by decide)

end DefUse

end SpecFence
