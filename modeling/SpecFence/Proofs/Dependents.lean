import SpecFence.Proofs.Leaks
import SpecFence.Proofs.Rounds

/-!
# Values that depend on loads

A value depends on a load if it is what a load loaded, or if an operator or a branch makes it from
such a value.  The rounds of the taint analysis find exactly these values.
-/

set_option autoImplicit false

namespace SpecFence

namespace Function

variable {f : Function} {table : IntrinsicTable}

/-- A value is computed from what a load loaded. -/
inductive DependsOnLoad (f : Function) (table : IntrinsicTable) : ValueId → Prop
  | loaded {i : InstId} {r : ValueId} (hi : i ∈ f.layoutInsts)
      (hrule : TaintRule.of f table i = .ok (.policy .load)) (hr : f.firstResult? i = some r) :
      DependsOnLoad f table r
  | operated {i : InstId} {rule : TaintRule} {v r : ValueId} (hi : i ∈ f.layoutInsts)
      (hrule : TaintRule.of f table i = .ok rule) (hoperator : rule.isOperator = true)
      (hv : v ∈ f.args i) (hr : f.firstResult? i = some r) (hrest : DependsOnLoad f table v) :
      DependsOnLoad f table r
  | passed {v p : ValueId} (hp : f.Passes v p) (hrest : DependsOnLoad f table v) :
      DependsOnLoad f table p

theorem mem_layoutParams_of_passes {v p : ValueId} (h : f.Passes v p) : p ∈ f.layoutParams := by
  obtain ⟨a, i, call, -, -, -, hblock, hmem⟩ := h
  exact List.mem_flatMap.mpr ⟨call.block, hblock, (List.of_mem_zip hmem).1⟩

theorem Defined.param (hd : f.Defined) {p : ValueId} (hp : p ∈ f.layoutParams) :
    ∃ b, f.definition? p = some (.param b) := by
  obtain ⟨b, hb, hmem⟩ := List.mem_flatMap.mp hp
  exact ⟨b, hd.params_defined b hb p hmem⟩

theorem mem_dependenciesOf_param (h : f.WellFormed) (hd : f.Defined) {v p : ValueId}
    (hp : p ∈ f.layoutParams) :
    v ∈ (DefUse.ofFunction f false).dependenciesOf p ↔ f.Passes v p := by
  obtain ⟨b, hb⟩ := hd.param hp
  rw [DefUse.mem_dependenciesOf h]
  constructor
  · rintro ⟨-, ⟨i, hi, -, hmem, -⟩ | hpasses⟩
    · have hresult := hd.results_defined i hi p hmem
      rw [hb] at hresult
      cases hresult
    · exact hpasses
  · intro hpasses
    exact ⟨lt_of_definition? hb, Or.inr hpasses⟩

end Function

/-- What the analyses read of a function, with its uses and dependencies read off the function. -/
def TaintInput.ofFunction (f : Function) (table : IntrinsicTable) (oracle : AliasOracle) :
    TaintInput :=
  ⟨f, table, .ofFunction f false, oracle⟩

namespace SpeculativeTaint

variable {f : Function} {table : IntrinsicTable} {oracle : AliasOracle}
  {rules : List (InstId × TaintRule)}

theorem mem_dependentRound (h : f.WellFormed) (hd : f.Defined) {known : AscSet ValueId}
    {v : ValueId} :
    v ∈ dependentRound (.ofFunction f table oracle) rules known ↔
      (∃ x ∈ known, f.Passes x v) ∨ ∃ i rule, (i, rule) ∈ rules ∧ f.firstResult? i = some v ∧
        (rule = .policy .load ∨ rule.isOperator = true ∧ ∃ x ∈ f.args i, x ∈ known) := by
  unfold dependentRound
  rw [AscSet.mem_ofList, List.mem_append, List.mem_filter, List.mem_filterMap]
  refine or_congr ?_ ?_
  · simp only [List.any_eq_true, decide_eq_true_eq]
    constructor
    · rintro ⟨hp, x, hx, hknown⟩
      exact ⟨x, hknown, (Function.mem_dependenciesOf_param h hd hp).mp hx⟩
    · rintro ⟨x, hknown, hpasses⟩
      have hp := Function.mem_layoutParams_of_passes hpasses
      exact ⟨hp, x, (Function.mem_dependenciesOf_param h hd hp).mpr hpasses, hknown⟩
  · simp only [Prod.exists, Option.ite_none_right_eq_some, List.any_eq_true, decide_eq_true_eq]
    exact exists_congr fun i => exists_congr fun rule => and_congr_right fun _ => and_comm

theorem lt_of_mem_dependentRound (h : f.WellFormed) (hd : f.Defined)
    (hrules : ∀ i rule, (i, rule) ∈ rules ↔
      i ∈ f.layoutInsts ∧ TaintRule.of f table i = .ok rule) {known : AscSet ValueId} {v : ValueId}
    (hv : v ∈ dependentRound (.ofFunction f table oracle) rules known) : v < f.values.size := by
  rcases (mem_dependentRound h hd).mp hv with ⟨x, -, hpasses⟩ | ⟨i, rule, hmem, hr, -⟩
  · obtain ⟨b, hb⟩ := hd.param (Function.mem_layoutParams_of_passes hpasses)
    exact Function.lt_of_definition? hb
  · have hi := ((hrules i rule).mp hmem).1
    exact Function.lt_of_definition? (hd.results_defined i hi v (List.mem_of_mem_head? hr))

theorem dependentRound_mono (h : f.WellFormed) (hd : f.Defined) (x y : AscSet ValueId)
    (hxy : ∀ v, v ∈ x → v ∈ y) (v : ValueId)
    (hv : v ∈ dependentRound (.ofFunction f table oracle) rules x) :
    v ∈ dependentRound (.ofFunction f table oracle) rules y := by
  refine (mem_dependentRound h hd).mpr ?_
  rcases (mem_dependentRound h hd).mp hv with
    ⟨u, hu, hpasses⟩ | ⟨i, rule, hmem, hr, hload | ⟨hoperator, u, harg, hu⟩⟩
  · exact .inl ⟨u, hxy u hu, hpasses⟩
  · exact .inr ⟨i, rule, hmem, hr, .inl hload⟩
  · exact .inr ⟨i, rule, hmem, hr, .inr ⟨hoperator, u, harg, hxy u hu⟩⟩

theorem converges_dependentValues (h : f.WellFormed) (hd : f.Defined)
    (hrules : ∀ i rule, (i, rule) ∈ rules ↔
      i ∈ f.layoutInsts ∧ TaintRule.of f table i = .ok rule) :
    Converges (dependentRound (.ofFunction f table oracle) rules) (fun known v => v ∈ known) .empty
      f.values.size (dependentValues (.ofFunction f table oracle) rules) := by
  have hremakes : Remakes (dependentRound (.ofFunction f table oracle) rules)
      (fun known v => v ∈ known) (List.range f.values.size)
      fun known => ∀ v ∈ known, v < f.values.size := by
    constructor
    case good => exact fun known _ v => lt_of_mem_dependentRound h hd hrules
    case mono => exact fun x y _ _ => dependentRound_mono h hd x y
    case bound => exact fun known hlt v hv => List.mem_range.mpr (hlt v hv)
    case ext => exact fun known _ hless hmore => AscSet.ext fun v => ⟨hless v, hmore v⟩
  rw [← List.length_range (n := f.values.size)]
  refine hremakes.converges (dependentRound_mono h hd) ?_ AscSet.not_mem_empty ?_
  · exact fun v hv => absurd hv (AscSet.not_mem_empty v)
  · rw [List.length_range]
    exact Nat.le_succ _

theorem mem_dependentValues_iff (h : f.WellFormed) (hd : f.Defined)
    (hrules : ∀ i rule, (i, rule) ∈ rules ↔
      i ∈ f.layoutInsts ∧ TaintRule.of f table i = .ok rule) {v : ValueId} :
    v ∈ dependentValues (.ofFunction f table oracle) rules ↔ f.DependsOnLoad table v := by
  constructor
  · have hall : ∀ x ∈ dependentValues (.ofFunction f table oracle) rules,
        f.DependsOnLoad table x := by
      apply fixpoint_induction
        (P := fun known : AscSet ValueId => ∀ x ∈ known, f.DependsOnLoad table x)
      · intro known ih x hx
        rcases (mem_dependentRound h hd).mp hx with
          ⟨u, hu, hpasses⟩ | ⟨i, rule, hmem, hr, rfl | ⟨hoperator, u, harg, hu⟩⟩
        · exact .passed hpasses (ih u hu)
        · obtain ⟨hi, hrule⟩ := (hrules i _).mp hmem
          exact .loaded hi hrule hr
        · obtain ⟨hi, hrule⟩ := (hrules i rule).mp hmem
          exact .operated hi hrule hoperator harg hr (ih u hu)
      · exact fun x hx => absurd hx (AscSet.not_mem_empty x)
    exact hall v
  · have hfixed : dependentRound (.ofFunction f table oracle) rules
        (dependentValues (.ofFunction f table oracle) rules) =
          dependentValues (.ofFunction f table oracle) rules :=
      (converges_dependentValues h hd hrules).fixed
    intro hdepends
    induction hdepends with
    | @loaded i r hi hrule hr =>
      rw [← hfixed]
      exact (mem_dependentRound h hd).mpr
        (.inr ⟨i, _, (hrules i _).mpr ⟨hi, hrule⟩, hr, .inl rfl⟩)
    | @operated i rule x r hi hrule hoperator hx hr _ ih =>
      rw [← hfixed]
      exact (mem_dependentRound h hd).mpr
        (.inr ⟨i, rule, (hrules i rule).mpr ⟨hi, hrule⟩, hr, .inr ⟨hoperator, x, hx, ih⟩⟩)
    | @passed x p hpasses _ ih =>
      rw [← hfixed]
      exact (mem_dependentRound h hd).mpr (.inl ⟨x, ih, hpasses⟩)

end SpeculativeTaint

end SpecFence
