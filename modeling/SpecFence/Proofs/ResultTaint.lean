import SpecFence.Proofs.Precision

/-!
# Taint of results

What the analysis finds for the results of one instruction.  Both of its parts make the same cases:
the first result of a load or an operator may be tainted, and further results have nothing, so that
a second result computed from tainted operands is not tainted.  Since a load starts dependency on
loads and every origin is a reader whose address has such a dependency, taint only spreads among
values that depend on a load.
-/

set_option autoImplicit false

namespace SpecFence

variable {f : Function} {table : IntrinsicTable} {oracle : AliasOracle}

section Rules

theorem Opcode.valuePolicy_eq_load_iff {o : Opcode} : o.valuePolicy = .load ↔
    (o.format = .load ∨ o = .atomicLoad) ∨ o = .stackLoad ∨ o = .dynamicStackLoad := by
  cases o <;> decide

theorem TaintRule.of_eq_load_iff {i : InstId} :
    TaintRule.of f table i = .ok (.policy .load) ↔ (f.opcode i).valuePolicy = .load := by
  unfold TaintRule.of
  split
  · rename_i hpolicy
    simp [hpolicy]
  · rename_i hpolicy
    cases table.calledBy? f i with
    | none => simp [hpolicy]
    | some called =>
      by_cases hinvalid : called.taint = .invalid
      · simp [hpolicy, hinvalid]
      · simp [hpolicy, hinvalid]
  · simp

theorem TaintRule.of_eq_memoryCopy_iff {i : InstId} :
    TaintRule.of f table i = .ok (.intrinsic .memoryCopy) ↔
      table.calledBy? f i = some .memcpy ∨ table.calledBy? f i = some .memmove := by
  constructor
  · intro hrule
    unfold TaintRule.of at hrule
    split at hrule
    · cases hrule
    · cases hcalled : table.calledBy? f i with
      | none => simp [hcalled] at hrule
      | some called =>
        rw [hcalled] at hrule
        cases called <;> simp [Intrinsic.taint] at hrule ⊢
    · cases hrule
  · intro hcalled
    have hpolicy : (f.opcode i).valuePolicy = .call := by
      rcases hcalled with hcalled | hcalled
      all_goals exact valuePolicy_of_format_call (format_of_calledBy? hcalled)
    rcases hcalled with hcalled | hcalled
    all_goals simp [TaintRule.of, hpolicy, hcalled, Intrinsic.taint]

end Rules

/-- A load gives its result an origin: itself, if its address depends on a load, or else what some
instruction writes that it may read. -/
def TaintInput.Loads (input : TaintInput) (i o : InstId) : Prop :=
  (∃ a, input.function.loadAddress? i = some a ∧ input.function.DependsOnLoad input.table a ∧
      o = i) ∨
    ((∀ a, input.function.loadAddress? i = some a →
        ¬ input.function.DependsOnLoad input.table a) ∧
      ∃ w, input.MayRead i w ∧ input.Carries (input.function.writtenData input.table w) o)

section Results

variable {i : InstId} {r : ValueId} {rule : TaintRule}

theorem Function.Defined.rule_unique (hd : f.Defined) (hi : i ∈ f.layoutInsts)
    (hr : r ∈ f.results i) (hrule : TaintRule.of f table i = .ok rule) {j : InstId}
    {other : TaintRule} (hj : j ∈ f.layoutInsts) (hother : TaintRule.of f table j = .ok other)
    (hjr : f.firstResult? j = some r) : j = i ∧ other = rule := by
  have hdefined := hd.results_defined i hi r hr
  rw [hd.firstResult?_defined hj hjr] at hdefined
  cases hdefined
  exact ⟨rfl, Except.ok.inj (hother.symm.trans hrule)⟩

theorem Function.Defined.not_passes (hd : f.Defined) (hi : i ∈ f.layoutInsts)
    (hr : r ∈ f.results i) {v : ValueId} : ¬ f.Passes v r := by
  intro hpasses
  obtain ⟨b, hb⟩ := hd.passes_defined hpasses
  rw [hd.results_defined i hi r hr] at hb
  cases hb

variable (hd : f.Defined) (hi : i ∈ f.layoutInsts) (hr : r ∈ f.results i)
  (hrule : TaintRule.of f table i = .ok rule)
include hd hi hr hrule

/-- A result depends on a load if it is the first one of a load or of an operator with an operand
that depends on a load. -/
theorem dependsOnLoad_result_iff :
    f.DependsOnLoad table r ↔ f.firstResult? i = some r ∧ (rule = .policy .load ∨
      (rule.isOperator = true ∧ ∃ v ∈ f.args i, f.DependsOnLoad table v)) := by
  constructor
  · intro hdepends
    cases hdepends with
    | loaded hj hload hjr =>
      obtain ⟨rfl, rfl⟩ := hd.rule_unique hi hr hrule hj hload hjr
      exact ⟨hjr, .inl rfl⟩
    | operated hj hother hoperator hv hjr hrest =>
      obtain ⟨rfl, rfl⟩ := hd.rule_unique hi hr hrule hj hother hjr
      exact ⟨hjr, .inr ⟨hoperator, _, hv, hrest⟩⟩
    | passed hp _ => exact absurd hp (hd.not_passes hi hr)
  · rintro ⟨hfirst, rfl | ⟨hoperator, v, hv, hrest⟩⟩
    · exact .loaded hi hrule hfirst
    · exact .operated hi hrule hoperator hv hfirst hrest

/-- The origins of a result are those that a load gives to its first result and an operator takes
from its operands. -/
theorem carries_result_iff {o : InstId} :
    (TaintInput.ofFunction f table oracle).Carries (.value r) o ↔ f.firstResult? i = some r ∧
      ((rule = .policy .load ∧ (TaintInput.ofFunction f table oracle).Loads i o) ∨
        (rule.isOperator = true ∧
          ∃ v ∈ f.args i, (TaintInput.ofFunction f table oracle).Carries (.value v) o)) := by
  constructor
  · intro hcarries
    cases hcarries with
    | origin hj hother hfilled haddress hdepends =>
      obtain ⟨rfl, hjr⟩ := SpeculativeTaint.load_of_filled? hfilled
      obtain ⟨rfl, rfl⟩ := hd.rule_unique hi hr hrule hj hother hjr
      exact ⟨hjr, .inl ⟨rfl, .inl ⟨_, haddress, hdepends, rfl⟩⟩⟩
    | read hj hother hfilled hplain hread hrest =>
      obtain ⟨rfl, hjr⟩ := SpeculativeTaint.load_of_filled? hfilled
      obtain ⟨rfl, rfl⟩ := hd.rule_unique hi hr hrule hj hother hjr
      exact ⟨hjr, .inl ⟨rfl, .inr ⟨hplain, _, hread, hrest⟩⟩⟩
    | operated hj hother hoperator hv hjr hrest =>
      obtain ⟨rfl, rfl⟩ := hd.rule_unique hi hr hrule hj hother hjr
      exact ⟨hjr, .inr ⟨hoperator, _, hv, hrest⟩⟩
    | passed hp _ => exact absurd hp (hd.not_passes hi hr)
  · rintro ⟨hfirst, ⟨rfl, hloads⟩ | ⟨hoperator, v, hv, hrest⟩⟩
    · have hfilled : f.filled? (.policy .load) i = some (.value r) :=
        Option.map_eq_some_iff.mpr ⟨r, hfirst, rfl⟩
      rcases hloads with ⟨a, haddress, hdepends, rfl⟩ | ⟨hplain, w, hread, hrest⟩
      · exact .origin hi hrule hfilled haddress hdepends
      · exact .read hi hrule hfilled hplain hread hrest
    · exact .operated hi hrule hoperator hv hfirst hrest

end Results

section Invariants

/-- Only values that depend on a load have origins: a load starts such dependency, and operators and
branches hand on both. -/
theorem dependsOnLoad_of_carries {v : ValueId} {o : InstId}
    (hcarries : (TaintInput.ofFunction f table oracle).Carries (.value v) o) :
    f.DependsOnLoad table v := by
  generalize hplace : DataPlace.value v = place at hcarries
  induction hcarries generalizing v with
  | origin hi hrule hfilled _ _ =>
    subst hplace
    obtain ⟨rfl, hr⟩ := SpeculativeTaint.load_of_filled? hfilled
    exact .loaded hi hrule hr
  | read hi hrule hfilled _ _ _ _ =>
    subst hplace
    obtain ⟨rfl, hr⟩ := SpeculativeTaint.load_of_filled? hfilled
    exact .loaded hi hrule hr
  | operated hi hrule hoperator hv hr _ ih =>
    cases hplace
    exact .operated hi hrule hoperator hv hr (ih rfl)
  | passed hp _ ih =>
    cases hplace
    exact .passed hp (ih rfl)

def Function.ReadsAt (f : Function) (table : IntrinsicTable) (i : InstId) (a : ValueId) : Prop :=
  ((f.opcode i).valuePolicy = .load ∧ f.loadAddress? i = some a) ∨
    ((table.calledBy? f i = some .memcpy ∨ table.calledBy? f i = some .memmove) ∧
      (f.args i)[1]? = some a)

theorem exists_address_of_carries {place : DataPlace} {o : InstId}
    (hcarries : (TaintInput.ofFunction f table oracle).Carries place o) :
    o ∈ f.layoutInsts ∧ ∃ a, f.ReadsAt table o a ∧ f.DependsOnLoad table a := by
  induction hcarries with
  | @origin i rule place a hi hrule _ haddress hdepends =>
    refine ⟨hi, a, ?_, hdepends⟩
    change TaintRule.of f table i = .ok rule at hrule
    change f.sourceAddress? rule i = some a at haddress
    unfold Function.sourceAddress? at haddress
    split at haddress
    · exact .inl ⟨TaintRule.of_eq_load_iff.mp hrule, haddress⟩
    · exact .inr ⟨TaintRule.of_eq_memoryCopy_iff.mp hrule, haddress⟩
    · cases haddress
  | read _ _ _ _ _ _ ih => exact ih
  | operated _ _ _ _ _ _ ih => exact ih
  | passed _ _ ih => exact ih

theorem valuePolicy_of_loadAddress? {i : InstId} {a : ValueId} (h : f.loadAddress? i = some a) :
    (f.opcode i).valuePolicy = .load := by
  unfold Function.loadAddress? at h
  split at h
  · exact Opcode.valuePolicy_eq_load_iff.mpr (.inl ‹_›)
  · cases h

end Invariants

namespace SpeculativeTaint

variable (h : f.WellFormed) (hd : f.Defined) {taint : SpeculativeTaint}
  (hok : compute (.ofFunction f table oracle) = .ok taint)
include h hd hok

theorem mem_addressDependent_iff {v : ValueId} :
    v ∈ taint.addressDependent ↔ f.DependsOnLoad table v := by
  obtain ⟨rules, hrules, hok⟩ := Except.bind_eq_ok_iff.mp hok
  rw [Except.pure_eq_ok_iff] at hok
  rw [← hok]
  exact mem_dependentValues_iff h hd (taintRules_eq_ok hrules).2

theorem mem_originsOf_iff_carries {v : ValueId} {o : InstId} : o ∈ taint.originsOf v ↔
    (TaintInput.ofFunction f table oracle).Carries (.value v) o := by
  obtain ⟨rules, hrules, -⟩ := Except.bind_eq_ok_iff.mp hok
  have hmem := (taintRules_eq_ok hrules).2
  have hdependent : ∀ v, v ∈ dependentValues (.ofFunction f table oracle) rules ↔
      f.DependsOnLoad table v := fun v => mem_dependentValues_iff h hd hmem
  rw [mem_originsOf_compute h hd hrules hok]
  constructor
  · rintro ⟨hv, hholds⟩
    have hcarries := carries_of_holds hd hmem h hdependent hholds
    rwa [placeOf_value hv] at hcarries
  · intro hcarries
    exact ⟨lt_of_carries hd hcarries, holds_of_carries hd hmem h hdependent hcarries⟩

theorem mem_originsOf_load_iff {i o : InstId} {r : ValueId} (hi : i ∈ f.layoutInsts)
    (hload : (f.opcode i).valuePolicy = .load) (hr : f.firstResult? i = some r) :
    o ∈ taint.originsOf r ↔ (TaintInput.ofFunction f table oracle).Loads i o := by
  rw [mem_originsOf_iff_carries h hd hok, carries_result_iff hd hi (List.mem_of_mem_head? hr)
    (TaintRule.of_eq_load_iff.mpr hload)]
  simp [hr, TaintRule.isOperator]

theorem originsOf_eq_singleton {i : InstId} {a r : ValueId} (hi : i ∈ f.layoutInsts)
    (haddress : f.loadAddress? i = some a) (ha : a ∈ taint.addressDependent)
    (hr : f.firstResult? i = some r) : taint.originsOf r = .singleton i := by
  refine AscSet.ext fun o => ?_
  rw [AscSet.mem_singleton, mem_originsOf_iff_carries h hd hok]
  exact carries_load_iff hd hi (TaintRule.of_eq_load_iff.mpr (valuePolicy_of_loadAddress? haddress))
    haddress ((mem_addressDependent_iff h hd hok).mp ha) hr

omit h hd hok in
theorem isTainted_iff {v : ValueId} : taint.isTainted v = true ↔ ∃ o, o ∈ taint.originsOf v := by
  unfold isTainted
  rw [Bool.not_eq_true', Bool.eq_false_iff, ne_eq, AscSet.isEmpty_iff]
  push Not
  rfl

end SpeculativeTaint

/-- A result has the taint of the operands of its instruction: the union of their origins, and
dependency on a load if one of them depends on one. -/
structure SpeculativeTaint.Collects (taint : SpeculativeTaint) (f : Function) (i : InstId)
    (r : ValueId) : Prop where
  origins : ∀ o, o ∈ taint.originsOf r ↔ ∃ v ∈ f.args i, o ∈ taint.originsOf v
  dependent : r ∈ taint.addressDependent ↔ ∃ v ∈ f.args i, v ∈ taint.addressDependent

namespace SpeculativeTaint

/-- A result of an operator has the taint of the operands exactly if it is the first result or if no
operand depends on a load.  Further results are never tainted and never depend on a load. -/
theorem first_result_collects (f : Function) (h : f.WellFormed) (hd : f.Defined)
    (table : IntrinsicTable) (oracle : AliasOracle) (taint : SpeculativeTaint)
    (hok : compute (.ofFunction f table oracle) = .ok taint) :
    ∀ i ∈ f.layoutInsts, ∀ rule, TaintRule.of f table i = .ok rule → rule.isOperator = true →
      ∀ r ∈ f.results i,
        (taint.Collects f i r ↔
          f.firstResult? i = some r ∨ ∀ v ∈ f.args i, v ∉ taint.addressDependent) ∧
        (f.firstResult? i ≠ some r →
          taint.originsOf r = .empty ∧ r ∉ taint.addressDependent) := by
  intro i hi rule hrule hoperator r hr
  have hload : rule ≠ .policy .load := by
    rintro rfl
    cases hoperator
  have hdependent : r ∈ taint.addressDependent ↔ f.firstResult? i = some r ∧
      ∃ v ∈ f.args i, v ∈ taint.addressDependent := by
    simp only [mem_addressDependent_iff h hd hok]
    simpa [hload, hoperator] using dependsOnLoad_result_iff hd hi hr hrule
  have horigins : ∀ o, o ∈ taint.originsOf r ↔ f.firstResult? i = some r ∧
      ∃ v ∈ f.args i, o ∈ taint.originsOf v := by
    intro o
    simp only [mem_originsOf_iff_carries h hd hok]
    simpa [hload, hoperator] using carries_result_iff hd hi hr hrule
  refine ⟨⟨?_, ?_⟩, ?_⟩
  · intro hcollects
    by_contra hneither
    obtain ⟨hother, hsome⟩ := not_or.mp hneither
    push Not at hsome
    exact hother (hdependent.mp (hcollects.dependent.mpr hsome)).1
  · rintro (hfirst | hnone)
    · exact ⟨fun o => by simpa [hfirst] using horigins o, by simpa [hfirst] using hdependent⟩
    · -- operands that do not depend on a load have no origins either
      have hclean : ∀ o, ¬ ∃ v ∈ f.args i, o ∈ taint.originsOf v := by
        rintro o ⟨v, hv, ho⟩
        refine hnone v hv ((mem_addressDependent_iff h hd hok).mpr ?_)
        exact dependsOnLoad_of_carries ((mem_originsOf_iff_carries h hd hok).mp ho)
      constructor
      · exact fun o => iff_of_false (fun ho => hclean o ((horigins o).mp ho).2) (hclean o)
      · have hfree : ¬ ∃ v ∈ f.args i, v ∈ taint.addressDependent :=
          fun ⟨v, hv, hdep⟩ => hnone v hv hdep
        exact iff_of_false (fun hdep => hfree (hdependent.mp hdep).2) hfree
  · intro hother
    refine ⟨AscSet.ext fun o => iff_of_false ?_ (AscSet.not_mem_empty o), ?_⟩
    · exact fun ho => hother ((horigins o).mp ho).1
    · exact fun hdep => hother (hdependent.mp hdep).1

def overflowFlag : Function := .build ⟨.numbered 0 0, [], [],
  [⟨[⟨.i64, 1⟩], [⟨.load, [0], .offset 0, some ⟨.i64, 1⟩, [⟨.i64, 1⟩]⟩,
    ⟨.load, [1], .offset 0, some ⟨.i64, 1⟩, [⟨.i64, 1⟩]⟩,
    ⟨.uaddOverflow, [2, 2], .none, some ⟨.i64, 1⟩, [⟨.i64, 1⟩, ⟨.i8, 1⟩]⟩,
    ⟨.ret, [], .none, none, []⟩]⟩], none⟩

def overflowFlagTaint : SpeculativeTaint :=
  ⟨.ofList [1, 2, 3], #[.empty, .empty, .singleton 1, .singleton 1, .empty]⟩

/-- The sum has the taint of the loaded value. -/
theorem first_result_collects_overflowFlag :
    compute (.ofFunction overflowFlag .empty .basic) = .ok overflowFlagTaint ∧
      overflowFlagTaint.Collects overflowFlag 2 3 ∧ overflowFlagTaint.originsOf 4 = .empty := by
  have hok : compute (.ofFunction overflowFlag .empty .basic) = .ok overflowFlagTaint := by
    decide +kernel
  have hresults := first_result_collects overflowFlag (by decide +kernel) (by decide +kernel) .empty
    .basic overflowFlagTaint hok 2 (by decide +kernel) (.policy .pure) (by decide +kernel) rfl
  obtain ⟨hsum, -⟩ := hresults 3 (by decide +kernel)
  obtain ⟨-, hflag⟩ := hresults 4 (by decide +kernel)
  exact ⟨hok, hsum.mpr (.inl (by decide +kernel)), (hflag (by decide +kernel)).1⟩

/-- The overflow flag of a tainted sum is not tainted. -/
theorem overflowFlag_untainted :
    compute (.ofFunction overflowFlag .empty .basic) = .ok overflowFlagTaint ∧
      TaintRule.of overflowFlag .empty 2 = .ok (.policy .pure) ∧
      overflowFlag.args 2 = [2, 2] ∧ overflowFlagTaint.isTainted 2 = true ∧
      overflowFlag.results 2 = [3, 4] ∧ overflowFlagTaint.isTainted 4 = false ∧
      ¬ overflowFlagTaint.Collects overflowFlag 2 4 := by
  refine ⟨by decide +kernel, by decide +kernel, by decide +kernel, by decide +kernel,
    by decide +kernel, by decide +kernel, ?_⟩
  intro hcollects
  have htainted : 1 ∈ overflowFlagTaint.originsOf 2 := by decide +kernel
  have horigin := (hcollects.origins 1).mpr ⟨2, by decide +kernel, htainted⟩
  exact absurd horigin (by decide +kernel)

/-- Tainted values depend on a load.  Origins are loads, and memory copies, of the layout that read
at an address that depends on a load.  A load whose address is tainted is the only origin of what it
loads, whatever the oracle says. -/
theorem taint_within_dependency (f : Function) (h : f.WellFormed) (hd : f.Defined)
    (table : IntrinsicTable) (oracle : AliasOracle) (taint : SpeculativeTaint)
    (hok : compute (.ofFunction f table oracle) = .ok taint) :
    (∀ v, taint.isTainted v = true → v ∈ taint.addressDependent) ∧
      (∀ v, ∀ o ∈ taint.originsOf v, o ∈ f.layoutInsts ∧
        ∃ a ∈ taint.addressDependent, f.ReadsAt table o a) ∧
      ∀ i ∈ f.layoutInsts, ∀ a r, f.loadAddress? i = some a → taint.isTainted a = true →
        f.firstResult? i = some r → taint.originsOf r = .singleton i := by
  have hdependent : ∀ v, taint.isTainted v = true → v ∈ taint.addressDependent := by
    intro v hv
    obtain ⟨o, ho⟩ := isTainted_iff.mp hv
    have hcarries := (mem_originsOf_iff_carries h hd hok).mp ho
    exact (mem_addressDependent_iff h hd hok).mpr (dependsOnLoad_of_carries hcarries)
  refine ⟨hdependent, ?_, ?_⟩
  · intro v o ho
    obtain ⟨hlaid, a, hreads, ha⟩ :=
      exists_address_of_carries ((mem_originsOf_iff_carries h hd hok).mp ho)
    exact ⟨hlaid, a, (mem_addressDependent_iff h hd hok).mpr ha, hreads⟩
  · intro i hi a r haddress ha hr
    exact originsOf_eq_singleton h hd hok hi haddress (hdependent a ha) hr

/-- A buffer is copied from where a loaded pointer points, and what the buffer then gives as a
pointer is loaded from. -/
def copiedPointer : Function := .build ⟨.numbered 0 0, [], ["buffer"],
  [⟨[⟨.i64, 1⟩, ⟨.i64, 1⟩], [⟨.symbolValue, [], .globalName 0, some ⟨.i64, 1⟩, [⟨.i64, 1⟩]⟩,
    ⟨.load, [0], .offset 0, some ⟨.i64, 1⟩, [⟨.i64, 1⟩]⟩,
    ⟨.call, [2, 3, 1], .callee 0, none, []⟩,
    ⟨.load, [2], .offset 0, some ⟨.i64, 1⟩, [⟨.i64, 1⟩]⟩,
    ⟨.load, [4], .offset 0, some ⟨.i64, 1⟩, [⟨.i64, 1⟩]⟩,
    ⟨.ret, [], .none, none, []⟩]⟩], none⟩

def copiedPointerTaint : SpeculativeTaint :=
  ⟨.ofList [3, 4, 5], #[.empty, .empty, .empty, .singleton 2, .singleton 2, .singleton 4]⟩

def copying : IntrinsicTable := .ofList [(0, .memcpy)]

/-- The copy is an origin by its source, and the last load is its own origin although the copy may
have written what it reads. -/
theorem taint_within_copiedPointer :
    compute (.ofFunction copiedPointer copying (.always .must)) = .ok copiedPointerTaint ∧
      2 ∈ copiedPointerTaint.originsOf 4 ∧
      (∃ a ∈ copiedPointerTaint.addressDependent, copiedPointer.ReadsAt copying 2 a) ∧
      4 ∈ copiedPointerTaint.addressDependent ∧
      copiedPointerTaint.originsOf 5 = .singleton 4 := by
  have hok : compute (.ofFunction copiedPointer copying (.always .must)) =
      .ok copiedPointerTaint := by decide +kernel
  obtain ⟨hdependent, horigins, hloads⟩ := taint_within_dependency copiedPointer (by decide +kernel)
    (by decide +kernel) _ _ _ hok
  have horigin : 2 ∈ copiedPointerTaint.originsOf 4 := by decide +kernel
  have htainted : copiedPointerTaint.isTainted 4 = true := by decide +kernel
  exact ⟨hok, horigin, (horigins 4 2 horigin).2, hdependent 4 htainted,
    hloads 4 (by decide +kernel) 4 5 (by decide +kernel) htainted (by decide +kernel)⟩

end SpeculativeTaint

end SpecFence
