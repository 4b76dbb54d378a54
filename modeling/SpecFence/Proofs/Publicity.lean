import SpecFence.Proofs.Dependents
import SpecFence.Taint.Public

/-!
# Public values

A set of values is closed if it has what the program shows by itself and what can be computed from
its members, forwards and backwards, through branches and through memory.  The analysis starts from
what is shown, every round only adds values, and the rounds end at the least closed set.  Of an
operator with several results the rules speak of the first one only, and from no operands at all
nothing follows.
-/

set_option autoImplicit false

namespace SpecFence

namespace Function

/-- The program shows a value by itself: it transmits it always, it is a constant, or an ordinary
call takes or returns it. -/
inductive Shows (f : Function) (table : IntrinsicTable) : ValueId → Prop
  | transmitted {i : InstId} {v : ValueId} {operands : List (ValueId × Transmission)}
      (hi : i ∈ f.layoutInsts) (hoperands : f.transmitters table i = .ok operands)
      (hv : (v, .always) ∈ operands) : Shows f table v
  | constant {i : InstId} {r : ValueId} (hi : i ∈ f.layoutInsts)
      (hrule : TaintRule.of f table i = .ok (.policy .constant)) (hr : r ∈ f.results i) :
      Shows f table r
  | returned {i : InstId} {r : ValueId} (hi : i ∈ f.layoutInsts)
      (hrule : TaintRule.of f table i = .ok (.policy .call)) (hr : r ∈ f.results i) :
      Shows f table r
  | handedOver {i : InstId} {v : ValueId} (hi : i ∈ f.layoutInsts)
      (hrule : TaintRule.of f table i = .ok (.policy .call)) (hv : v ∈ f.args i) : Shows f table v

end Function

def TaintInput.Reloads (input : TaintInput) (loaded stored : ValueId) : Prop :=
  ∃ i w address, i ∈ input.function.layoutInsts ∧ w ∈ input.function.layoutInsts ∧
    TaintRule.of input.function input.table i = .ok (.policy .load) ∧
    input.function.firstResult? i = some loaded ∧
    input.function.storeOperands? w = some (stored, address) ∧
    input.oracle.loadStore input.function input.table i w = .must

/-- A set that has all shown values and whatever follows from its members. -/
structure TaintInput.Closed (input : TaintInput) (known : ValueId → Prop) : Prop where
  shown : ∀ v, input.function.Shows input.table v → known v
  param : ∀ p ∈ input.function.layoutParams, (∃ v, input.function.Passes v p) →
    (∀ v, input.function.Passes v p → known v) → known p
  operated : ∀ i ∈ input.function.layoutInsts, ∀ rule r,
    TaintRule.of input.function input.table i = .ok rule → rule.isOperator = true →
    input.function.firstResult? i = some r → input.function.args i ≠ [] →
    (∀ v ∈ input.function.args i, known v) → known r
  inverted : ∀ i ∈ input.function.layoutInsts, ∀ r,
    (input.function.opcode i).inversePolicy = .invertible →
    input.function.firstResult? i = some r → known r → ∀ v ∈ input.function.args i, known v
  invertedGiven : ∀ i ∈ input.function.layoutInsts, ∀ r x y,
    (input.function.opcode i).inversePolicy = .invertibleGivenOther →
    input.function.firstResult? i = some r → input.function.args i = [x, y] → known r →
    (known x ↔ known y)
  reloaded : ∀ loaded stored, input.Reloads loaded stored → (known loaded ↔ known stored)

section Rules

variable {f : Function} {table : IntrinsicTable}

theorem Opcode.valuePolicy_of_inversePolicy {o : Opcode} (h : o.inversePolicy ≠ .notInvertible) :
    o.valuePolicy = .pure := by
  cases o <;> first | rfl | exact absurd rfl h

theorem TaintRule.of_inversePolicy {i : InstId} {policy : InversePolicy}
    (h : (f.opcode i).inversePolicy = policy) (hpolicy : policy ≠ .notInvertible) :
    TaintRule.of f table i = .ok (.policy .pure) := by
  have hpure := Opcode.valuePolicy_of_inversePolicy (h ▸ hpolicy)
  simp only [TaintRule.of, hpure]

end Rules

namespace Clause

/-- A set has the conclusion of a clause if it has the premises. -/
def Respected (known : ValueId → Prop) (c : Clause) : Prop :=
  (∀ p ∈ c.premises, known p) → known c.conclusion

variable {clauses : List Clause} {facts : AscSet Nat} {known : ValueId → Prop}

theorem derived_least (hfacts : ∀ x ∈ facts, known x) (hclauses : ∀ c ∈ clauses, c.Respected known)
    {x : Nat} (h : Derived clauses facts x) : known x := by
  induction h with
  | given hx => exact hfacts _ hx
  | clause hc _ ih => exact hclauses _ hc ih

theorem respected_derived (c : Clause) (hc : c ∈ clauses) : c.Respected (Derived clauses facts) :=
  fun h => .clause hc h

end Clause

namespace PublicValues

variable {f : Function} {table : IntrinsicTable} {oracle : AliasOracle}
  {rules : List (InstId × TaintRule)} {known : ValueId → Prop}

section Clauses

theorem respected_determines {values : List ValueId} {v : ValueId} :
    (∀ c ∈ determines values v, c.Respected known) ↔
      (values ≠ [] → (∀ x ∈ values, known x) → known v) := by
  cases values with
  | nil => simp [determines]
  | cons x values => simp [determines, Clause.Respected]

theorem respected_inverseClauses {op : Opcode} {r : ValueId} {args : List ValueId} :
    (∀ c ∈ inverseClauses op r args, c.Respected known) ↔
      (op.inversePolicy = .invertible → known r → ∀ v ∈ args, known v) ∧
      (op.inversePolicy = .invertibleGivenOther → ∀ x y, args = [x, y] → known r →
        (known x ↔ known y)) := by
  cases hpolicy : op.inversePolicy with
  | invertible =>
    simp only [inverseClauses, hpolicy, List.mem_map, Clause.Respected]
    constructor
    · intro h
      refine ⟨fun _ hr v hv => ?_, fun hother => nomatch hother⟩
      exact h ⟨[r], v⟩ ⟨v, hv, rfl⟩ fun p hp => by rwa [List.mem_singleton.mp hp]
    · intro ⟨h, _⟩ c hc hpremises
      obtain ⟨v, hv, rfl⟩ := hc
      exact h trivial (hpremises r List.mem_cons_self) v hv
  | invertibleGivenOther =>
    rcases args with _ | ⟨x, _ | ⟨y, _ | ⟨z, rest⟩⟩⟩
    · simp [inverseClauses, hpolicy]
    · simp [inverseClauses, hpolicy]
    · have hclauses : (∀ c ∈ inverseClauses op r [x, y], c.Respected known) ↔
          (known r → known x → known y) ∧ (known r → known y → known x) := by
        simp [inverseClauses, hpolicy, Clause.Respected]
      rw [hclauses]
      constructor
      · rintro ⟨hforward, hback⟩
        refine ⟨nofun, fun _ x' y' hargs hr => ?_⟩
        cases hargs
        exact ⟨hforward hr, hback hr⟩
      · rintro ⟨-, hother⟩
        exact ⟨fun hr => (hother rfl x y rfl hr).mp, fun hr => (hother rfl x y rfl hr).mpr⟩
    · simp [inverseClauses, hpolicy]
  | notInvertible => simp [inverseClauses, hpolicy]

theorem respected_params (h : f.WellFormed) (hd : f.Defined) :
    (∀ c ∈ f.layoutParams.flatMap fun p =>
      determines ((DefUse.ofFunction f false).dependenciesOf p) p, c.Respected known) ↔
      ∀ p ∈ f.layoutParams, (∃ v, f.Passes v p) → (∀ v, f.Passes v p → known v) → known p := by
  simp only [List.forall_mem_flatMap, respected_determines]
  refine forall₂_congr fun p hp => ?_
  have hfed : (DefUse.ofFunction f false).dependenciesOf p ≠ [] ↔ ∃ v, f.Passes v p := by
    simp [List.eq_nil_iff_forall_not_mem, Function.mem_dependenciesOf_param h hd hp]
  simp only [hfed, Function.mem_dependenciesOf_param h hd hp]

theorem respected_instClauses {i : InstId} {rule : TaintRule} :
    (∀ c ∈ instClauses (.ofFunction f table oracle) i rule, c.Respected known) ↔
      ∀ r, f.firstResult? i = some r →
        (rule.isOperator = true → f.args i ≠ [] → (∀ v ∈ f.args i, known v) → known r) ∧
        (rule = .policy .pure →
          ∀ c ∈ inverseClauses (f.opcode i) r (f.args i), c.Respected known) := by
  simp only [instClauses, TaintInput.ofFunction]
  cases f.firstResult? i with
  | none => simp
  | some r =>
    simp only [List.forall_mem_append, Option.some.injEq, forall_eq']
    refine and_congr ?_ ?_
    · by_cases hoperator : rule.isOperator = true
      · simp only [hoperator, if_true, respected_determines, true_implies]
      · simp [hoperator]
    · by_cases hpure : rule = .policy .pure
      · simp only [hpure, if_true, true_implies]
      · simp [hpure]

section Reloads

variable {input : TaintInput}
  (hrules : ∀ i rule, (i, rule) ∈ rules ↔
    i ∈ input.function.layoutInsts ∧ TaintRule.of input.function input.table i = .ok rule)
  (hall : ∀ i ∈ input.function.layoutInsts,
    ∃ rule, TaintRule.of input.function input.table i = .ok rule)

include hrules hall

theorem mem_memoryClauses {c : Clause} :
    c ∈ memoryClauses input rules ↔ ∃ loaded stored, input.Reloads loaded stored ∧
      (c = ⟨[stored], loaded⟩ ∨ c = ⟨[loaded], stored⟩) := by
  simp only [memoryClauses, List.mem_flatMap, List.mem_filterMap, TaintInput.Reloads]
  constructor
  · intro hc
    obtain ⟨i, ⟨⟨i', rule⟩, hmem, hload⟩, ⟨w, rule'⟩, hw, hc⟩ := hc
    have hrule : rule = .policy .load ∧ i' = i := by simpa using hload
    obtain ⟨rfl, rfl⟩ := hrule
    obtain ⟨hi, hrule⟩ := (hrules i' _).mp hmem
    obtain ⟨hw, -⟩ := (hrules w _).mp hw
    split at hc
    · rename_i loaded stored address hr hstore
      rw [List.mem_ite_nil_right] at hc
      exact ⟨loaded, stored, ⟨i', w, address, hi, hw, hrule, hr, hstore, hc.1⟩, by simpa using hc.2⟩
    · cases hc
  · intro hc
    obtain ⟨loaded, stored, ⟨i, w, address, hi, hw, hrule, hr, hstore, hmust⟩, hc⟩ := hc
    obtain ⟨rule, hrule'⟩ := hall w hw
    refine ⟨i, ⟨(i, .policy .load), (hrules i _).mpr ⟨hi, hrule⟩, if_pos rfl⟩, (w, rule),
      (hrules w rule).mpr ⟨hw, hrule'⟩, ?_⟩
    simp only [hr, hstore, hmust, if_true]
    simpa using hc

theorem respected_memoryClauses :
    (∀ c ∈ memoryClauses input rules, c.Respected known) ↔
      ∀ loaded stored, input.Reloads loaded stored → (known loaded ↔ known stored) := by
  simp only [mem_memoryClauses hrules hall]
  constructor
  · intro hclauses loaded stored hreloads
    have hforward := hclauses ⟨[stored], loaded⟩ ⟨loaded, stored, hreloads, .inl rfl⟩
    have hback := hclauses ⟨[loaded], stored⟩ ⟨loaded, stored, hreloads, .inr rfl⟩
    simp only [Clause.Respected, List.forall_mem_singleton] at hforward hback
    exact ⟨hback, hforward⟩
  · intro hreloads c hc
    obtain ⟨loaded, stored, hloaded, rfl | rfl⟩ := hc
    · simpa [Clause.Respected] using (hreloads loaded stored hloaded).mpr
    · simpa [Clause.Respected] using (hreloads loaded stored hloaded).mp

end Reloads

theorem closed_iff (h : f.WellFormed) (hd : f.Defined) (hrules : ∀ i rule, (i, rule) ∈ rules ↔
      i ∈ f.layoutInsts ∧ TaintRule.of f table i = .ok rule)
    (hall : ∀ i ∈ f.layoutInsts, ∃ rule, TaintRule.of f table i = .ok rule) :
    (TaintInput.ofFunction f table oracle).Closed known ↔ (∀ v, f.Shows table v → known v) ∧
      ∀ c ∈ clauses (.ofFunction f table oracle) rules, c.Respected known := by
  have hclauses : (∀ c ∈ clauses (.ofFunction f table oracle) rules, c.Respected known) ↔
      ((∀ c ∈ f.layoutParams.flatMap fun p =>
          determines ((DefUse.ofFunction f false).dependenciesOf p) p, c.Respected known) ∧
        ∀ x ∈ rules, ∀ c ∈ instClauses (.ofFunction f table oracle) x.1 x.2, c.Respected known) ∧
        ∀ c ∈ memoryClauses (.ofFunction f table oracle) rules, c.Respected known := by
    simp only [clauses, List.forall_mem_append, List.forall_mem_flatMap, TaintInput.ofFunction]
  rw [hclauses, respected_params h hd, respected_memoryClauses hrules hall]
  simp only [respected_instClauses, respected_inverseClauses]
  constructor
  · intro hclosed
    refine ⟨hclosed.shown, ⟨hclosed.param, ?_⟩, hclosed.reloaded⟩
    rintro ⟨i, rule⟩ hx r hr
    obtain ⟨hi, hrule⟩ := (hrules i rule).mp hx
    refine ⟨fun hoperator hne hargs => ?_, fun hpure => ⟨fun hpolicy hknown => ?_,
      fun hpolicy x y hargs hknown => ?_⟩⟩
    · exact hclosed.operated i hi rule r hrule hoperator hr hne hargs
    · exact hclosed.inverted i hi r hpolicy hr hknown
    · exact hclosed.invertedGiven i hi r x y hpolicy hr hargs hknown
  · rintro ⟨hshown, ⟨hparam, hinst⟩, hreloaded⟩
    constructor
    case shown => exact hshown
    case param => exact hparam
    case reloaded => exact hreloaded
    case operated =>
      intro i hi rule r hrule hoperator hr
      exact (hinst (i, rule) ((hrules i rule).mpr ⟨hi, hrule⟩) r hr).1 hoperator
    case inverted =>
      intro i hi r hpolicy hr hknown
      have hrule : TaintRule.of f table i = .ok (.policy .pure) :=
        TaintRule.of_inversePolicy hpolicy (by decide)
      have hx := hinst (i, _) ((hrules i _).mpr ⟨hi, hrule⟩) r hr
      exact (hx.2 rfl).1 hpolicy hknown
    case invertedGiven =>
      intro i hi r x y hpolicy hr hargs hknown
      have hrule : TaintRule.of f table i = .ok (.policy .pure) :=
        TaintRule.of_inversePolicy hpolicy (by decide)
      have hx := hinst (i, _) ((hrules i _).mpr ⟨hi, hrule⟩) r hr
      exact (hx.2 rfl).2 hpolicy x y hargs hknown

end Clauses

section Analysis

variable {input : TaintInput} {shown : PublicValues}

theorem mem_transmitted {operands : List (ValueId × Transmission)} {v : ValueId} :
    v ∈ (operands.filterMap fun (v, kind) => if kind = .always then some v else none) ↔
      (v, .always) ∈ operands := by
  simp [List.mem_filterMap]

theorem seedsOf_eq_ok {i : InstId} {rule : TaintRule} {values : List ValueId}
    (h : seedsOf input i rule = .ok values) :
    ∃ operands, input.function.transmitters input.table i = .ok operands ∧
      ∀ v, v ∈ values ↔ (v, .always) ∈ operands ∨
        (rule = .policy .constant ∧ v ∈ input.function.results i) ∨
        (rule = .policy .call ∧ (v ∈ input.function.results i ∨ v ∈ input.function.args i)) := by
  obtain ⟨operands, hoperands, hvalues⟩ := Except.bind_eq_ok_iff.mp h
  rw [Except.pure_eq_ok_iff] at hvalues
  refine ⟨operands, hoperands, fun v => ?_⟩
  rw [← hvalues]
  split
  · simp [or_comm]
  · simp [or_comm, or_assoc]
  · rename_i hconstant hcall
    simp only [mem_transmitted, eq_false hconstant, eq_false hcall, false_and, or_false]

theorem mem_seeds {seeds : List (List ValueId)} (hrules : ∀ i rule, (i, rule) ∈ rules ↔
      i ∈ input.function.layoutInsts ∧ TaintRule.of input.function input.table i = .ok rule)
    (hall : ∀ i ∈ input.function.layoutInsts,
      ∃ rule, TaintRule.of input.function input.table i = .ok rule)
    (hseeds : rules.mapM (fun (i, rule) => seedsOf input i rule) = .ok seeds) (v : ValueId) :
    v ∈ seeds.flatten ↔ input.function.Shows input.table v := by
  obtain ⟨hok, hmem⟩ := Except.mapM_eq_ok hseeds
  simp only [List.mem_flatten, hmem]
  constructor
  · intro hv
    obtain ⟨values, ⟨⟨i, rule⟩, hx, hvalues⟩, hv⟩ := hv
    obtain ⟨hi, hrule⟩ := (hrules i rule).mp hx
    obtain ⟨operands, hoperands, hmem⟩ := seedsOf_eq_ok hvalues
    rcases (hmem v).mp hv with htransmitted | ⟨rfl, hr⟩ | ⟨rfl, hr | hv⟩
    · exact .transmitted hi hoperands htransmitted
    · exact .constant hi hrule hr
    · exact .returned hi hrule hr
    · exact .handedOver hi hrule hv
  · intro hshows
    have hmember : ∀ i ∈ input.function.layoutInsts, ∀ rule,
        TaintRule.of input.function input.table i = .ok rule → ∃ values operands,
          (∃ x ∈ rules, seedsOf input x.1 x.2 = .ok values) ∧
          input.function.transmitters input.table i = .ok operands ∧
          ∀ v, v ∈ values ↔ (v, .always) ∈ operands ∨
            (rule = .policy .constant ∧ v ∈ input.function.results i) ∨
            (rule = .policy .call ∧
              (v ∈ input.function.results i ∨ v ∈ input.function.args i)) := by
      intro i hi rule hrule
      have hx := (hrules i rule).mpr ⟨hi, hrule⟩
      obtain ⟨values, hvalues⟩ := hok (i, rule) hx
      obtain ⟨operands, hoperands, hmem⟩ := seedsOf_eq_ok hvalues
      exact ⟨values, operands, ⟨(i, rule), hx, hvalues⟩, hoperands, hmem⟩
    cases hshows with
    | transmitted hi hoperands hv =>
      obtain ⟨rule, hrule⟩ := hall _ hi
      obtain ⟨values, operands, hx, hsame, hmem⟩ := hmember _ hi rule hrule
      rw [hoperands] at hsame
      cases hsame
      exact ⟨values, hx, (hmem v).mpr (.inl hv)⟩
    | constant hi hrule hr =>
      obtain ⟨values, operands, hx, -, hmem⟩ := hmember _ hi _ hrule
      exact ⟨values, hx, (hmem v).mpr (.inr (.inl ⟨rfl, hr⟩))⟩
    | returned hi hrule hr =>
      obtain ⟨values, operands, hx, -, hmem⟩ := hmember _ hi _ hrule
      exact ⟨values, hx, (hmem v).mpr (.inr (.inr ⟨rfl, .inl hr⟩))⟩
    | handedOver hi hrule hv =>
      obtain ⟨values, operands, hx, -, hmem⟩ := hmember _ hi _ hrule
      exact ⟨values, hx, (hmem v).mpr (.inr (.inr ⟨rfl, .inr hv⟩))⟩

theorem compute_eq_ok (hok : compute input = .ok shown) : ∃ rules start,
    taintRules input.function input.table = .ok rules ∧
      (∀ v, v ∈ start ↔ input.function.Shows input.table v) ∧
      shown.values = Clause.closure (clauses input rules) start := by
  obtain ⟨rules, hrules, hok⟩ := Except.bind_eq_ok_iff.mp hok
  obtain ⟨seeds, hseeds, hok⟩ := Except.bind_eq_ok_iff.mp hok
  rw [Except.pure_eq_ok_iff] at hok
  obtain ⟨hall, hmem⟩ := taintRules_eq_ok hrules
  refine ⟨rules, .ofList seeds.flatten, hrules, fun v => ?_, hok ▸ rfl⟩
  rw [AscSet.mem_ofList, mem_seeds hmem hall hseeds]

theorem exists_compute (hall : ∀ i ∈ input.function.layoutInsts,
    ∃ rule, TaintRule.of input.function input.table i = .ok rule) :
    ∃ shown, compute input = .ok shown := by
  obtain ⟨rules, hrules⟩ := exists_taintRules hall
  have hseeds : ∀ x ∈ rules, ∃ values, seedsOf input x.1 x.2 = .ok values := by
    intro ⟨i, rule⟩ hx
    have hrule := (((taintRules_eq_ok hrules).2 i rule).mp hx).2
    obtain ⟨operands, hoperands⟩ := exists_transmitters hrule
    exact ⟨_, Except.bind_eq_ok_iff.mpr ⟨operands, hoperands, rfl⟩⟩
  obtain ⟨seeds, hseeds⟩ := Except.exists_mapM hseeds
  exact ⟨_, Except.bind_eq_ok_iff.mpr
    ⟨rules, hrules, Except.bind_eq_ok_iff.mpr ⟨seeds, hseeds, rfl⟩⟩⟩

theorem least_of_compute (h : f.WellFormed) (hd : f.Defined)
    (hok : compute (.ofFunction f table oracle) = .ok shown) :
    (TaintInput.ofFunction f table oracle).Closed (· ∈ shown.values) ∧
      ∀ known, (TaintInput.ofFunction f table oracle).Closed known →
        ∀ v ∈ shown.values, known v := by
  obtain ⟨rules, start, hrules, hstart, hvalues⟩ := compute_eq_ok hok
  obtain ⟨hall, hmem⟩ := taintRules_eq_ok hrules
  have hpublic : ∀ v, v ∈ shown.values ↔
      Clause.Derived (clauses (.ofFunction f table oracle) rules) start v := by
    intro v
    rw [hvalues, Clause.mem_closure_iff]
  have hclosed : ∀ known, (TaintInput.ofFunction f table oracle).Closed known ↔
      (∀ v, f.Shows table v → known v) ∧
        ∀ c ∈ clauses (.ofFunction f table oracle) rules, c.Respected known :=
    fun known => closed_iff h hd hmem hall
  simp only [hpublic, hclosed]
  refine ⟨⟨fun v hv => .given ((hstart v).mpr hv), fun c hc => Clause.respected_derived c hc⟩, ?_⟩
  intro known hknown v hv
  exact Clause.derived_least (fun x hx => hknown.1 x ((hstart x).mp hx)) hknown.2 hv

/-- When every instruction of the layout has a rule, the analysis succeeds: it starts from the shown
values, every round only adds to what it is given, some number of rounds leads to a set that a
further round leaves as it is, and this set is the least closed one. -/
theorem compute_finds_least (f : Function) (h : f.WellFormed) (hd : f.Defined)
    (table : IntrinsicTable) (oracle : AliasOracle)
    (hall : ∀ i ∈ f.layoutInsts, ∃ rule, TaintRule.of f table i = .ok rule) :
    ∃ found rules start, compute (.ofFunction f table oracle) = .ok found ∧
      taintRules f table = .ok rules ∧ (∀ v, v ∈ start ↔ f.Shows table v) ∧
      (∀ known : AscSet ValueId, ∀ v ∈ known,
        v ∈ Clause.round (clauses (.ofFunction f table oracle) rules) known) ∧
      (∃ n, found.values = (Clause.round (clauses (.ofFunction f table oracle) rules))^[n] start) ∧
      Clause.round (clauses (.ofFunction f table oracle) rules) found.values = found.values ∧
      (TaintInput.ofFunction f table oracle).Closed (· ∈ found.values) ∧
      ∀ known, (TaintInput.ofFunction f table oracle).Closed known →
        ∀ v ∈ found.values, known v := by
  obtain ⟨found, hok⟩ : ∃ found, compute (.ofFunction f table oracle) = .ok found :=
    exists_compute hall
  obtain ⟨hclosed, hleast⟩ := least_of_compute h hd hok
  obtain ⟨rules, start, hrules, hstart, hvalues⟩ := compute_eq_ok hok
  obtain ⟨n, -, hrounds⟩ := exists_iterate_fixpoint
    (Clause.round (clauses (.ofFunction f table oracle) rules)) _ start
  refine ⟨found, rules, start, hok, hrules, hstart, ?_, ⟨n, hvalues.trans hrounds⟩, ?_, hclosed,
    hleast⟩
  · intro known v hv
    exact Clause.mem_round.mpr (.inl hv)
  · rw [hvalues]
    exact Clause.round_closure _ _

def spilledParam : Function := .build ⟨.numbered 0 0, [], ["spill"],
  [⟨[⟨.i64, 1⟩], [⟨.symbolValue, [], .globalName 0, some ⟨.i64, 1⟩, [⟨.i64, 1⟩]⟩,
    ⟨.bnot, [0], .none, some ⟨.i64, 1⟩, [⟨.i64, 1⟩]⟩, ⟨.store, [2, 1], .offset 0, none, []⟩,
    ⟨.load, [1], .offset 0, some ⟨.i64, 1⟩, [⟨.i64, 1⟩]⟩,
    ⟨.load, [3], .offset 0, some ⟨.i64, 1⟩, [⟨.i64, 1⟩]⟩, ⟨.ret, [], .none, none, []⟩]⟩], none⟩

/-- The address is shown, and the parameter follows from it backwards through memory and the
negation. -/
theorem compute_spilledParam :
    ∃ found, compute (.ofFunction spilledParam .empty .conservative) = .ok found ∧
      0 ∈ found.values := by
  obtain ⟨found, rules, start, hok, -, -, -, -, -, hclosed, -⟩ :=
    compute_finds_least spilledParam (by decide +kernel) (by decide +kernel) .empty .conservative
      (by decide +kernel)
  have htransmitters : spilledParam.transmitters .empty 4 = .ok [(3, .always)] := by
    decide +kernel
  have haddress : (3 : ValueId) ∈ found.values :=
    hclosed.shown 3 (.transmitted (i := 4) (by decide +kernel) htransmitters (by decide))
  have hreloads : (TaintInput.ofFunction spilledParam .empty .conservative).Reloads 3 2 :=
    ⟨3, 2, some 1, by decide +kernel, by decide +kernel, by decide +kernel, by decide +kernel,
      by decide +kernel, by decide +kernel⟩
  have hnegated : (2 : ValueId) ∈ found.values := (hclosed.reloaded 3 2 hreloads).mp haddress
  have hinverted : ∀ v ∈ spilledParam.args 1, v ∈ found.values :=
    hclosed.inverted 1 (by decide +kernel) 2 (by decide +kernel) (by decide +kernel) hnegated
  exact ⟨found, hok, hinverted 0 (by decide +kernel)⟩

def doubledConstant : Function := .build ⟨.numbered 0 0, [], [],
  [⟨[], [⟨.iconst, [], .immediate 1, some ⟨.i64, 1⟩, [⟨.i64, 1⟩]⟩,
    ⟨.uaddOverflow, [0, 0], .none, some ⟨.i64, 1⟩, [⟨.i64, 1⟩, ⟨.i8, 1⟩]⟩,
    ⟨.ret, [], .none, none, []⟩]⟩], none⟩

/-- The overflow flag is computed from a public constant alone, but it is not found public. -/
theorem compute_doubledConstant :
    ∃ found, compute (.ofFunction doubledConstant .empty .conservative) = .ok found ∧
      TaintRule.of doubledConstant .empty 1 = .ok (.policy .pure) ∧
      doubledConstant.results 1 = [1, 2] ∧ doubledConstant.args 1 = [0, 0] ∧
      0 ∈ found.values ∧ 1 ∈ found.values ∧ 2 ∉ found.values := by
  refine ⟨⟨.ofList [0, 1]⟩, rfl, by decide +kernel, by decide +kernel, by decide +kernel,
    by decide +kernel, by decide +kernel, by decide +kernel⟩

end Analysis

end PublicValues

end SpecFence
