import Mathlib.Data.List.Basic
import SpecFence.Proofs.Dependents
import SpecFence.Proofs.Resolution
import SpecFence.Taint.Questions

/-!
# Addresses defined in a circle

Definitions that add constants are followed until one of them is something else.  They come to an end
unless a value is defined from itself in this way; then no number of definitions is enough, and an
analysis that asks about such an address has no result.  In every other case an address takes no more
definitions than the function has values.
-/

set_option autoImplicit false

namespace SpecFence

namespace AliasOracle

open Relation

variable {f : Function} {v x : ValueId} {a : Address} {offset : Int} {n m : Nat}

theorem AddsTo.unique {y : ValueId} (h : AddsTo f v x) (h' : AddsTo f v y) : x = y :=
  Option.some_inj.mp (h.symm.trans h')

theorem not_addsTo_of_base {b : Base} {c : Int} (h : step f v = .base b c) : ¬ AddsTo f v x := by
  simp [AddsTo, h, Step.addend?]

theorem acyclicFrom_of_resolveValue? {r : Base × Int} (h : resolveValue? f v offset n = some r) :
    AcyclicFrom f v := by
  induction n generalizing v offset with
  | zero => cases h
  | succ n ih =>
    rw [resolveValue?] at h
    intro y hvy hcircle
    cases hstep : step f v with
    | base b c =>
      -- nothing is added to a base, so the value is the only one met
      have hsame : y = v := by
        rcases ReflTransGen.cases_head hvy with rfl | ⟨x, hvx, -⟩
        · rfl
        · exact absurd hvx (not_addsTo_of_base hstep)
      subst hsame
      obtain ⟨x, hyx, -⟩ := TransGen.head'_iff.mp hcircle
      exact not_addsTo_of_base hstep hyx
    | sum x c =>
      rw [hstep] at h
      have hadds : AddsTo f v x := addsTo_of_step hstep
      rcases ReflTransGen.cases_head hvy with rfl | ⟨z, hvz, hzy⟩
      · -- a circle through the value passes the next one, which would be in it
        obtain ⟨z, hvz, hzv⟩ := TransGen.head'_iff.mp hcircle
        cases hadds.unique hvz
        exact ih h v hzv hcircle
      · cases hadds.unique hvz
        exact ih h y hzy hcircle

theorem resolveValue?_mono {r : Base × Int} (h : resolveValue? f v offset n = some r)
    (hle : n ≤ m) : resolveValue? f v offset m = some r := by
  induction n generalizing v offset m with
  | zero => cases h
  | succ n ih =>
    cases m with
    | zero => exact absurd hle (Nat.not_succ_le_zero n)
    | succ m =>
      rw [resolveValue?] at h ⊢
      cases hstep : step f v with
      | base b c =>
        rw [hstep] at h
        exact h
      | sum x c =>
        rw [hstep] at h
        exact ih h (Nat.le_of_succ_le_succ hle)

theorem resolveWithin?_mono {r : Base × Int} (h : resolveWithin? n f a = some r) (hle : n ≤ m) :
    resolveWithin? m f a = some r := by
  cases a with
  | slot s => exact h
  | value v => exact resolveValue?_mono h (Nat.succ_le_succ hle)

theorem resolveWithin?_size (f : Function) (a : Address) :
    resolveWithin? f.values.size f a = resolve? f a := by
  cases a <;> rfl

theorem AcyclicAt.exists_resolveWithin? (h : AcyclicAt f a) :
    ∃ r, resolve? f a = some r ∧ ∀ n, f.values.size ≤ n → resolveWithin? n f a = some r := by
  obtain ⟨r, hr⟩ := h.exists_resolve?
  exact ⟨r, hr, fun n hn => resolveWithin?_mono ((resolveWithin?_size f a).trans hr) hn⟩

theorem acyclicAt_of_resolveWithin? {r : Base × Int} (h : resolveWithin? n f a = some r) :
    AcyclicAt f a := by
  cases a with
  | slot s => trivial
  | value v => exact acyclicFrom_of_resolveValue? h

theorem resolveWithin?_eq_none (h : ¬ AcyclicAt f a) (n : Nat) : resolveWithin? n f a = none := by
  cases hr : resolveWithin? n f a with
  | none => rfl
  | some r => exact absurd (acyclicAt_of_resolveWithin? hr) h

section Questions

variable {p q : MemoryLocation}

/-- A question is answered as soon as both addresses are resolved, and then as the oracle answers
it. -/
theorem basicWithin?_eq (hp : AcyclicAt f p.address) (hq : AcyclicAt f q.address)
    (hn : f.values.size ≤ n) : basicWithin? n f p q = some (basic f p q) := by
  obtain ⟨⟨base, _⟩, hr, hall⟩ := hp.exists_resolveWithin?
  obtain ⟨⟨base', _⟩, hs, hall'⟩ := hq.exists_resolveWithin?
  cases base <;> cases base' <;> simp only [basicWithin?, basic, hall n hn, hall' n hn, hr, hs]

theorem acyclicAt_of_basicWithin? (h : (basicWithin? n f p q).isSome = true) :
    AcyclicAt f p.address ∧ AcyclicAt f q.address := by
  unfold basicWithin? at h
  split at h
  · rename_i hp hq
    exact ⟨acyclicAt_of_resolveWithin? hp, acyclicAt_of_resolveWithin? hq⟩
  · cases h

/-- What an analysis that asks questions comes to: a result, by following as many definitions of each
address as there are values, unless a question is about an address in a circle. -/
structure Settled {α : Type} (f : Function) (questions : List (MemoryLocation × MemoryLocation))
    (within? : Nat → Option α) (result : α) : Prop where
  ends : (∀ q ∈ questions, AcyclicAt f q.1.address ∧ AcyclicAt f q.2.address) →
    ∀ n, f.values.size ≤ n → within? n = some result
  endless : ∀ q ∈ questions, ¬ (AcyclicAt f q.1.address ∧ AcyclicAt f q.2.address) →
    ∀ n, within? n = none

theorem settled_ask? {α : Type} {questions : List (MemoryLocation × MemoryLocation)}
    {result : AliasOracle → α}
    (hcongr : ∀ o o' : AliasOracle, (∀ q ∈ questions, o f q.1 q.2 = o' f q.1 q.2) →
      result o = result o') :
    Settled f questions (fun n => ask? n f questions result) (result basic) := by
  constructor
  · intro hall n hn
    have hanswer : ∀ q ∈ questions, basicWithin? n f q.1 q.2 = some (basic f q.1 q.2) :=
      fun q hq => basicWithin?_eq (hall q hq).1 (hall q hq).2 hn
    have hask : (questions.all fun q => (basicWithin? n f q.1 q.2).isSome) = true :=
      List.all_eq_true.mpr fun q hq => by rw [hanswer q hq]; rfl
    unfold ask?
    rw [if_pos hask]
    refine congrArg some (hcongr _ _ fun q hq => ?_)
    unfold within
    rw [hanswer q hq]
    rfl
  · intro q hq hcircle n
    have hask : ¬ (questions.all fun q => (basicWithin? n f q.1 q.2).isSome) = true :=
      fun hall => hcircle (acyclicAt_of_basicWithin? (List.all_eq_true.mp hall q hq))
    exact if_neg hask

end Questions

section LoadStore

variable {table : IntrinsicTable} {o o' : AliasOracle} {i w : InstId}

theorem loadStore_congr
    (h : ∀ a ∈ f.reads table i, ∀ b ∈ f.writes table w, o f a b = o' f a b) :
    o.loadStore f table i w = o'.loadStore f table i w := by
  unfold loadStore
  refine List.foldl_ext _ _ _ fun r a ha => List.foldl_ext _ _ _ fun r b hb => ?_
  rw [h a ha b hb]

theorem loadStore_congr_of_mem {pairs : List (InstId × InstId)}
    (h : ∀ q ∈ questions f table pairs, o f q.1 q.2 = o' f q.1 q.2) (hmem : (i, w) ∈ pairs) :
    o.loadStore f table i w = o'.loadStore f table i w := by
  refine loadStore_congr fun a ha b hb => h (a, b) ?_
  unfold questions
  exact List.mem_flatMap.mpr ⟨(i, w), hmem, List.mem_flatMap.mpr
    ⟨a, ha, List.mem_map.mpr ⟨b, hb, rfl⟩⟩⟩

end LoadStore

end AliasOracle

open AliasOracle

variable {input : TaintInput} {o o' : AliasOracle} {rules : List (InstId × TaintRule)}

theorem TaintInput.loadStore_congr {pairs : List (InstId × TaintRule) → List (InstId × InstId)}
    (hrules : taintRules input.function input.table = .ok rules)
    (h : ∀ q ∈ input.questions pairs, o input.function q.1 q.2 = o' input.function q.1 q.2)
    {i w : InstId} (hmem : (i, w) ∈ pairs rules) :
    o.loadStore input.function input.table i w = o'.loadStore input.function input.table i w := by
  unfold TaintInput.questions at h
  rw [hrules] at h
  exact loadStore_congr_of_mem h hmem

namespace SpeculativeTaint

variable {dependent : AscSet ValueId}

theorem mem_compared {i w : InstId} :
    (i, w) ∈ compared input rules ↔
      (∃ rule, (i, rule) ∈ rules ∧ asksFor input (dependentValues input rules) i rule = true) ∧
        w ∈ input.function.layoutInsts ∧
          (w != i && !(input.function.writes input.table w).isEmpty) = true := by
  unfold compared
  simp only [List.mem_flatMap, List.mem_filter, List.mem_map]
  constructor
  · rintro ⟨⟨j, rule⟩, hrule, u, hu, heq⟩
    cases heq
    exact ⟨⟨rule, hrule⟩, hu⟩
  · rintro ⟨⟨rule, hrule⟩, hw⟩
    exact ⟨(i, rule), hrule, w, hw, rfl⟩

theorem readPlaces_congr {i : InstId}
    (h : ∀ w ∈ input.function.layoutInsts,
      (w != i && !(input.function.writes input.table w).isEmpty) = true →
        o.loadStore input.function input.table i w = o'.loadStore input.function input.table i w) :
    readPlaces { input with oracle := o } i = readPlaces { input with oracle := o' } i := by
  unfold readPlaces
  refine congrArg (List.map _) (List.filter_congr fun w hw => ?_)
  cases hcompared : w != i && !(input.function.writes input.table w).isEmpty with
  | false => simp only [Bool.false_and]
  | true => simp only [Bool.true_and, h w hw hcompared]

theorem instChannel_congr {i : InstId} {rule : TaintRule}
    (h : asksFor input dependent i rule = true →
      readPlaces { input with oracle := o } i = readPlaces { input with oracle := o' } i) :
    instChannel { input with oracle := o } dependent i rule =
      instChannel { input with oracle := o' } dependent i rule := by
  have hread : ∀ (target : Nat) (address : Option ValueId),
      (asksFor input dependent i rule = !address.any fun a => a ∈ dependent) →
        readChannel { input with oracle := o } dependent i target address =
          readChannel { input with oracle := o' } dependent i target address := by
    intro target address hasks
    unfold readChannel
    split
    · rfl
    · rename_i hfree
      rw [h (by rw [hasks, Bool.eq_false_iff.mpr hfree]; rfl)]
  unfold instChannel
  split
  · exact congrArg (Option.map · _) (funext fun r => hread r _ rfl)
  · exact congrArg some (hread _ _ rfl)
  · rfl

theorem compute_congr
    (h : ∀ q ∈ input.questions (compared input),
      o input.function q.1 q.2 = o' input.function q.1 q.2) :
    compute { input with oracle := o } = compute { input with oracle := o' } := by
  unfold compute
  cases hrules : taintRules input.function input.table with
  | error e => simp only [bind, Except.bind]
  | ok rules =>
    have hchannels : channels { input with oracle := o } (dependentValues input rules) rules =
        channels { input with oracle := o' } (dependentValues input rules) rules := by
      unfold channels
      refine congrArg (_ ++ ·) (List.filterMap_congr fun x hx => instChannel_congr fun hasks => ?_)
      refine readPlaces_congr fun w hw hcompared => ?_
      exact TaintInput.loadStore_congr hrules h (mem_compared.mpr ⟨⟨x.2, hx, hasks⟩, hw, hcompared⟩)
    exact congrArg (fun cs => Except.ok (⟨dependentValues input rules,
      (Channel.spread cs (input.function.values.size + input.function.insts.size)
        input.function.insts.size).take input.function.values.size⟩ : SpeculativeTaint)) hchannels

end SpeculativeTaint

namespace PublicValues

theorem mem_compared {load store : InstId} {rule rule' : TaintRule}
    (hload : (load, rule) ∈ rules) (hrule : rule = .policy .load) (hstore : (store, rule') ∈ rules)
    (hoperands : (input.function.storeOperands? store).isSome = true) :
    (load, store) ∈ compared input rules := by
  unfold compared
  simp only [List.mem_flatMap, List.mem_filter, List.mem_map]
  exact ⟨(load, rule), ⟨hload, decide_eq_true hrule⟩, (store, rule'), ⟨hstore, hoperands⟩, rfl⟩

theorem compute_congr
    (h : ∀ q ∈ input.questions (compared input),
      o input.function q.1 q.2 = o' input.function q.1 q.2) :
    compute { input with oracle := o } = compute { input with oracle := o' } := by
  unfold compute
  cases hrules : taintRules input.function input.table with
  | error e => simp only [bind, Except.bind]
  | ok rules =>
    have hmemory : memoryClauses { input with oracle := o } rules =
        memoryClauses { input with oracle := o' } rules := by
      unfold memoryClauses
      refine List.flatMap_congr fun load hload => List.flatMap_congr ?_
      rintro ⟨store, rule⟩ hstore
      obtain ⟨⟨i, loadRule⟩, hmem, hsome⟩ := List.mem_filterMap.mp hload
      obtain ⟨hrule, rfl⟩ : loadRule = .policy .load ∧ i = load := by simpa using hsome
      dsimp only
      cases input.function.firstResult? i with
      | none => rfl
      | some loaded =>
        cases hoperands : input.function.storeOperands? store with
        | none => rfl
        | some stored =>
          have hcompared := mem_compared hmem hrule hstore (Option.isSome_of_eq_some hoperands)
          simp only [TaintInput.loadStore_congr hrules h hcompared]
    have hinst : instClauses { input with oracle := o } =
        instClauses { input with oracle := o' } := rfl
    have hseeds : seedsOf { input with oracle := o } = seedsOf { input with oracle := o' } := rfl
    have hclauses : clauses { input with oracle := o } rules =
        clauses { input with oracle := o' } rules := by
      simp only [clauses, hmemory, hinst]
    simp only [bind, Except.bind, hclauses, hseeds]

end PublicValues

/-- Addresses are resolved by following as many definitions as the function has values at most, but
for those made of a value that is defined from itself by adding constants; these are never resolved.
Both taint analyses have a result within as many definitions of each address, and it is the one of
the basic oracle, unless one of their questions is about such an address; then they never have one. -/
theorem TaintInput.settled_unless_circular (input : TaintInput) :
    (∀ a, (AcyclicAt input.function a → ∃ r, resolve? input.function a = some r ∧
        ∀ n, input.function.values.size ≤ n → resolveWithin? n input.function a = some r) ∧
      (¬ AcyclicAt input.function a → ∀ n, resolveWithin? n input.function a = none)) ∧
    Settled input.function (input.questions (SpeculativeTaint.compared input))
      (SpeculativeTaint.computeWithin? input) (SpeculativeTaint.compute { input with oracle := basic }) ∧
    Settled input.function (input.questions (PublicValues.compared input))
      (PublicValues.computeWithin? input) (PublicValues.compute { input with oracle := basic }) :=
  ⟨fun _ => ⟨AcyclicAt.exists_resolveWithin?, resolveWithin?_eq_none⟩,
    settled_ask? fun _ _ => SpeculativeTaint.compute_congr,
    settled_ask? fun _ _ => PublicValues.compute_congr⟩

/-- A function that loads and stores at a constant from its parameter, and has a value beside that is
defined from itself. -/
def fieldBesideCircle : Function := .build ⟨.numbered 0 0, [], [],
  [⟨[⟨.i64, 1⟩], [⟨.iaddImm, [0], .immediate 8, some ⟨.i64, 1⟩, [⟨.i64, 1⟩]⟩,
      ⟨.load, [1], .offset 0, some ⟨.i64, 1⟩, [⟨.i64, 1⟩]⟩,
      ⟨.store, [2, 1], .offset 0, some ⟨.i64, 1⟩, []⟩, ⟨.ret, [], .none, none, []⟩]⟩,
    ⟨[], [⟨.iaddImm, [3], .immediate 1, some ⟨.i64, 1⟩, [⟨.i64, 1⟩]⟩,
      ⟨.ret, [], .none, none, []⟩]⟩], none⟩

/-- The value beside is never resolved, but no question is about it. -/
theorem TaintInput.settled_fieldBesideCircle :
    (∀ n, 4 ≤ n → resolveWithin? n fieldBesideCircle (.value 1) = some (.value 0, 8)) ∧
    (∀ n, resolveWithin? n fieldBesideCircle (.value 3) = none) ∧
    ∀ n, 4 ≤ n →
      SpeculativeTaint.computeWithin? (.ofFunction fieldBesideCircle .empty .basic) n =
        some (SpeculativeTaint.compute (.ofFunction fieldBesideCircle .empty .basic)) ∧
      PublicValues.computeWithin? (.ofFunction fieldBesideCircle .empty .basic) n =
        some (PublicValues.compute (.ofFunction fieldBesideCircle .empty .basic)) := by
  obtain ⟨hresolve, hspeculative, hpublic⟩ :=
    settled_unless_circular (.ofFunction fieldBesideCircle .empty .basic)
  have hsize : fieldBesideCircle.values.size = 4 := by decide +kernel
  have hfield : resolveWithin? 1 fieldBesideCircle (.value 1) = some (.value 0, 8) := by
    decide +kernel
  have hbeside : AddsTo fieldBesideCircle 3 3 := by
    unfold AddsTo
    decide +kernel
  have hcompared : ∀ q ∈ (ofFunction fieldBesideCircle .empty .basic).questions
      (SpeculativeTaint.compared (.ofFunction fieldBesideCircle .empty .basic)),
      (basicWithin? 1 fieldBesideCircle q.1 q.2).isSome = true := by
    decide +kernel
  have hcompared' : ∀ q ∈ (ofFunction fieldBesideCircle .empty .basic).questions
      (PublicValues.compared (.ofFunction fieldBesideCircle .empty .basic)),
      (basicWithin? 1 fieldBesideCircle q.1 q.2).isSome = true := by
    decide +kernel
  refine ⟨fun n hn => ?_, (hresolve (.value 3)).2 fun h => h 3 .refl (.single hbeside),
    fun n hn => ⟨?_, ?_⟩⟩
  · obtain ⟨r, hr, hall⟩ := (hresolve (.value 1)).1 (acyclicAt_of_resolveWithin? hfield)
    have hr' : resolve? fieldBesideCircle (.value 1) = some (.value 0, 8) := by decide +kernel
    cases hr.symm.trans hr'
    exact hall n (hsize.trans_le hn)
  · exact hspeculative.ends (fun q hq => acyclicAt_of_basicWithin? (hcompared q hq)) n
      (hsize.trans_le hn)
  · exact hpublic.ends (fun q hq => acyclicAt_of_basicWithin? (hcompared' q hq)) n
      (hsize.trans_le hn)

/-- A function that loads and stores, where control never comes, at an address that is defined from
itself by adding one. -/
def selfSum : Function := .build ⟨.numbered 0 0, [], [],
  [⟨[], [⟨.ret, [], .none, none, []⟩]⟩,
    ⟨[], [⟨.iaddImm, [0], .immediate 1, some ⟨.i64, 1⟩, [⟨.i64, 1⟩]⟩,
      ⟨.load, [0], .offset 0, some ⟨.i64, 1⟩, [⟨.i64, 1⟩]⟩,
      ⟨.store, [1, 0], .offset 0, some ⟨.i64, 1⟩, []⟩, ⟨.ret, [], .none, none, []⟩]⟩], none⟩

/-- The address is not resolved and neither analysis has a result, however many definitions are
followed. -/
theorem selfSum_endless :
    (∀ n, resolveWithin? n selfSum (.value 0) = none) ∧
    (∀ n, SpeculativeTaint.computeWithin? (.ofFunction selfSum .empty .basic) n = none) ∧
    ∀ n, PublicValues.computeWithin? (.ofFunction selfSum .empty .basic) n = none := by
  have hadds : AddsTo selfSum 0 0 := by
    unfold AddsTo
    decide +kernel
  have hcircle : ¬ AcyclicAt selfSum (.value 0) := fun h => h 0 .refl (.single hadds)
  have hboth : ¬ (AcyclicAt selfSum (.value 0) ∧ AcyclicAt selfSum (.value 0)) :=
    fun h => hcircle h.1
  have hasked : (⟨.value 0, 0, some 8⟩, ⟨.value 0, 0, some 8⟩) ∈
      (TaintInput.ofFunction selfSum .empty .basic).questions
        (SpeculativeTaint.compared (.ofFunction selfSum .empty .basic)) := by
    decide +kernel
  have hasked' : (⟨.value 0, 0, some 8⟩, ⟨.value 0, 0, some 8⟩) ∈
      (TaintInput.ofFunction selfSum .empty .basic).questions
        (PublicValues.compared (.ofFunction selfSum .empty .basic)) := by
    decide +kernel
  exact ⟨resolveWithin?_eq_none hcircle,
    (settled_ask? fun _ _ => SpeculativeTaint.compute_congr).endless _ hasked hboth,
    (settled_ask? fun _ _ => PublicValues.compute_congr).endless _ hasked' hboth⟩

end SpecFence
