import SpecFence.Proofs.Built
import SpecFence.Proofs.Dependents

/-!
# Taint is what flows

The origins that the analysis finds for a value are exactly the loads and memory copies from which a
chain of steps leads to the value: through operators, through the parameters that branches feed, and
through memory, from an instruction that writes to one that may read what was written.  Nothing
flows into a reader that is an origin itself.
-/

set_option autoImplicit false

namespace SpecFence

/-- Where data stands: in a value, or in the memory that an instruction copies to. -/
inductive DataPlace where
  | value (value : ValueId)
  | copied (inst : InstId)

namespace Function

/-- The value that says where an instruction reads memory. -/
def sourceAddress? (f : Function) (rule : TaintRule) (i : InstId) : Option ValueId :=
  match rule with
  | .policy .load => f.loadAddress? i
  | .intrinsic .memoryCopy => (f.args i)[1]?
  | _ => none

def filled? (f : Function) (rule : TaintRule) (i : InstId) : Option DataPlace :=
  match rule with
  | .policy .load => (f.firstResult? i).map .value
  | .intrinsic .memoryCopy => some (.copied i)
  | _ => none

def writtenData (f : Function) (table : IntrinsicTable) (w : InstId) : DataPlace :=
  match f.storedValue? table w with
  | some v => .value v
  | none => .copied w

theorem mem_args_of_storedValue? {f : Function} {table : IntrinsicTable} {w : InstId} {v : ValueId}
    (h : f.storedValue? table w = some v) : v ∈ f.args w := by
  unfold storedValue? at h
  split at h
  · rename_i data _ hstore
    cases h
    unfold storeOperands? at hstore
    split at hstore
    · split at hstore
      · rename_i hargs
        cases hstore
        rw [hargs]
        exact List.mem_cons_self
      · cases hstore
    · split at hstore
      · obtain ⟨x, hx, hpair⟩ := Option.map_eq_some_iff.mp hstore
        cases hpair
        exact List.mem_of_mem_head? hx
      · cases hstore
  · split at h
    · exact List.mem_of_getElem? h
    · cases h

end Function

namespace TaintInput

/-- An instruction may read what another one wrote to memory. -/
structure MayRead (input : TaintInput) (i w : InstId) : Prop where
  laid : w ∈ input.function.layoutInsts
  other : w ≠ i
  writes : input.function.writes input.table w ≠ []
  mayAlias : (input.oracle.loadStore input.function input.table i w).mayAlias = true

/-- The data at a place may come from a load or a memory copy whose address depends on a load. -/
inductive Carries (input : TaintInput) : DataPlace → InstId → Prop
  | origin {i : InstId} {rule : TaintRule} {place : DataPlace} {a : ValueId}
      (hi : i ∈ input.function.layoutInsts)
      (hrule : TaintRule.of input.function input.table i = .ok rule)
      (hfilled : input.function.filled? rule i = some place)
      (haddress : input.function.sourceAddress? rule i = some a)
      (hdepends : input.function.DependsOnLoad input.table a) : Carries input place i
  | read {i w o : InstId} {rule : TaintRule} {place : DataPlace}
      (hi : i ∈ input.function.layoutInsts)
      (hrule : TaintRule.of input.function input.table i = .ok rule)
      (hfilled : input.function.filled? rule i = some place)
      (haddress : ∀ a, input.function.sourceAddress? rule i = some a →
        ¬ input.function.DependsOnLoad input.table a)
      (hread : input.MayRead i w)
      (hrest : Carries input (input.function.writtenData input.table w) o) : Carries input place o
  | operated {i o : InstId} {rule : TaintRule} {v r : ValueId}
      (hi : i ∈ input.function.layoutInsts)
      (hrule : TaintRule.of input.function input.table i = .ok rule)
      (hoperator : rule.isOperator = true) (hv : v ∈ input.function.args i)
      (hr : input.function.firstResult? i = some r) (hrest : Carries input (.value v) o) :
      Carries input (.value r) o
  | passed {o : InstId} {v p : ValueId} (hp : input.function.Passes v p)
      (hrest : Carries input (.value v) o) : Carries input (.value p) o

end TaintInput

namespace SpeculativeTaint

variable {f : Function} {table : IntrinsicTable} {oracle : AliasOracle}
  {rules : List (InstId × TaintRule)}

section Channels

def placeNumber (f : Function) : DataPlace → Nat
  | .value v => v
  | .copied i => f.values.size + i

def placeOf (f : Function) (n : Nat) : DataPlace :=
  if n < f.values.size then .value n else .copied (n - f.values.size)

theorem placeOf_value {v : ValueId} (h : v < f.values.size) : placeOf f v = .value v := if_pos h

theorem placeOf_copied (i : InstId) : placeOf f (f.values.size + i) = .copied i := by
  unfold placeOf
  rw [if_neg (by omega), Nat.add_sub_cancel_left]

theorem placeOf_writtenData (hd : f.Defined) {w : InstId} (hw : w ∈ f.layoutInsts) :
    placeOf f (placeNumber f (f.writtenData table w)) = f.writtenData table w := by
  unfold Function.writtenData
  split
  · rename_i v hv
    exact placeOf_value (hd.args_lt w hw v (Function.mem_args_of_storedValue? hv))
  · exact placeOf_copied w

theorem writtenPlace_eq (w : InstId) :
    writtenPlace (.ofFunction f table oracle) w = placeNumber f (f.writtenData table w) := by
  unfold writtenPlace Function.writtenData
  simp only [TaintInput.ofFunction]
  cases f.storedValue? table w with
  | none => rfl
  | some v => rfl

theorem mem_readPlaces {i : InstId} {n : Nat} :
    n ∈ readPlaces (.ofFunction f table oracle) i ↔
      ∃ w, (TaintInput.ofFunction f table oracle).MayRead i w ∧
        n = placeNumber f (f.writtenData table w) := by
  unfold readPlaces
  rw [List.mem_map]
  constructor
  · rintro ⟨w, hw, rfl⟩
    obtain ⟨hlaid, htest⟩ := List.mem_filter.mp hw
    simp only [Bool.and_eq_true, bne_iff_ne, Bool.not_eq_true', ne_eq] at htest
    obtain ⟨⟨hother, hwrites⟩, halias⟩ := htest
    refine ⟨w, ⟨hlaid, hother, ?_, halias⟩, writtenPlace_eq w⟩
    intro hnil
    rw [hnil] at hwrites
    cases hwrites
  · rintro ⟨w, ⟨hlaid, hother, hwrites, halias⟩, rfl⟩
    refine ⟨w, List.mem_filter.mpr ⟨hlaid, ?_⟩, writtenPlace_eq w⟩
    simp only [Bool.and_eq_true, bne_iff_ne, Bool.not_eq_true', ne_eq]
    exact ⟨⟨hother, List.isEmpty_eq_false_iff.mpr hwrites⟩, halias⟩

variable {dependent : AscSet ValueId}

theorem instChannel_eq_some_iff {i : InstId} {rule : TaintRule} {c : Channel} :
    instChannel (.ofFunction f table oracle) dependent i rule = some c ↔
      (∃ place, f.filled? rule i = some place ∧
        c = readChannel (.ofFunction f table oracle) dependent i (placeNumber f place)
          (f.sourceAddress? rule i)) ∨
      (rule.isOperator = true ∧ ∃ r, f.firstResult? i = some r ∧ c = ⟨r, .empty, f.args i⟩) := by
  have hload : instChannel (.ofFunction f table oracle) dependent i (.policy .load) = some c ↔
      ∃ r, f.firstResult? i = some r ∧
        c = readChannel (.ofFunction f table oracle) dependent i r (f.loadAddress? i) := by
    simp [instChannel, TaintInput.ofFunction, Option.map_eq_some_iff, eq_comm (a := c)]
  cases rule with
  | policy policy =>
    cases policy with
    | load =>
      rw [hload]
      simp [Function.filled?, Function.sourceAddress?, TaintRule.isOperator, placeNumber]
    | _ =>
      simp [instChannel, TaintInput.ofFunction, Function.filled?, TaintRule.isOperator,
        eq_comm (a := c)]
  | intrinsic taint =>
    cases taint with
    | memoryCopy =>
      simp [instChannel, TaintInput.ofFunction, Function.filled?, Function.sourceAddress?,
        TaintRule.isOperator, placeNumber, copyPlace, eq_comm (a := c)]
    | _ =>
      simp [instChannel, TaintInput.ofFunction, Function.filled?, TaintRule.isOperator,
        eq_comm (a := c)]

theorem mem_channels {c : Channel} :
    c ∈ channels (.ofFunction f table oracle) dependent rules ↔
      (∃ p ∈ f.layoutParams, c = ⟨p, .empty, (DefUse.ofFunction f false).dependenciesOf p⟩) ∨
        ∃ i rule, (i, rule) ∈ rules ∧
          instChannel (.ofFunction f table oracle) dependent i rule = some c := by
  unfold channels
  rw [List.mem_append, List.mem_map, List.mem_filterMap]
  refine or_congr ?_ ?_
  · exact exists_congr fun p => and_congr_right fun _ => eq_comm
  · exact Prod.exists

theorem target_readChannel {input : TaintInput} {i : InstId} {target : Nat}
    {address : Option ValueId} :
    (readChannel input dependent i target address).target = target := by
  unfold readChannel
  split <;> rfl

theorem readChannel_eq (input : TaintInput) (dependent : AscSet ValueId) (i : InstId) (target : Nat)
    (address : Option ValueId) :
    (∃ a, address = some a ∧ a ∈ dependent ∧
      readChannel input dependent i target address = ⟨target, .singleton i, []⟩) ∨
    ((∀ a, address = some a → a ∉ dependent) ∧
      readChannel input dependent i target address = ⟨target, .empty, readPlaces input i⟩) := by
  unfold readChannel
  cases address with
  | none => exact Or.inr ⟨by simp, by simp⟩
  | some a =>
    by_cases ha : a ∈ dependent
    · exact Or.inl ⟨a, rfl, ha, by simp [ha]⟩
    · exact Or.inr ⟨by simp [ha], by simp [ha]⟩

theorem mem_own_readChannel_iff {input : TaintInput} {i x : InstId} {target : Nat}
    {address : Option ValueId} :
    x ∈ (readChannel input dependent i target address).own ↔
      x = i ∧ ∃ a, address = some a ∧ a ∈ dependent := by
  rcases readChannel_eq input dependent i target address with
    ⟨a, ha, hmem, hchannel⟩ | ⟨hplain, hchannel⟩
  · rw [hchannel, AscSet.mem_singleton]
    exact (and_iff_left ⟨a, ha, hmem⟩).symm
  · rw [hchannel]
    refine iff_of_false (AscSet.not_mem_empty x) ?_
    rintro ⟨-, a, ha, hmem⟩
    exact hplain a ha hmem

theorem mem_sources_readChannel_iff {input : TaintInput} {i : InstId} {n target : Nat}
    {address : Option ValueId} :
    n ∈ (readChannel input dependent i target address).sources ↔
      (∀ a, address = some a → a ∉ dependent) ∧ n ∈ readPlaces input i := by
  rcases readChannel_eq input dependent i target address with
    ⟨a, ha, hmem, hchannel⟩ | ⟨hplain, hchannel⟩
  · rw [hchannel]
    exact iff_of_false List.not_mem_nil fun ⟨hplain, _⟩ => hplain a ha hmem
  · rw [hchannel]
    exact (and_iff_right hplain).symm

def Fills (f : Function) (i n : Nat) : Prop :=
  f.definition? n = some (.result i) ∨ n = f.values.size + i

theorem Fills.unique {i j n : Nat} (hi : Fills f i n) (hj : Fills f j n) : i = j := by
  rcases hi with hi | hi
  · rcases hj with hj | hj
    · rw [hi] at hj
      cases hj
      rfl
    · have hlt : n < f.values.size := Function.lt_of_definition? hi
      omega
  · rcases hj with hj | hj
    · have hlt : n < f.values.size := Function.lt_of_definition? hj
      omega
    · omega

theorem Fills.not_param {i n : Nat} {b : BlockId} (hi : Fills f i n)
    (hparam : f.definition? n = some (.param b)) : False := by
  rcases hi with hi | hi
  · rw [hi] at hparam
    cases hparam
  · have hlt : n < f.values.size := Function.lt_of_definition? hparam
    omega

theorem Fills.lt {i n : Nat} (hn : Fills f i n) (hi : i < f.insts.size) :
    n < f.values.size + f.insts.size := by
  rcases hn with hn | hn
  · have hlt : n < f.values.size := Function.lt_of_definition? hn
    omega
  · omega

theorem fills_of_filled? (hd : f.Defined) {i : InstId} (hi : i ∈ f.layoutInsts) {rule : TaintRule}
    {place : DataPlace} (hfilled : f.filled? rule i = some place) :
    Fills f i (placeNumber f place) ∧ placeOf f (placeNumber f place) = place := by
  unfold Function.filled? at hfilled
  split at hfilled
  · obtain ⟨r, hr, rfl⟩ := Option.map_eq_some_iff.mp hfilled
    have hdefined := hd.firstResult?_defined hi hr
    exact ⟨Or.inl hdefined, placeOf_value (Function.lt_of_definition? hdefined)⟩
  · cases hfilled
    exact ⟨Or.inr rfl, placeOf_copied i⟩
  · cases hfilled

theorem fills_of_instChannel (hd : f.Defined) {i : InstId} (hi : i ∈ f.layoutInsts)
    {rule : TaintRule} {c : Channel}
    (hc : instChannel (.ofFunction f table oracle) dependent i rule = some c) :
    Fills f i c.target := by
  rcases instChannel_eq_some_iff.mp hc with ⟨place, hfilled, rfl⟩ | ⟨-, r, hr, rfl⟩
  · rw [target_readChannel]
    exact (fills_of_filled? hd hi hfilled).1
  · exact Or.inl (hd.firstResult?_defined hi hr)

end Channels

section Flow

variable {dependent : AscSet ValueId}
  (hd : f.Defined) (hrules : ∀ i rule, (i, rule) ∈ rules ↔
    i ∈ f.layoutInsts ∧ TaintRule.of f table i = .ok rule)
include hd hrules

theorem channel_unique :
    ∀ c ∈ channels (.ofFunction f table oracle) dependent rules,
      ∀ d ∈ channels (.ofFunction f table oracle) dependent rules, c.target = d.target → c = d := by
  intro c hc d hd' htarget
  rcases mem_channels.mp hc with ⟨p, hp, rfl⟩ | ⟨i, rule, hi, hci⟩
  · obtain ⟨b, hb⟩ := hd.param hp
    rcases mem_channels.mp hd' with ⟨q, hq, rfl⟩ | ⟨j, rule, hj, hdj⟩
    · change p = q at htarget
      rw [htarget]
    · have hfills := fills_of_instChannel hd ((hrules j rule).mp hj).1 hdj
      rw [← htarget] at hfills
      exact (hfills.not_param hb).elim
  · obtain ⟨hi, hrule⟩ := (hrules i rule).mp hi
    have hfills := fills_of_instChannel hd hi hci
    rcases mem_channels.mp hd' with ⟨q, hq, rfl⟩ | ⟨j, rule', hj, hdj⟩
    · obtain ⟨b, hb⟩ := hd.param hq
      rw [htarget] at hfills
      exact (hfills.not_param hb).elim
    · obtain ⟨hj, hrule'⟩ := (hrules j rule').mp hj
      rw [htarget] at hfills
      obtain rfl := hfills.unique (fills_of_instChannel hd hj hdj)
      rw [hrule] at hrule'
      cases hrule'
      rw [hci] at hdj
      exact Option.some_inj.mp hdj

theorem target_lt (h : f.WellFormed) :
    ∀ c ∈ channels (.ofFunction f table oracle) dependent rules,
      c.target < f.values.size + f.insts.size := by
  intro c hc
  rcases mem_channels.mp hc with ⟨p, hp, rfl⟩ | ⟨i, rule, hi, hci⟩
  · obtain ⟨b, hb⟩ := hd.param hp
    exact (Function.lt_of_definition? hb).trans_le (Nat.le_add_right _ _)
  · obtain ⟨hi, -⟩ := (hrules i rule).mp hi
    exact (fills_of_instChannel hd hi hci).lt (h.insts_lt i hi)

omit hd in
theorem own_lt (h : f.WellFormed) :
    ∀ c ∈ channels (.ofFunction f table oracle) dependent rules,
      ∀ x ∈ c.own, x < f.insts.size := by
  intro c hc x hx
  rcases mem_channels.mp hc with ⟨p, -, rfl⟩ | ⟨i, rule, hi, hci⟩
  · exact absurd hx (AscSet.not_mem_empty x)
  · rw [(mem_own_instChannel hci hx).1]
    exact h.insts_lt i ((hrules i rule).mp hi).1

variable (h : f.WellFormed)
  (hdependent : ∀ v, v ∈ dependent ↔ f.DependsOnLoad table v)
include h hdependent

theorem carries_of_holds {n : Nat} {o : InstId}
    (hholds : Channel.Holds (channels (.ofFunction f table oracle) dependent rules) n o) :
    (TaintInput.ofFunction f table oracle).Carries (placeOf f n) o := by
  induction hholds with
  | @own c x hc hx =>
    rcases mem_channels.mp hc with ⟨p, -, rfl⟩ | ⟨i, rule, hi, hci⟩
    · exact absurd hx (AscSet.not_mem_empty x)
    · obtain ⟨hi, hrule⟩ := (hrules i rule).mp hi
      rcases instChannel_eq_some_iff.mp hci with ⟨place, hfilled, rfl⟩ | ⟨-, r, -, rfl⟩
      · obtain ⟨rfl, a, ha, hmem⟩ := mem_own_readChannel_iff.mp hx
        rw [target_readChannel, (fills_of_filled? hd hi hfilled).2]
        exact .origin hi hrule hfilled ha ((hdependent a).mp hmem)
      · exact absurd hx (AscSet.not_mem_empty x)
  | @source c q x hc hq _ ih =>
    rcases mem_channels.mp hc with ⟨p, hp, rfl⟩ | ⟨i, rule, hi, hci⟩
    · obtain ⟨b, hb⟩ := hd.param hp
      have hpasses := (Function.mem_dependenciesOf_param h hd hp).mp hq
      rw [placeOf_value (hd.lt_of_passes h hpasses)] at ih
      rw [placeOf_value (Function.lt_of_definition? hb)]
      exact .passed hpasses ih
    · obtain ⟨hi, hrule⟩ := (hrules i rule).mp hi
      rcases instChannel_eq_some_iff.mp hci with ⟨place, hfilled, rfl⟩ | ⟨hoperator, r, hr, rfl⟩
      · obtain ⟨haddress, hplace⟩ := mem_sources_readChannel_iff.mp hq
        obtain ⟨w, hread, rfl⟩ := mem_readPlaces.mp hplace
        rw [placeOf_writtenData hd hread.laid] at ih
        rw [target_readChannel, (fills_of_filled? hd hi hfilled).2]
        refine .read hi hrule hfilled ?_ hread ih
        intro a ha hdepends
        exact haddress a ha ((hdependent a).mpr hdepends)
      · rw [placeOf_value (hd.args_lt i hi q hq)] at ih
        rw [placeOf_value (Function.lt_of_definition? (hd.firstResult?_defined hi hr))]
        exact .operated hi hrule hoperator hq hr ih

theorem holds_of_carries {place : DataPlace} {o : InstId}
    (hcarries : (TaintInput.ofFunction f table oracle).Carries place o) :
    Channel.Holds (channels (.ofFunction f table oracle) dependent rules) (placeNumber f place)
      o := by
  have hchannel : ∀ {i : InstId} {rule : TaintRule} {place : DataPlace}, i ∈ f.layoutInsts →
      TaintRule.of f table i = .ok rule → f.filled? rule i = some place →
      readChannel (.ofFunction f table oracle) dependent i (placeNumber f place)
        (f.sourceAddress? rule i) ∈ channels (.ofFunction f table oracle) dependent rules :=
    fun hi hrule hfilled => mem_channels.mpr (Or.inr ⟨_, _, (hrules _ _).mpr ⟨hi, hrule⟩,
      instChannel_eq_some_iff.mpr (Or.inl ⟨_, hfilled, rfl⟩)⟩)
  induction hcarries with
  | @origin i rule place a hi hrule hfilled haddress hdepends =>
    have hown := Channel.Holds.own (hchannel hi hrule hfilled)
      (mem_own_readChannel_iff.mpr ⟨rfl, a, haddress, (hdependent a).mpr hdepends⟩)
    rwa [target_readChannel] at hown
  | @read i w o rule place hi hrule hfilled haddress hread _ ih =>
    have hplain : ∀ a, f.sourceAddress? rule i = some a → a ∉ dependent := by
      intro a ha hmem
      exact haddress a ha ((hdependent a).mp hmem)
    have hsource := Channel.Holds.source (hchannel hi hrule hfilled)
      (mem_sources_readChannel_iff.mpr ⟨hplain, mem_readPlaces.mpr ⟨w, hread, rfl⟩⟩) ih
    rwa [target_readChannel] at hsource
  | @operated i o rule v r hi hrule hoperator hv hr _ ih =>
    have hc : (⟨r, .empty, f.args i⟩ : Channel) ∈
        channels (.ofFunction f table oracle) dependent rules :=
      mem_channels.mpr (Or.inr ⟨i, rule, (hrules i rule).mpr ⟨hi, hrule⟩,
        instChannel_eq_some_iff.mpr (Or.inr ⟨hoperator, r, hr, rfl⟩)⟩)
    exact Channel.Holds.source hc hv ih
  | @passed o v p hpasses _ ih =>
    have hp := Function.mem_layoutParams_of_passes hpasses
    have hc : (⟨p, .empty, (DefUse.ofFunction f false).dependenciesOf p⟩ : Channel) ∈
        channels (.ofFunction f table oracle) dependent rules :=
      mem_channels.mpr (Or.inl ⟨p, hp, rfl⟩)
    exact Channel.Holds.source hc ((Function.mem_dependenciesOf_param h hd hp).mpr hpasses) ih

omit hrules h hdependent in
theorem lt_of_carries {v : ValueId} {o : InstId}
    (hcarries : (TaintInput.ofFunction f table oracle).Carries (.value v) o) :
    v < f.values.size := by
  have hfilled : ∀ {i : InstId} {rule : TaintRule}, i ∈ f.layoutInsts →
      f.filled? rule i = some (.value v) → v < f.values.size := by
    intro i rule hi hfilled
    obtain ⟨hfills, hplace⟩ := fills_of_filled? hd hi hfilled
    unfold placeOf at hplace
    split at hplace
    · assumption
    · cases hplace
  cases hcarries with
  | origin hi _ hplace _ _ => exact hfilled hi hplace
  | read hi _ hplace _ _ _ => exact hfilled hi hplace
  | operated hi _ _ _ hr _ => exact Function.lt_of_definition? (hd.firstResult?_defined hi hr)
  | passed hpasses _ =>
    obtain ⟨b, hb⟩ := hd.passes_defined hpasses
    exact Function.lt_of_definition? hb

end Flow

theorem load_of_filled? {i : InstId} {rule : TaintRule} {r : ValueId}
    (h : f.filled? rule i = some (.value r)) :
    rule = .policy .load ∧ f.firstResult? i = some r := by
  unfold Function.filled? at h
  split at h
  · obtain ⟨x, hx, hplace⟩ := Option.map_eq_some_iff.mp h
    cases hplace
    exact ⟨rfl, hx⟩
  · cases h
  · cases h

theorem carries_load_iff (hd : f.Defined) {i o : InstId} {a r : ValueId} (hi : i ∈ f.layoutInsts)
    (hrule : TaintRule.of f table i = .ok (.policy .load)) (haddress : f.loadAddress? i = some a)
    (hdepends : f.DependsOnLoad table a) (hr : f.firstResult? i = some r) :
    (TaintInput.ofFunction f table oracle).Carries (.value r) o ↔ o = i := by
  have hdefined := hd.firstResult?_defined hi hr
  have hsame : ∀ j ∈ f.layoutInsts, f.firstResult? j = some r → j = i := by
    intro j hj hjr
    have hother := hd.firstResult?_defined hj hjr
    rw [hdefined] at hother
    cases hother
    rfl
  constructor
  · intro hcarries
    cases hcarries with
    | origin hj _ hfilled _ _ => exact hsame _ hj (load_of_filled? hfilled).2
    | read hj hrule' hfilled hplain _ _ =>
      obtain ⟨rfl, hjr⟩ := load_of_filled? hfilled
      obtain rfl := hsame _ hj hjr
      exact absurd hdepends (hplain a haddress)
    | operated hj hrule' hoperator _ hjr _ =>
      obtain rfl := hsame _ hj hjr
      change TaintRule.of f table _ = _ at hrule'
      rw [hrule] at hrule'
      cases hrule'
      cases hoperator
    | passed hpasses _ =>
      obtain ⟨b, hb⟩ := hd.passes_defined hpasses
      rw [hdefined] at hb
      cases hb
  · rintro rfl
    refine .origin hi hrule ?_ haddress hdepends
    exact Option.map_eq_some_iff.mpr ⟨r, hr, rfl⟩

theorem originsOf_take {dependent : AscSet ValueId} {holding : Channel.Holding} {n v : Nat}
    (hv : v < n) : originsOf ⟨dependent, holding.take n⟩ v = holding.at v := by
  unfold originsOf Channel.Holding.at
  dsimp only
  rw [Array.take_eq_extract, Array.getElem?_extract, Nat.zero_add]
  split
  · rfl
  · rw [Array.getElem?_eq_none (by omega)]

theorem originsOf_take_of_le {dependent : AscSet ValueId} {holding : Channel.Holding} {n v : Nat}
    (hv : n ≤ v) : originsOf ⟨dependent, holding.take n⟩ v = .empty := by
  unfold originsOf
  dsimp only
  rw [Array.take_eq_extract, Array.getElem?_extract, if_neg (by omega)]
  rfl

/-- Rounds find first the values that depend on a load and then what each place holds. -/
structure FoundByRounds (input : TaintInput) (rules : List (InstId × TaintRule))
    (taint : SpeculativeTaint) (held : Channel.Holding) : Prop where
  dependent : Converges (dependentRound input rules) (fun known v => v ∈ known) .empty
    input.function.values.size taint.addressDependent
  spread : Converges (Channel.round (channels input taint.addressDependent rules)
      (input.function.values.size + input.function.insts.size))
    Channel.Holding.Has
    (Array.replicate (input.function.values.size + input.function.insts.size) .empty)
    ((input.function.values.size + input.function.insts.size) * input.function.insts.size) held
  origins : taint.origins = held.take input.function.values.size

/-- When every instruction of the layout has a rule, the analysis succeeds, and rounds from nothing
on come to its least solution.  The values that it finds to depend on loads are those that do, the
origins that it finds for a value or a copy are those that the data there may come from, and a load
whose address depends on a load is the only origin of what it loads. -/
theorem compute_finds_flow (f : Function) (h : f.WellFormed) (hd : f.Defined)
    (table : IntrinsicTable) (oracle : AliasOracle)
    (hall : ∀ i ∈ f.layoutInsts, ∃ rule, TaintRule.of f table i = .ok rule) :
    ∃ rules taint held, taintRules f table = .ok rules ∧
      compute (.ofFunction f table oracle) = .ok taint ∧
      FoundByRounds (.ofFunction f table oracle) rules taint held ∧
      (∀ v, v ∈ taint.addressDependent ↔ f.DependsOnLoad table v) ∧
      (∀ v o, o ∈ taint.originsOf v ↔
        (TaintInput.ofFunction f table oracle).Carries (.value v) o) ∧
      (∀ i o, o ∈ held.at (copyPlace (.ofFunction f table oracle) i) ↔
        (TaintInput.ofFunction f table oracle).Carries (.copied i) o) ∧
      ∀ i ∈ f.layoutInsts, ∀ a r, TaintRule.of f table i = .ok (.policy .load) →
        f.loadAddress? i = some a → f.DependsOnLoad table a → f.firstResult? i = some r →
          taint.originsOf r = .singleton i := by
  obtain ⟨rules, hrules⟩ := exists_taintRules hall
  have hmem := (taintRules_eq_ok hrules).2
  let dependent := dependentValues (.ofFunction f table oracle) rules
  let held := Channel.spread (channels (.ofFunction f table oracle) dependent rules)
    (f.values.size + f.insts.size) f.insts.size
  have hdependent : ∀ v, v ∈ dependent ↔ f.DependsOnLoad table v := fun v =>
    mem_dependentValues_iff h hd hmem
  have hheld : ∀ n o, o ∈ held.at n ↔
      Channel.Holds (channels (.ofFunction f table oracle) dependent rules) n o := fun n o =>
    Channel.mem_at_spread_iff (channel_unique hd hmem) (target_lt hd hmem h) (own_lt hmem h)
  have hrounds : FoundByRounds (.ofFunction f table oracle) rules
      ⟨dependent, held.take f.values.size⟩ held := by
    refine ⟨converges_dependentValues h hd hmem, ?_, rfl⟩
    exact Channel.converges_spread (channel_unique hd hmem) (own_lt hmem h)
  have horigins : ∀ v o, o ∈ originsOf ⟨dependent, held.take f.values.size⟩ v ↔
      (TaintInput.ofFunction f table oracle).Carries (.value v) o := by
    intro v o
    constructor
    · intro ho
      have hv : v < f.values.size := by
        by_contra hv
        rw [originsOf_take_of_le (Nat.not_lt.mp hv)] at ho
        exact AscSet.not_mem_empty o ho
      rw [originsOf_take hv] at ho
      have hcarries := carries_of_holds hd hmem h hdependent ((hheld v o).mp ho)
      rwa [placeOf_value hv] at hcarries
    · intro hcarries
      rw [originsOf_take (lt_of_carries hd hcarries)]
      exact (hheld v o).mpr (holds_of_carries hd hmem h hdependent hcarries)
  have hcopied : ∀ i o, o ∈ held.at (f.values.size + i) ↔
      (TaintInput.ofFunction f table oracle).Carries (.copied i) o := by
    intro i o
    rw [hheld]
    constructor
    · intro hholds
      have hcarries := carries_of_holds hd hmem h hdependent hholds
      rwa [placeOf_copied] at hcarries
    · exact holds_of_carries hd hmem h hdependent
  refine ⟨rules, _, held, hrules, Except.bind_eq_ok_iff.mpr ⟨rules, hrules, rfl⟩, hrounds,
    hdependent, horigins, hcopied, ?_⟩
  intro i hi a r hrule haddress hdepends hr
  refine AscSet.ext fun o => ?_
  rw [AscSet.mem_singleton, ← carries_load_iff hd hi hrule haddress hdepends hr]
  exact horigins r o

/-- A loop keeps what a load whose address was loaded gave, and stores it where it loads it
again. -/
def reloadLoop : Function := .build ⟨.numbered 0 0, [], [],
  [⟨[⟨.i64, 1⟩], [⟨.load, [0], .offset 0, some ⟨.i64, 1⟩, [⟨.i64, 1⟩]⟩,
      ⟨.load, [2], .offset 0, some ⟨.i64, 1⟩, [⟨.i64, 1⟩]⟩,
      ⟨.jump, [], .targets [⟨1, [3]⟩], none, []⟩]⟩,
    ⟨[⟨.i64, 1⟩], [⟨.iadd, [1, 1], .none, some ⟨.i64, 1⟩, [⟨.i64, 1⟩]⟩,
      ⟨.store, [4, 0], .offset 0, none, []⟩,
      ⟨.load, [0], .offset 0, some ⟨.i64, 1⟩, [⟨.i64, 1⟩]⟩,
      ⟨.jump, [], .targets [⟨1, [5]⟩], none, []⟩]⟩], none⟩

/-- What the first load reads before the loop may be what the loop stored, and the second load is
the only origin of what it loads. -/
theorem compute_reloadLoop :
    ∃ taint, compute (.ofFunction reloadLoop .empty .conservative) = .ok taint ∧
      1 ∈ taint.originsOf 2 ∧ taint.originsOf 3 = .singleton 1 ∧ 0 ∉ taint.addressDependent := by
  have hd : reloadLoop.Defined := Function.build_defined (by decide)
  have hallowed : ∀ i ∈ reloadLoop.layoutInsts,
      (TaintRule.of reloadLoop .empty i).isOk = true := by decide +kernel
  have hrules : ∀ i ∈ reloadLoop.layoutInsts,
      ∃ rule, TaintRule.of reloadLoop .empty i = .ok rule := by
    intro i hi
    have hok := hallowed i hi
    cases hrule : TaintRule.of reloadLoop .empty i with
    | error subject =>
      rw [hrule] at hok
      cases hok
    | ok rule => exact ⟨rule, rfl⟩
  obtain ⟨rules, taint, held, -, hok, -, hdependent, horigins, -, hload⟩ :=
    compute_finds_flow reloadLoop (by decide +kernel) hd .empty .conservative hrules
  have hloaded : reloadLoop.DependsOnLoad .empty 2 :=
    .loaded (i := 0) (by decide +kernel) (by decide +kernel) (by decide +kernel)
  have hparam : ¬ reloadLoop.DependsOnLoad .empty 0 := by
    have hdefined : reloadLoop.definition? 0 = some (.param 0) := by decide +kernel
    have hunfed : ∀ i ∈ reloadLoop.layoutInsts, ∀ call ∈ reloadLoop.targets i,
        ∀ x ∈ (reloadLoop.blockParams call.block).zip call.args, x.1 ≠ 0 := by decide +kernel
    have hresult : ∀ i ∈ reloadLoop.layoutInsts, reloadLoop.firstResult? i ≠ some 0 := by
      decide +kernel
    intro hdepends
    cases hdepends with
    | loaded hi _ hr => exact hresult _ hi hr
    | operated hi _ _ _ hr _ => exact hresult _ hi hr
    | passed hp _ =>
      obtain ⟨a, i, call, hlast, -, hcall, -, hmem⟩ := hp
      have hwell : reloadLoop.WellFormed := Function.build_wellFormed (by decide)
      have hi := hwell.mem_layoutInsts.mpr ⟨a, List.mem_of_mem_getLast? hlast⟩
      exact hunfed i hi call hcall _ hmem rfl
  have hpassed : reloadLoop.Passes 3 1 :=
    ⟨0, 2, ⟨1, [3]⟩, by decide +kernel, by decide +kernel, by decide +kernel, by decide +kernel,
      by decide +kernel⟩
  have hfirst : TaintRule.of reloadLoop .empty 0 = .ok (.policy .load) := by decide +kernel
  have hsecond : TaintRule.of reloadLoop .empty 1 = .ok (.policy .load) := by decide +kernel
  have hsum : TaintRule.of reloadLoop .empty 3 = .ok (.policy .pure) := by decide +kernel
  refine ⟨taint, hok, (horigins 2 1).mpr ?_, ?_, fun h0 => hparam ((hdependent 0).mp h0)⟩
  · -- the load reads the sum that the loop stores, of the value that the second load passes it
    have hread : (TaintInput.ofFunction reloadLoop .empty .conservative).MayRead 0 4 :=
      ⟨by decide +kernel, by decide, by decide +kernel, by decide +kernel⟩
    refine .read (by decide +kernel) hfirst rfl ?_ hread ?_
    · rintro a ha
      obtain rfl : a = 0 := Option.some_inj.mp (ha.symm.trans (by decide +kernel))
      exact hparam
    · have hresult : reloadLoop.firstResult? 3 = some 4 := by decide +kernel
      have hoperand : 1 ∈ reloadLoop.args 3 := by decide +kernel
      refine .operated (by decide +kernel) hsum rfl hoperand hresult (.passed hpassed ?_)
      exact .origin (by decide +kernel) hsecond rfl rfl hloaded
  · exact hload 1 (by decide +kernel) 2 3 (by decide +kernel) (by decide +kernel) hloaded
      (by decide +kernel)

end SpeculativeTaint

end SpecFence
