import SpecFence.Proofs.Publicity
import SpecFence.Proofs.Resolution
import SpecFence.Proofs.TaintFlow

/-!
# More precise oracles

An oracle that leaves fewer accesses in doubt gives fewer origins, and one that recognises more
accesses to the same bytes gives more public values.  Both hold between the conservative oracle and
the basic one, unless values are defined from each other in a circle: the basic oracle resolves what
is written alike to the same base and offset.
-/

set_option autoImplicit false

namespace SpecFence

section Strongest

namespace AliasResult

variable {r s : AliasResult} {l : List AliasResult}

theorem mayAlias_strongest : (r.strongest s).mayAlias = true ↔
    r.mayAlias = true ∨ s.mayAlias = true := by
  cases r <;> cases s <;> decide

theorem strongest_eq_must : r.strongest s = .must ↔ r = .must ∨ s = .must := by
  cases r <;> cases s <;> decide

theorem mayAlias_foldl_strongest : (l.foldl strongest r).mayAlias = true ↔
    r.mayAlias = true ∨ ∃ s ∈ l, s.mayAlias = true := by
  induction l generalizing r with
  | nil => simp
  | cons s l ih => simp [ih, mayAlias_strongest, or_assoc]

theorem foldl_strongest_eq_must : l.foldl strongest r = .must ↔ r = .must ∨ .must ∈ l := by
  induction l generalizing r with
  | nil => simp
  | cons s l ih => simp [ih, strongest_eq_must, or_assoc, eq_comm (a := s)]

end AliasResult

end Strongest

namespace AliasOracle

variable {f : Function} {table : IntrinsicTable} {oracle : AliasOracle} {i w : InstId}

theorem loadStore_eq_foldl : oracle.loadStore f table i w =
    ((f.reads table i).flatMap fun a => (f.writes table w).map fun b => oracle f a b).foldl
      AliasResult.strongest .no := by
  simp only [loadStore, List.foldl_flatMap, List.foldl_map]

theorem mayAlias_loadStore : (oracle.loadStore f table i w).mayAlias = true ↔
    ∃ a ∈ f.reads table i, ∃ b ∈ f.writes table w, (oracle f a b).mayAlias = true := by
  rw [loadStore_eq_foldl, AliasResult.mayAlias_foldl_strongest]
  simp [AliasResult.mayAlias]

theorem loadStore_eq_must : oracle.loadStore f table i w = .must ↔
    ∃ a ∈ f.reads table i, ∃ b ∈ f.writes table w, oracle f a b = .must := by
  rw [loadStore_eq_foldl, AliasResult.foldl_strongest_eq_must]
  simp

end AliasOracle

namespace Channel

/-- The second channel brings to its target at least what the first one brings there. -/
structure Within (c d : Channel) : Prop where
  target : c.target = d.target
  own : ∀ x ∈ c.own, x ∈ d.own
  sources : ∀ p ∈ c.sources, p ∈ d.sources

theorem Within.refl (c : Channel) : c.Within c := ⟨rfl, fun _ h => h, fun _ h => h⟩

theorem Holds.mono {channels channels' : List Channel}
    (h : ∀ c ∈ channels, ∃ d ∈ channels', c.Within d) {place x : Nat}
    (hholds : Holds channels place x) : Holds channels' place x := by
  induction hholds with
  | own hc hx =>
    obtain ⟨d, hd, hwithin⟩ := h _ hc
    rw [hwithin.target]
    exact .own hd (hwithin.own _ hx)
  | source hc hp _ ih =>
    obtain ⟨d, hd, hwithin⟩ := h _ hc
    rw [hwithin.target]
    exact .source hd (hwithin.sources _ hp) ih

end Channel

namespace SpeculativeTaint

variable {f : Function} {table : IntrinsicTable} {A B : AliasOracle}
  {dependent : AscSet ValueId} {rules : List (InstId × TaintRule)}

theorem within_readChannel (hAB : ∀ a b, (A f a b).mayAlias = true → (B f a b).mayAlias = true)
    (i : InstId) (target : Nat) (address : Option ValueId) :
    (readChannel (.ofFunction f table A) dependent i target address).Within
      (readChannel (.ofFunction f table B) dependent i target address) where
  target := target_readChannel.trans target_readChannel.symm
  own x hx := mem_own_readChannel_iff.mpr (mem_own_readChannel_iff.mp hx)
  sources p hp := by
    obtain ⟨hplain, hread⟩ := mem_sources_readChannel_iff.mp hp
    obtain ⟨w, ⟨hlaid, hother, hwrites, halias⟩, rfl⟩ := mem_readPlaces.mp hread
    obtain ⟨a, ha, b, hb, hmay⟩ := AliasOracle.mayAlias_loadStore.mp halias
    refine mem_sources_readChannel_iff.mpr ⟨hplain, mem_readPlaces.mpr ⟨w, ?_, rfl⟩⟩
    exact ⟨hlaid, hother, hwrites, AliasOracle.mayAlias_loadStore.mpr ⟨a, ha, b, hb, hAB a b hmay⟩⟩

theorem within_channels (hAB : ∀ a b, (A f a b).mayAlias = true → (B f a b).mayAlias = true) :
    ∀ c ∈ channels (.ofFunction f table A) dependent rules,
      ∃ d ∈ channels (.ofFunction f table B) dependent rules, c.Within d := by
  intro c hc
  obtain hparam | ⟨i, rule, hi, hinst⟩ := mem_channels.mp hc
  · exact ⟨c, mem_channels.mpr (.inl hparam), .refl c⟩
  · obtain ⟨place, hfilled, rfl⟩ | hoperator := instChannel_eq_some_iff.mp hinst
    · refine ⟨_, mem_channels.mpr (.inr ⟨i, rule, hi, instChannel_eq_some_iff.mpr (.inl ?_)⟩),
        within_readChannel hAB i _ _⟩
      exact ⟨place, hfilled, rfl⟩
    · exact ⟨c, mem_channels.mpr (.inr ⟨i, rule, hi, instChannel_eq_some_iff.mpr (.inr hoperator)⟩),
        .refl c⟩

theorem mem_originsOf_compute (h : f.WellFormed) (hd : f.Defined) {taint : SpeculativeTaint}
    (hrules : taintRules f table = .ok rules) (hok : compute (.ofFunction f table A) = .ok taint)
    {v : ValueId} {o : InstId} : o ∈ taint.originsOf v ↔ v < f.values.size ∧
      Channel.Holds (channels (.ofFunction f table A)
        (dependentValues (.ofFunction f table A) rules) rules) v o := by
  obtain ⟨rules', hrules', hok⟩ := Except.bind_eq_ok_iff.mp hok
  obtain rfl : rules = rules' := Except.ok.inj (hrules.symm.trans hrules')
  rw [Except.pure_eq_ok_iff] at hok
  have hmem := (taintRules_eq_ok hrules).2
  rw [← hok, ← Channel.mem_at_spread_iff (channel_unique hd hmem) (target_lt hd hmem h)
    (own_lt hmem h)]
  by_cases hv : v < f.values.size
  · rw [and_iff_right hv, ← originsOf_take hv]
    rfl
  · refine iff_of_false (fun ho => ?_) fun hx => hv hx.1
    exact AscSet.not_mem_empty o (originsOf_take_of_le (Nat.not_lt.mp hv) ▸ ho)

theorem origins_mono (h : f.WellFormed) (hd : f.Defined)
    (hAB : ∀ a b, (A f a b).mayAlias = true → (B f a b).mayAlias = true)
    {taintA taintB : SpeculativeTaint} (hA : compute (.ofFunction f table A) = .ok taintA)
    (hB : compute (.ofFunction f table B) = .ok taintB) (v : ValueId) :
    ∀ o ∈ taintA.originsOf v, o ∈ taintB.originsOf v := by
  obtain ⟨rules, hrules, -⟩ := Except.bind_eq_ok_iff.mp hA
  intro o ho
  obtain ⟨hv, hholds⟩ := (mem_originsOf_compute h hd hrules hA).mp ho
  exact (mem_originsOf_compute h hd hrules hB).mpr ⟨hv, hholds.mono (within_channels hAB)⟩

end SpeculativeTaint

/-- The types of all values have sizes that are held as 32-bit numbers. -/
def Function.Sized (f : Function) : Prop := ∀ x ∈ f.values, x.type.bytes < 0x100000000

instance (f : Function) : Decidable f.Sized :=
  inferInstanceAs (Decidable (∀ x ∈ f.values, x.type.bytes < 0x100000000))

section Memory

variable {f : Function} {table : IntrinsicTable}

theorem Function.Sized.bytes_typeOf_lt (h : f.Sized) (v : ValueId) :
    (f.typeOf v).bytes < 0x100000000 := by
  unfold typeOf
  cases hv : f.values[v]? with
  | none => decide
  | some x => exact h x (Array.mem_of_getElem? hv)

theorem Opcode.accessBytes_le (op : Opcode) (t : Ty) : op.accessBytes t ≤ max 8 t.bytes := by
  unfold accessBytes
  split <;> omega

theorem Function.Sized.of_mem_writes (h : f.Sized) {w : InstId} {stored : ValueId}
    {address : Option ValueId} (hstore : f.storeOperands? w = some (stored, address))
    {b : MemoryLocation} (hb : b ∈ f.writes table w) : ∃ n < 0x100000000, b.size = some n := by
  have hle := (f.opcode w).accessBytes_le (f.typeOf stored)
  have hlt := h.bytes_typeOf_lt stored
  refine ⟨(f.opcode w).accessBytes (f.typeOf stored), by omega, ?_⟩
  cases address with
  | none | some a =>
    simp only [writes, hstore, List.mem_singleton] at hb
    rw [hb]
    rfl

theorem AliasOracle.basic_eq_must (hacyclic : Acyclic f) {a b : MemoryLocation} {n : Nat}
    (hn : n < 0x100000000) (hsize : b.size = some n) (h : conservative f a b = .must) :
    basic f a b = .must := by
  have hsame : a.address = b.address ∧ a.offset = b.offset ∧ a.size.isSome ∧ a.size = b.size := by
    by_contra hdiffer
    rw [conservative, if_neg hdiffer] at h
    cases h
  obtain ⟨haddress, hoffset, -, hsizes⟩ := hsame
  obtain ⟨⟨base, offset⟩, hresolve⟩ := hacyclic.exists_resolve? b.address
  have hknown : n ≤ 0x7FFFFFFFFFFFFFFF := by omega
  simp [basic, haddress, hresolve, hoffset, knownSize?, hsizes, hsize, hknown, ranges]

theorem AliasOracle.mayAlias_conservative (f : Function) (a b : MemoryLocation) :
    (conservative f a b).mayAlias = true := by
  unfold conservative
  split <;> rfl

end Memory

section Reloads

variable {f : Function} {table : IntrinsicTable} {A B : AliasOracle} {loaded stored : ValueId}

theorem TaintInput.Reloads.mono (hAB : ∀ a b, A f a b = .must → B f a b = .must)
    (h : (TaintInput.ofFunction f table A).Reloads loaded stored) :
    (TaintInput.ofFunction f table B).Reloads loaded stored := by
  obtain ⟨i, w, address, hi, hw, hrule, hloaded, hstore, hmust⟩ := h
  obtain ⟨a, ha, b, hb, hsame⟩ := AliasOracle.loadStore_eq_must.mp hmust
  exact ⟨i, w, address, hi, hw, hrule, hloaded, hstore,
    AliasOracle.loadStore_eq_must.mpr ⟨a, ha, b, hb, hAB a b hsame⟩⟩

theorem TaintInput.Reloads.basic (hacyclic : AliasOracle.Acyclic f) (hsized : f.Sized)
    (h : (TaintInput.ofFunction f table .conservative).Reloads loaded stored) :
    (TaintInput.ofFunction f table .basic).Reloads loaded stored := by
  obtain ⟨i, w, address, hi, hw, hrule, hloaded, hstore, hmust⟩ := h
  obtain ⟨a, ha, b, hb, hsame⟩ := AliasOracle.loadStore_eq_must.mp hmust
  obtain ⟨n, hn, hsize⟩ := hsized.of_mem_writes hstore hb
  exact ⟨i, w, address, hi, hw, hrule, hloaded, hstore, AliasOracle.loadStore_eq_must.mpr
    ⟨a, ha, b, hb, AliasOracle.basic_eq_must hacyclic hn hsize hsame⟩⟩

theorem TaintInput.Closed.of_reloads {known : ValueId → Prop}
    (h : (TaintInput.ofFunction f table B).Closed known)
    (hAB : ∀ loaded stored, (TaintInput.ofFunction f table A).Reloads loaded stored →
      (TaintInput.ofFunction f table B).Reloads loaded stored) :
    (TaintInput.ofFunction f table A).Closed known where
  shown := h.shown
  param := h.param
  operated := h.operated
  inverted := h.inverted
  invertedGiven := h.invertedGiven
  reloaded loaded stored hreloads := h.reloaded loaded stored (hAB loaded stored hreloads)

theorem PublicValues.values_mono (h : f.WellFormed) (hd : f.Defined)
    (hAB : ∀ loaded stored, (TaintInput.ofFunction f table A).Reloads loaded stored →
      (TaintInput.ofFunction f table B).Reloads loaded stored)
    {foundA foundB : PublicValues} (hA : compute (.ofFunction f table A) = .ok foundA)
    (hB : compute (.ofFunction f table B) = .ok foundB) :
    ∀ v ∈ foundA.values, v ∈ foundB.values :=
  (least_of_compute h hd hA).2 _ ((least_of_compute h hd hB).1.of_reloads hAB)

end Reloads

namespace AliasOracle

/-- The analyses succeed with every oracle.  Oracles that leave more accesses in doubt only add
origins, and oracles that recognise more accesses to the same bytes only add public values.  Unless
values are defined from each other in a circle, the basic oracle gives no origins that the
conservative one does not give, and all of its public values. -/
theorem analyses_mono (f : Function) (h : f.WellFormed) (hd : f.Defined) (table : IntrinsicTable)
    (hrules : ∀ i ∈ f.layoutInsts, ∃ rule, TaintRule.of f table i = .ok rule) :
    ∃ (taint : AliasOracle → SpeculativeTaint) (found : AliasOracle → PublicValues),
      (∀ A, SpeculativeTaint.compute (.ofFunction f table A) = .ok (taint A)) ∧
      (∀ A, PublicValues.compute (.ofFunction f table A) = .ok (found A)) ∧
      (∀ A B, (∀ a b, (A f a b).mayAlias = true → (B f a b).mayAlias = true) →
        ∀ v, ∀ o ∈ (taint A).originsOf v, o ∈ (taint B).originsOf v) ∧
      (∀ A B, (∀ a b, A f a b = .must → B f a b = .must) →
        ∀ v ∈ (found A).values, v ∈ (found B).values) ∧
      (Acyclic f →
        (∀ v, ∀ o ∈ (taint .basic).originsOf v, o ∈ (taint .conservative).originsOf v) ∧
        (f.Sized → ∀ v ∈ (found .conservative).values, v ∈ (found .basic).values)) := by
  have htaint : ∀ A, ∃ taint, SpeculativeTaint.compute (.ofFunction f table A) = .ok taint :=
    fun A => SpeculativeTaint.exists_compute hrules
  have hfound : ∀ A, ∃ found, PublicValues.compute (.ofFunction f table A) = .ok found :=
    fun A => PublicValues.exists_compute hrules
  choose taint htaint using htaint
  choose found hfound using hfound
  refine ⟨taint, found, htaint, hfound, ?_, ?_, fun hacyclic => ⟨?_, ?_⟩⟩
  · intro A B hAB
    exact SpeculativeTaint.origins_mono h hd hAB (htaint A) (htaint B)
  · intro A B hAB
    exact PublicValues.values_mono h hd (fun _ _ => .mono hAB) (hfound A) (hfound B)
  · exact SpeculativeTaint.origins_mono h hd (fun a b _ => mayAlias_conservative f a b)
      (htaint .basic) (htaint .conservative)
  · intro hsized
    exact PublicValues.values_mono h hd (fun _ _ => .basic hacyclic hsized)
      (hfound .conservative) (hfound .basic)

/-- What was loaded under misspeculation is stored to one global, and another one is loaded; a
parameter is stored into the first global and loaded from there. -/
def twoGlobals : Function := .build ⟨.numbered 0 0, [], ["first", "second"],
  [⟨[⟨.i64, 1⟩, ⟨.i64, 1⟩], [⟨.symbolValue, [], .globalName 0, some ⟨.i64, 1⟩, [⟨.i64, 1⟩]⟩,
    ⟨.symbolValue, [], .globalName 1, some ⟨.i64, 1⟩, [⟨.i64, 1⟩]⟩,
    ⟨.load, [0], .offset 0, some ⟨.i64, 1⟩, [⟨.i64, 1⟩]⟩,
    ⟨.load, [4], .offset 0, some ⟨.i64, 1⟩, [⟨.i64, 1⟩]⟩,
    ⟨.store, [5, 2], .offset 0, none, []⟩,
    ⟨.load, [3], .offset 0, some ⟨.i64, 1⟩, [⟨.i64, 1⟩]⟩,
    ⟨.iaddImm, [2], .immediate 8, some ⟨.i64, 1⟩, [⟨.i64, 1⟩]⟩,
    ⟨.store, [1, 7], .offset 0, none, []⟩,
    ⟨.load, [2], .offset 8, some ⟨.i64, 1⟩, [⟨.i64, 1⟩]⟩,
    ⟨.load, [8], .offset 0, some ⟨.i64, 1⟩, [⟨.i64, 1⟩]⟩,
    ⟨.ret, [], .none, none, []⟩]⟩], none⟩

/-- The basic oracle tells the globals apart and finds the parameter again. -/
theorem analyses_twoGlobals :
    ∃ (taint : AliasOracle → SpeculativeTaint) (found : AliasOracle → PublicValues),
      (∀ A, SpeculativeTaint.compute (.ofFunction twoGlobals .empty A) = .ok (taint A)) ∧
      (∀ A, PublicValues.compute (.ofFunction twoGlobals .empty A) = .ok (found A)) ∧
      (∀ v, ∀ o ∈ (taint (.always .no)).originsOf v, o ∈ (taint .basic).originsOf v) ∧
      (∀ v, ∀ o ∈ (taint .basic).originsOf v, o ∈ (taint .conservative).originsOf v) ∧
      3 ∉ (taint .basic).originsOf 6 ∧ 3 ∈ (taint .conservative).originsOf 6 ∧
      (∀ v ∈ (found (.always .may)).values, v ∈ (found .conservative).values) ∧
      (∀ v ∈ (found .conservative).values, v ∈ (found .basic).values) ∧
      1 ∉ (found .conservative).values ∧ 1 ∈ (found .basic).values := by
  have hacyclic : Acyclic twoGlobals := acyclic_of_lt (by decide +kernel)
  obtain ⟨taint, found, htaint, hfound, hmay, hmust, hbasic⟩ :=
    analyses_mono twoGlobals (by decide +kernel) (by decide +kernel) .empty (by decide +kernel)
  have hfine : (SpeculativeTaint.compute (.ofFunction twoGlobals .empty .basic)).toOption.any
      (fun t => 3 ∉ t.originsOf 6) = true := by decide +kernel
  have hcoarse : (SpeculativeTaint.compute
      (.ofFunction twoGlobals .empty .conservative)).toOption.any
      (fun t => 3 ∈ t.originsOf 6) = true := by decide +kernel
  have hsecret : (PublicValues.compute (.ofFunction twoGlobals .empty .conservative)).toOption.any
      (fun t => 1 ∉ t.values) = true := by decide +kernel
  have hpublic : (PublicValues.compute (.ofFunction twoGlobals .empty .basic)).toOption.any
      (fun t => 1 ∈ t.values) = true := by decide +kernel
  rw [htaint] at hfine hcoarse
  rw [hfound] at hsecret hpublic
  refine ⟨taint, found, htaint, hfound, ?_, (hbasic hacyclic).1, of_decide_eq_true hfine,
    of_decide_eq_true hcoarse, ?_, (hbasic hacyclic).2 (by decide +kernel),
    of_decide_eq_true hsecret, of_decide_eq_true hpublic⟩
  · exact hmay (.always .no) .basic fun a b hnone => nomatch hnone
  · exact hmust (.always .may) .conservative fun a b hnone => nomatch hnone

end AliasOracle

end SpecFence
