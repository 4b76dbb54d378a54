import SpecFence.Proofs.ResultTaint

/-!
# Flow through memory

Whether an instruction loads or stores is decided by what its operation can do, but the memory that
it touches and the data that it stores are read off its format.  The two agree on plain, narrow and
atomic accesses and on those to stack slots.  They do not agree on dynamic stack slots: these
accesses count as loads and stores, but touch no memory that an oracle is asked about.  Under an
oracle that rules nothing out, every other load gets the origins of everything that is stored.
-/

set_option autoImplicit false

namespace SpecFence

/-- The number of operands of the instructions of a format; calls and returns have any number. -/
def Format.operands? : Format → Option Nat
  | .call | .callIndirect | .multiary => none
  | .atomicCas | .ternary => some 3
  | .atomicRmw | .binary | .floatCompare | .intAddTrap | .intCompare | .shuffle | .store
  | .storeNoOffset | .ternaryImm8 => some 2
  | .binaryImm64 | .binaryImm8 | .branchTable | .brif | .condTrap | .dynamicStackStore
  | .intCompareImm | .load | .loadNoOffset | .stackStore | .unary => some 1
  | .dynamicStackLoad | .funcAddr | .jump | .nullary | .stackLoad | .trap | .unaryConst
  | .unaryGlobalValue | .unaryFloat32 | .unaryFloat64 | .unaryImm => some 0

namespace Function

def Shaped (f : Function) : Prop :=
  ∀ i ∈ f.layoutInsts, ∀ n ∈ (f.opcode i).format.operands?, (f.args i).length = n

instance (f : Function) : Decidable f.Shaped :=
  inferInstanceAs (Decidable (∀ i ∈ f.layoutInsts, ∀ n ∈ (f.opcode i).format.operands?,
    (f.args i).length = n))

/-- A store, other than one to a dynamic stack slot, or a memory fill writes the data of a value. -/
def StoresValue (f : Function) (table : IntrinsicTable) (w : InstId) (v : ValueId) : Prop :=
  ((f.opcode w).valuePolicy = .store ∧ f.opcode w ≠ .dynamicStackStore ∧
      (f.args w).head? = some v) ∨
    (table.calledBy? f w = some .memset ∧ ∃ target length, f.args w = [target, v, length])

def CopiesMemory (f : Function) (table : IntrinsicTable) (w : InstId) : Prop :=
  (table.calledBy? f w = some .memcpy ∨ table.calledBy? f w = some .memmove) ∧
    (f.args w).length = 3

end Function

variable {f : Function} {table : IntrinsicTable} {oracle : AliasOracle} {i w : InstId}

section Accesses

theorem Opcode.valuePolicy_eq_store_iff {o : Opcode} : o.valuePolicy = .store ↔
    (o.format = .store ∨ o = .atomicStore) ∨ o.format = .stackStore ∨ o = .dynamicStackStore ∨
      o = .debugtrap := by
  cases o <;> decide

theorem calledBy?_eq_none (h : (f.opcode i).format ≠ .call) : table.calledBy? f i = none := by
  cases hcalled : table.calledBy? f i with
  | none => rfl
  | some intrinsic => exact absurd (format_of_calledBy? hcalled) h

theorem Function.Shaped.length_args (hs : f.Shaped) (hi : i ∈ f.layoutInsts) {n : Nat}
    (hn : (f.opcode i).format.operands? = some n) : (f.args i).length = n :=
  hs i hi n hn

theorem reads_eq_nil_iff (hs : f.Shaped) (hi : i ∈ f.layoutInsts)
    (hload : (f.opcode i).valuePolicy = .load) :
    f.reads table i = [] ↔ f.opcode i = .dynamicStackLoad := by
  rcases Opcode.valuePolicy_eq_load_iff.mp hload with hplain | hstack | hdynamic
  · have hone : (f.args i).length = 1 := by
      rcases hplain with hformat | hatomic
      · exact hs.length_args hi (by rw [hformat]; rfl)
      · exact hs.length_args hi (by rw [hatomic]; rfl)
    obtain ⟨a, ha⟩ := List.length_eq_one_iff.mp hone
    have haddress : f.loadAddress? i = some a := by
      rw [Function.loadAddress?, if_pos hplain, ha, List.head?_cons]
    refine iff_of_false (by simp [Function.reads, haddress]) ?_
    rintro hdynamic
    rw [hdynamic] at hplain
    exact absurd hplain (by decide)
  · have haddress : f.loadAddress? i = none := by
      rw [Function.loadAddress?, hstack, if_neg (by decide)]
    have hopcode : (f.inst i).opcode = .stackLoad := hstack
    refine iff_of_false (by simp [Function.reads, haddress, hopcode]) ?_
    rw [hstack]
    decide
  · have haddress : f.loadAddress? i = none := by
      rw [Function.loadAddress?, hdynamic, if_neg (by decide)]
    have hopcode : (f.inst i).opcode = .dynamicStackLoad := hdynamic
    have hcalled : table.calledBy? f i = none := calledBy?_eq_none (by rw [hdynamic]; decide)
    exact iff_of_true (by simp [Function.reads, haddress, hopcode, hcalled]) hdynamic

theorem store_of_storeOperands? {v : ValueId} {address : Option ValueId}
    (h : f.storeOperands? w = some (v, address)) : (f.opcode w).valuePolicy = .store ∧
      f.opcode w ≠ .dynamicStackStore ∧ (f.args w).head? = some v := by
  unfold Function.storeOperands? at h
  split at h
  · rename_i hplain
    split at h
    · rename_i data a rest hargs
      cases h
      refine ⟨Opcode.valuePolicy_eq_store_iff.mpr (.inl hplain), ?_, by rw [hargs]; rfl⟩
      rintro hdynamic
      rw [hdynamic] at hplain
      exact absurd hplain (by decide)
    · cases h
  · split at h
    · rename_i hstack
      obtain ⟨data, hdata, heq⟩ := Option.map_eq_some_iff.mp h
      cases heq
      refine ⟨Opcode.valuePolicy_eq_store_iff.mpr (.inr (.inl hstack)), ?_, hdata⟩
      rintro hdynamic
      rw [hdynamic] at hstack
      exact absurd hstack (by decide)
    · cases h

theorem exists_storeOperands? (hs : f.Shaped) (hw : w ∈ f.layoutInsts) {v : ValueId}
    (hstore : (f.opcode w).valuePolicy = .store) (hstatic : f.opcode w ≠ .dynamicStackStore)
    (hdata : (f.args w).head? = some v) : ∃ address, f.storeOperands? w = some (v, address) := by
  rcases Opcode.valuePolicy_eq_store_iff.mp hstore with hplain | hstack | hdynamic | htrap
  · have htwo : (f.args w).length = 2 := by
      rcases hplain with hformat | hatomic
      · exact hs.length_args hw (by rw [hformat]; rfl)
      · exact hs.length_args hw (by rw [hatomic]; rfl)
    obtain ⟨data, a, hargs⟩ := List.length_eq_two.mp htwo
    rw [hargs, List.head?_cons] at hdata
    cases hdata
    exact ⟨some a, by rw [Function.storeOperands?, if_pos hplain, hargs]⟩
  · have hother : ¬ ((f.opcode w).format = .store ∨ f.opcode w = .atomicStore) := by
      rintro (hformat | hatomic)
      · rw [hstack] at hformat
        cases hformat
      · rw [hatomic] at hstack
        cases hstack
    exact ⟨none, by rw [Function.storeOperands?, if_neg hother, if_pos hstack, hdata]; rfl⟩
  · exact absurd hdynamic hstatic
  · have hnone : (f.args w).length = 0 := hs.length_args hw (by rw [htrap]; rfl)
    rw [List.length_eq_zero_iff.mp hnone] at hdata
    cases hdata

theorem storeOperands?_eq_none {intrinsic : Intrinsic}
    (h : table.calledBy? f w = some intrinsic) : f.storeOperands? w = none := by
  cases hoperands : f.storeOperands? w with
  | none => rfl
  | some operands =>
    have hstore := (store_of_storeOperands? hoperands).1
    rw [valuePolicy_of_format_call (format_of_calledBy? h)] at hstore
    cases hstore

theorem Function.StoresValue.writes (hs : f.Shaped) (hw : w ∈ f.layoutInsts) {v : ValueId}
    (h : f.StoresValue table w v) :
    f.writes table w ≠ [] ∧ f.writtenData table w = .value v := by
  rcases h with ⟨hstore, hstatic, hdata⟩ | ⟨hcalled, target, length, hargs⟩
  · obtain ⟨address, hoperands⟩ := exists_storeOperands? hs hw hstore hstatic hdata
    constructor
    · cases address with
      | none | some a => simp [Function.writes, hoperands]
    · simp [writtenData, storedValue?, hoperands]
  · have hoperands := storeOperands?_eq_none hcalled
    have hinst : (f.inst w).args = [target, v, length] := hargs
    constructor
    · simp [Function.writes, hoperands, hcalled, hinst]
    · simp [writtenData, storedValue?, hoperands, hcalled, hargs]

theorem Function.CopiesMemory.writes (h : f.CopiesMemory table w) :
    f.writes table w ≠ [] ∧ f.writtenData table w = .copied w := by
  obtain ⟨hcalled, hlength⟩ := h
  obtain ⟨target, source, length, hargs⟩ := List.length_eq_three.mp hlength
  have hinst : (f.inst w).args = [target, source, length] := hargs
  rcases hcalled with hcalled | hcalled
  all_goals
    have hoperands := storeOperands?_eq_none hcalled
    constructor
    · simp [Function.writes, hoperands, hcalled, hinst]
    · simp [writtenData, storedValue?, hoperands, hcalled]

theorem stores_or_copies (h : f.writes table w ≠ []) :
    (∃ v, f.StoresValue table w v) ∨ f.CopiesMemory table w := by
  unfold Function.writes at h
  split at h
  · exact .inl ⟨_, .inl (store_of_storeOperands? ‹_›)⟩
  · exact .inl ⟨_, .inl (store_of_storeOperands? ‹_›)⟩
  · dsimp only at h
    split at h
    · rename_i hcalled hargs
      exact .inr ⟨.inl hcalled, congrArg List.length hargs⟩
    · rename_i hcalled hargs
      exact .inr ⟨.inr hcalled, congrArg List.length hargs⟩
    · rename_i hcalled hargs
      exact .inl ⟨_, .inr ⟨hcalled, _, _, hargs⟩⟩
    · exact absurd rfl h

theorem writes_eq_nil_of_load (h : (f.opcode i).valuePolicy = .load) : f.writes table i = [] := by
  by_contra hwrites
  have hcall : ∀ intrinsic, table.calledBy? f i ≠ some intrinsic := by
    intro intrinsic hcalled
    rw [valuePolicy_of_format_call (format_of_calledBy? hcalled)] at h
    cases h
  rcases stores_or_copies hwrites with ⟨v, ⟨hstore, -, -⟩ | ⟨hcalled, -⟩⟩ | ⟨hcalled | hcalled, -⟩
  · rw [h] at hstore
    cases hstore
  · exact hcall _ hcalled
  · exact hcall _ hcalled
  · exact hcall _ hcalled

end Accesses

section Reading

theorem mayRead_of_writes (hmay : ∀ a b, (oracle f a b).mayAlias = true)
    (hload : (f.opcode i).valuePolicy = .load) (hreads : f.reads table i ≠ [])
    (hw : w ∈ f.layoutInsts) (hwrites : f.writes table w ≠ []) :
    (TaintInput.ofFunction f table oracle).MayRead i w := by
  refine ⟨hw, ?_, hwrites, ?_⟩
  · rintro rfl
    exact hwrites (writes_eq_nil_of_load hload)
  · obtain ⟨a, ha⟩ := List.exists_mem_of_ne_nil _ hreads
    obtain ⟨b, hb⟩ := List.exists_mem_of_ne_nil _ hwrites
    exact AliasOracle.mayAlias_loadStore.mpr ⟨a, ha, b, hb, hmay a b⟩

theorem reads_ne_nil_of_mayRead (h : (TaintInput.ofFunction f table oracle).MayRead i w) :
    f.reads table i ≠ [] := by
  obtain ⟨a, ha, -⟩ := AliasOracle.mayAlias_loadStore.mp h.mayAlias
  exact List.ne_nil_of_mem ha

end Reading

namespace SpeculativeTaint

/-- Under an oracle that rules nothing out, a store of a tainted value taints the results of all
loads: a load whose address depends on a load is its own origin, and any other gets the origins of
the stored value.  Only dynamic stack slots are left out: a load from one is never tainted, and what
is stored to one goes nowhere. -/
theorem stored_origins_reach_loads (f : Function) (h : f.WellFormed) (hd : f.Defined)
    (hs : f.Shaped) (table : IntrinsicTable) (oracle : AliasOracle)
    (hmay : ∀ a b, (oracle f a b).mayAlias = true) (taint : SpeculativeTaint)
    (hok : compute (.ofFunction f table oracle) = .ok taint) :
    ∀ i ∈ f.layoutInsts, (f.opcode i).valuePolicy = .load → ∀ r, f.firstResult? i = some r →
      (f.opcode i ≠ .dynamicStackLoad →
        ∀ w ∈ f.layoutInsts, (f.opcode w).valuePolicy = .store →
          f.opcode w ≠ .dynamicStackStore → ∀ v, (f.args w).head? = some v →
          taint.isTainted v = true → taint.isTainted r = true ∧
            ((∃ a ∈ taint.addressDependent, f.loadAddress? i = some a) →
              taint.originsOf r = .singleton i) ∧
            ((∀ a ∈ taint.addressDependent, f.loadAddress? i ≠ some a) →
              ∀ o ∈ taint.originsOf v, o ∈ taint.originsOf r)) ∧
      (f.opcode i = .dynamicStackLoad → taint.originsOf r = .empty) ∧
      ∀ o ∈ taint.originsOf r, o = i ∨ ∃ w ∈ f.layoutInsts,
        (∃ v, f.StoresValue table w v ∧ o ∈ taint.originsOf v) ∨
          (f.CopiesMemory table w ∧
            (TaintInput.ofFunction f table oracle).Carries (.copied w) o) := by
  intro i hi hload r hr
  have hloads : ∀ o, o ∈ taint.originsOf r ↔ (TaintInput.ofFunction f table oracle).Loads i o :=
    fun o => mem_originsOf_load_iff h hd hok hi hload hr
  refine ⟨?_, ?_, ?_⟩
  · intro hstatic w hw hstore hplain v hdata hv
    have hown : (∃ a ∈ taint.addressDependent, f.loadAddress? i = some a) →
        taint.originsOf r = .singleton i :=
      fun ⟨a, ha, haddress⟩ => originsOf_eq_singleton h hd hok hi haddress ha hr
    have hgets : (∀ a ∈ taint.addressDependent, f.loadAddress? i ≠ some a) →
        ∀ o ∈ taint.originsOf v, o ∈ taint.originsOf r := by
      intro hfree o ho
      have hstores : f.StoresValue table w v := .inl ⟨hstore, hplain, hdata⟩
      obtain ⟨hwrites, hwritten⟩ := hstores.writes hs hw
      have hreads : f.reads table i ≠ [] :=
        fun hnone => hstatic ((reads_eq_nil_iff hs hi hload).mp hnone)
      refine (hloads o).mpr (.inr ⟨?_, w, mayRead_of_writes hmay hload hreads hw hwrites, ?_⟩)
      · intro a haddress ha
        exact hfree a ((mem_addressDependent_iff h hd hok).mpr ha) haddress
      · change TaintInput.Carries _ (f.writtenData table w) o
        rw [hwritten]
        exact (mem_originsOf_iff_carries h hd hok).mp ho
    refine ⟨isTainted_iff.mpr ?_, hown, hgets⟩
    by_cases hfree : ∀ a ∈ taint.addressDependent, f.loadAddress? i ≠ some a
    · obtain ⟨o, ho⟩ := isTainted_iff.mp hv
      exact ⟨o, hgets hfree o ho⟩
    · push Not at hfree
      exact ⟨i, by rw [hown hfree, AscSet.mem_singleton]⟩
  · intro hdynamic
    have hnone : f.reads table i = [] := (reads_eq_nil_iff hs hi hload).mpr hdynamic
    refine AscSet.ext fun o => iff_of_false (fun ho => ?_) (AscSet.not_mem_empty o)
    rcases (hloads o).mp ho with ⟨a, haddress, -, -⟩ | ⟨-, w, hread, -⟩
    · change f.loadAddress? i = some a at haddress
      simp [Function.reads, haddress] at hnone
    · exact reads_ne_nil_of_mayRead hread hnone
  · intro o ho
    rcases (hloads o).mp ho with ⟨a, -, -, rfl⟩ | ⟨-, w, hread, hrest⟩
    · exact .inl rfl
    · refine .inr ⟨w, hread.laid, ?_⟩
      change (TaintInput.ofFunction f table oracle).Carries (f.writtenData table w) o at hrest
      have hwrites : f.writes table w ≠ [] := hread.writes
      rcases stores_or_copies hwrites with ⟨v, hstored⟩ | hcopies
      · rw [(hstored.writes hs hread.laid).2] at hrest
        exact .inl ⟨v, hstored, (mem_originsOf_iff_carries h hd hok).mpr hrest⟩
      · rw [hcopies.writes.2] at hrest
        exact .inr ⟨hcopies, hrest⟩

/-- A value loaded under misspeculation is stored to a stack slot and loaded from there, as far as
an oracle knows that rules nothing out; a dynamic stack slot is loaded from as well. -/
def stackSlots : Function := .build ⟨.numbered 0 0, [8], [],
  [⟨[⟨.i64, 1⟩], [⟨.load, [0], .offset 0, some ⟨.i64, 1⟩, [⟨.i64, 1⟩]⟩,
    ⟨.load, [1], .offset 0, some ⟨.i64, 1⟩, [⟨.i64, 1⟩]⟩,
    ⟨.stackStore, [2], .slot 0 0, some ⟨.i64, 1⟩, []⟩,
    ⟨.stackLoad, [], .slot 0 0, some ⟨.i64, 1⟩, [⟨.i64, 1⟩]⟩,
    ⟨.dynamicStackLoad, [], .slot 0 0, some ⟨.i64, 1⟩, [⟨.i64, 1⟩]⟩,
    ⟨.ret, [], .none, none, []⟩]⟩], none⟩

def stackSlotsTaint : SpeculativeTaint :=
  ⟨.ofList [1, 2, 3, 4], #[.empty, .singleton 1, .singleton 1, .singleton 1, .empty]⟩

/-- The load from the stack slot is tainted. -/
theorem stored_origins_stackSlots :
    compute (.ofFunction stackSlots .empty (.always .may)) = .ok stackSlotsTaint ∧
      1 ∈ stackSlotsTaint.originsOf 3 ∧ stackSlotsTaint.originsOf 4 = .empty := by
  have hok : compute (.ofFunction stackSlots .empty (.always .may)) = .ok stackSlotsTaint := by
    decide +kernel
  have hreach := stored_origins_reach_loads stackSlots (by decide +kernel) (by decide +kernel)
    (by decide +kernel) .empty (.always .may) (fun _ _ => rfl) stackSlotsTaint hok
  obtain ⟨hstored, -, -⟩ := hreach 3 (by decide +kernel) (by decide +kernel) 3 (by decide +kernel)
  obtain ⟨-, hdynamic, -⟩ := hreach 4 (by decide +kernel) (by decide +kernel) 4 (by decide +kernel)
  obtain ⟨-, -, hgets⟩ := hstored (by decide +kernel) 2 (by decide +kernel) (by decide +kernel)
    (by decide +kernel) 2 (by decide +kernel) (by decide +kernel)
  have hnoAddress : stackSlots.loadAddress? 3 = none := by decide +kernel
  refine ⟨hok, hgets ?_ 1 (by decide +kernel), hdynamic (by decide +kernel)⟩
  rw [hnoAddress]
  exact fun _ _ hnone => nomatch hnone

/-- The load from the dynamic stack slot is not tainted, although a tainted value is stored and the
oracle rules nothing out. -/
theorem dynamicStackLoad_untainted :
    compute (.ofFunction stackSlots .empty (.always .may)) = .ok stackSlotsTaint ∧
      (stackSlots.opcode 2).valuePolicy = .store ∧ stackSlots.args 2 = [2] ∧
      stackSlotsTaint.isTainted 2 = true ∧ (stackSlots.opcode 4).valuePolicy = .load ∧
      stackSlots.results 4 = [4] ∧ stackSlotsTaint.isTainted 4 = false := by
  decide +kernel

end SpeculativeTaint

end SpecFence
