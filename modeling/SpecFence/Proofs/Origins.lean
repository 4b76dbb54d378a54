import SpecFence.Leak
import SpecFence.Proofs.ControlFlow
import SpecFence.Proofs.Result
import SpecFence.Taint.Speculative

/-!
# Where taint comes from

When every instruction of the layout has a taint rule, every instruction also has a rule for what it
transmits, and all origins of values are instructions of the layout.
-/

set_option autoImplicit false

namespace SpecFence

variable {f : Function} {table : IntrinsicTable}

section Rules

theorem Except.mapM_eq_ok {ε α β : Type} {g : α → Except ε β} {l : List α} {out : List β}
    (h : l.mapM g = .ok out) :
    (∀ a ∈ l, ∃ b, g a = .ok b) ∧ ∀ b, b ∈ out ↔ ∃ a ∈ l, g a = .ok b := by
  induction l generalizing out with
  | nil =>
    rw [List.mapM_nil, Except.pure_eq_ok_iff] at h
    rw [← h]
    simp
  | cons a l ih =>
    rw [List.mapM_cons] at h
    obtain ⟨b, hb, hrest⟩ := Except.bind_eq_ok_iff.mp h
    obtain ⟨rest, hrest, hout⟩ := Except.bind_eq_ok_iff.mp hrest
    rw [Except.pure_eq_ok_iff] at hout
    obtain ⟨hall, hmem⟩ := ih hrest
    rw [← hout]
    constructor
    · intro x hx
      rcases List.mem_cons.mp hx with rfl | hx
      · exact ⟨b, hb⟩
      · exact hall x hx
    · intro y
      rw [List.mem_cons, hmem]
      simp [hb, eq_comm]

theorem Except.exists_mapM {ε α β : Type} {g : α → Except ε β} {l : List α}
    (h : ∀ a ∈ l, ∃ b, g a = .ok b) : ∃ out, l.mapM g = .ok out := by
  induction l with
  | nil => exact ⟨[], rfl⟩
  | cons a l ih =>
    obtain ⟨b, hb⟩ := h a List.mem_cons_self
    obtain ⟨rest, hrest⟩ := ih fun x hx => h x (List.mem_cons_of_mem a hx)
    refine ⟨b :: rest, ?_⟩
    rw [List.mapM_cons]
    exact Except.bind_eq_ok_iff.mpr ⟨b, hb, Except.bind_eq_ok_iff.mpr
      ⟨rest, hrest, Except.pure_eq_ok_iff.mpr rfl⟩⟩

theorem taintRules_eq_ok {rules : List (InstId × TaintRule)} (h : taintRules f table = .ok rules) :
    (∀ i ∈ f.layoutInsts, ∃ rule, TaintRule.of f table i = .ok rule) ∧
      ∀ i rule, (i, rule) ∈ rules ↔ i ∈ f.layoutInsts ∧ TaintRule.of f table i = .ok rule := by
  obtain ⟨hall, hmem⟩ := Except.mapM_eq_ok h
  constructor
  · intro i hi
    obtain ⟨x, hx⟩ := hall i hi
    cases hof : TaintRule.of f table i with
    | error subject =>
      rw [hof] at hx
      cases hx
    | ok rule => exact ⟨rule, rfl⟩
  · intro i rule
    rw [hmem]
    constructor
    · rintro ⟨j, hj, hjx⟩
      cases hof : TaintRule.of f table j with
      | error subject =>
        rw [hof] at hjx
        cases hjx
      | ok found =>
        rw [hof] at hjx
        cases hjx
        exact ⟨hj, hof⟩
    · rintro ⟨hi, hof⟩
      exact ⟨i, hi, by rw [hof]⟩

theorem exists_taintRules (h : ∀ i ∈ f.layoutInsts, ∃ rule, TaintRule.of f table i = .ok rule) :
    ∃ rules, taintRules f table = .ok rules := by
  apply Except.exists_mapM
  intro i hi
  obtain ⟨rule, hrule⟩ := h i hi
  exact ⟨(i, rule), by rw [hrule]⟩

theorem valuePolicy_of_format_call {o : Opcode} (h : o.format = .call) : o.valuePolicy = .call := by
  cases o <;> first | rfl | cases h

theorem format_of_calledBy? {i : InstId} {intrinsic : Intrinsic}
    (h : table.calledBy? f i = some intrinsic) : (f.opcode i).format = .call := by
  unfold IntrinsicTable.calledBy? at h
  split at h
  · split at h
    · assumption
    · cases h
  · cases h

theorem taint_of_leak_unknown {intrinsic : Intrinsic} (h : intrinsic.leak = .unknown) :
    intrinsic.taint = .invalid := by
  cases intrinsic <;> first | rfl | cases h

theorem exists_intrinsicTransmitters {i : InstId} {intrinsic : Intrinsic}
    (h : intrinsic.leak ≠ .unknown) :
    ∃ operands, f.intrinsicTransmitters i intrinsic = .ok operands := by
  unfold Function.intrinsicTransmitters
  cases hleak : intrinsic.leak with
  | unknown => exact absurd hleak h
  | allArgs => exact ⟨_, rfl⟩
  | fill => exact ⟨_, rfl⟩
  | address => exact ⟨_, rfl⟩
  | nothing => exact ⟨_, rfl⟩
  | benign => exact ⟨_, rfl⟩

theorem exists_transmitters {i : InstId} {rule : TaintRule}
    (h : TaintRule.of f table i = .ok rule) : ∃ operands, f.transmitters table i = .ok operands := by
  unfold Function.transmitters
  split
  · exact ⟨_, rfl⟩
  · exact ⟨_, rfl⟩
  · split
    all_goals try exact ⟨_, rfl⟩
    · rename_i hformat
      cases hcalled : table.calledBy? f i with
      | none => exact ⟨_, rfl⟩
      | some intrinsic =>
        have hknown : intrinsic.leak ≠ .unknown := by
          intro hunknown
          unfold TaintRule.of at h
          rw [valuePolicy_of_format_call hformat, hcalled] at h
          simp only [taint_of_leak_unknown hunknown, if_true] at h
          cases h
        exact exists_intrinsicTransmitters hknown
    · split
      · exact ⟨_, rfl⟩
      · exact ⟨_, rfl⟩

end Rules

namespace Channel

theorem mem_output {h : Holding} {c : Channel} {x : Nat} :
    x ∈ c.output h ↔ x ∈ c.own ∨ ∃ p ∈ c.sources, x ∈ h.at p := by
  unfold output
  generalize c.own = s
  induction c.sources generalizing s with
  | nil => simp
  | cons p sources ih =>
    rw [List.foldl_cons, ih, AscSet.mem_union]
    simp [or_assoc]

theorem mem_at_setIfInBounds {h : Holding} {target place x : Nat} {s : AscSet Nat}
    (hx : x ∈ Holding.at (h.setIfInBounds target s) place) : x ∈ s ∨ x ∈ h.at place := by
  unfold Holding.at at hx ⊢
  rw [Array.getElem?_setIfInBounds] at hx
  split at hx
  · split at hx
    · exact Or.inl hx
    · exact absurd hx (AscSet.not_mem_empty x)
  · exact Or.inr hx

theorem not_mem_at_replicate {places place x : Nat} :
    x ∉ Holding.at (Array.replicate places .empty) place := by
  unfold Holding.at
  rw [Array.getElem?_replicate]
  split
  · exact AscSet.not_mem_empty x
  · exact AscSet.not_mem_empty x

theorem mem_at_round {channels : List Channel} {places place x : Nat} {h : Holding}
    (hx : x ∈ Holding.at (round channels places h) place) :
    (∃ c ∈ channels, x ∈ c.own) ∨ ∃ p, x ∈ h.at p := by
  unfold round at hx
  have hfold : ∀ start : Holding,
      x ∈ Holding.at (channels.foldl (fun h' c => h'.setIfInBounds c.target (c.output h)) start)
        place →
      x ∈ start.at place ∨ (∃ c ∈ channels, x ∈ c.own) ∨ ∃ p, x ∈ h.at p := by
    clear hx
    induction channels with
    | nil => exact fun start hx => Or.inl hx
    | cons c channels ih =>
      intro start hx
      rw [List.foldl_cons] at hx
      rcases ih _ hx with hset | ⟨c', hc', hown⟩ | hheld
      · rcases mem_at_setIfInBounds hset with hout | hold
        · rcases mem_output.mp hout with hown | ⟨p, -, hp⟩
          · exact Or.inr (Or.inl ⟨c, List.mem_cons_self, hown⟩)
          · exact Or.inr (Or.inr ⟨p, hp⟩)
        · exact Or.inl hold
      · exact Or.inr (Or.inl ⟨c', List.mem_cons_of_mem c hc', hown⟩)
      · exact Or.inr (Or.inr hheld)
  rcases hfold _ hx with hstart | hrest
  · exact absurd hstart not_mem_at_replicate
  · exact hrest

theorem mem_at_spread {channels : List Channel} {places members place x : Nat}
    (hx : x ∈ Holding.at (spread channels places members) place) : ∃ c ∈ channels, x ∈ c.own := by
  have hall : ∀ p, x ∈ Holding.at (spread channels places members) p →
      ∃ c ∈ channels, x ∈ c.own := by
    apply fixpoint_induction (P := fun h : Holding => ∀ p, x ∈ h.at p → ∃ c ∈ channels, x ∈ c.own)
    · intro h ih p hp
      rcases mem_at_round hp with hown | ⟨q, hq⟩
      · exact hown
      · exact ih q hq
    · intro p hp
      exact absurd hp not_mem_at_replicate
  exact hall place hx

end Channel

namespace SpeculativeTaint

variable {input : TaintInput}

theorem mem_own_readChannel {dependent : AscSet ValueId} {i x : InstId} {target : Nat}
    {address : Option ValueId} (hx : x ∈ (readChannel input dependent i target address).own) :
    x = i := by
  unfold readChannel at hx
  split at hx
  · exact AscSet.mem_singleton.mp hx
  · exact absurd hx (AscSet.not_mem_empty x)

theorem mem_own_instChannel {dependent : AscSet ValueId} {i x : InstId} {rule : TaintRule}
    {c : Channel} (hc : instChannel input dependent i rule = some c) (hx : x ∈ c.own) :
    x = i ∧ (rule = .policy .load ∨ rule = .intrinsic .memoryCopy) := by
  unfold instChannel at hc
  split at hc
  · obtain ⟨r, -, rfl⟩ := Option.map_eq_some_iff.mp hc
    exact ⟨mem_own_readChannel hx, Or.inl rfl⟩
  · obtain rfl := Option.some_inj.mp hc
    exact ⟨mem_own_readChannel hx, Or.inr rfl⟩
  · split at hc
    · obtain ⟨r, -, rfl⟩ := Option.map_eq_some_iff.mp hc
      exact absurd hx (AscSet.not_mem_empty x)
    · cases hc

theorem rule_of_mem_originsOf {taint : SpeculativeTaint} {v : ValueId} {o : InstId}
    (h : compute input = .ok taint) (ho : o ∈ taint.originsOf v) :
    o ∈ input.function.layoutInsts ∧ ∃ rule, TaintRule.of input.function input.table o = .ok rule ∧
      (rule = .policy .load ∨ rule = .intrinsic .memoryCopy) := by
  unfold compute at h
  obtain ⟨rules, hrules, h⟩ := Except.bind_eq_ok_iff.mp h
  rw [Except.pure_eq_ok_iff] at h
  rw [← h] at ho
  have hheld : o ∈ Channel.Holding.at (Channel.spread
      (channels input (dependentValues input rules) rules)
      (input.function.values.size + input.function.insts.size) input.function.insts.size) v := by
    unfold originsOf at ho
    dsimp only at ho
    rw [Array.take_eq_extract, Array.getElem?_extract, Nat.zero_add] at ho
    split at ho
    · exact ho
    · exact absurd ho (AscSet.not_mem_empty o)
  obtain ⟨c, hc, hown⟩ := Channel.mem_at_spread hheld
  unfold channels at hc
  rcases List.mem_append.mp hc with hparam | hinst
  · obtain ⟨p, -, rfl⟩ := List.mem_map.mp hparam
    exact absurd hown (AscSet.not_mem_empty o)
  · obtain ⟨⟨i, rule⟩, hmem, hsome⟩ := List.mem_filterMap.mp hinst
    obtain ⟨rfl, hkind⟩ := mem_own_instChannel hsome hown
    obtain ⟨hlaid, hrule⟩ := ((taintRules_eq_ok hrules).2 _ _).mp hmem
    exact ⟨hlaid, rule, hrule, hkind⟩

theorem mem_layoutInsts_of_mem_originsOf {taint : SpeculativeTaint} {v : ValueId} {o : InstId}
    (h : compute input = .ok taint) (ho : o ∈ taint.originsOf v) :
    o ∈ input.function.layoutInsts :=
  (rule_of_mem_originsOf h ho).1

theorem isBranch_of_mem_originsOf {taint : SpeculativeTaint} {v : ValueId} {o : InstId}
    (h : compute input = .ok taint) (ho : o ∈ taint.originsOf v) :
    (input.function.opcode o).isBranch = false := by
  obtain ⟨-, rule, hrule, hkind⟩ := rule_of_mem_originsOf h ho
  rw [Bool.eq_false_iff]
  intro hbranch
  have hpolicy : (input.function.opcode o).valuePolicy = .noValue := by
    cases hopcode : input.function.opcode o <;> rw [hopcode] at hbranch <;>
      first | rfl | cases hbranch
  unfold TaintRule.of at hrule
  rw [hpolicy] at hrule
  obtain rfl : TaintRule.policy .noValue = rule := Except.ok.inj hrule
  rcases hkind with hload | hcopy
  · cases hload
  · cases hcopy

theorem exists_transmitters_of_compute {taint : SpeculativeTaint} (h : compute input = .ok taint)
    {i : InstId} (hi : i ∈ input.function.layoutInsts) :
    ∃ operands, input.function.transmitters input.table i = .ok operands := by
  obtain ⟨rules, hrules, -⟩ := Except.bind_eq_ok_iff.mp h
  obtain ⟨rule, hrule⟩ := (taintRules_eq_ok hrules).1 i hi
  exact exists_transmitters hrule

theorem exists_compute (h : ∀ i ∈ input.function.layoutInsts,
    ∃ rule, TaintRule.of input.function input.table i = .ok rule) :
    ∃ taint, compute input = .ok taint := by
  obtain ⟨rules, hrules⟩ := exists_taintRules h
  exact ⟨_, Except.bind_eq_ok_iff.mpr ⟨rules, hrules, rfl⟩⟩

end SpeculativeTaint

end SpecFence
