import SpecFence.DefUse
import SpecFence.Proofs.ControlFlow

/-!
# What the table of uses says

The uses of a value are the instructions of the layout that have it as an operand and the block
parameters that a branch passes it to, and nothing else; and likewise for dependencies.
-/

set_option autoImplicit false

namespace SpecFence

/-- All operands and passed values exist, and each result and each parameter is defined where it
stands. -/
structure Function.Defined (f : Function) : Prop where
  args_lt : ∀ i ∈ f.layoutInsts, ∀ v ∈ f.args i, v < f.values.size
  passed_lt : ∀ i ∈ f.layoutInsts, ∀ call ∈ f.targets i, ∀ v ∈ call.args, v < f.values.size
  results_defined : ∀ i ∈ f.layoutInsts, ∀ r ∈ f.results i, f.definition? r = some (.result i)
  params_defined : ∀ b ∈ f.blocks, ∀ p ∈ f.blockParams b, f.definition? p = some (.param b)

instance (f : Function) : Decidable f.Defined :=
  decidable_of_iff
    ((∀ i ∈ f.layoutInsts, ∀ v ∈ f.args i, v < f.values.size) ∧
      (∀ i ∈ f.layoutInsts, ∀ call ∈ f.targets i, ∀ v ∈ call.args, v < f.values.size) ∧
      (∀ i ∈ f.layoutInsts, ∀ r ∈ f.results i, f.definition? r = some (.result i)) ∧
      ∀ b ∈ f.blocks, ∀ p ∈ f.blockParams b, f.definition? p = some (.param b))
    ⟨fun ⟨a, b, c, d⟩ => ⟨a, b, c, d⟩, fun ⟨a, b, c, d⟩ => ⟨a, b, c, d⟩⟩

/-- The branch at the end of a block passes a value for a parameter of a block of the layout. -/
def Function.Passes (f : Function) (v p : ValueId) : Prop :=
  ∃ a i call, f.lastInst? a = some i ∧ (f.opcode i).isBranch = true ∧ call ∈ f.targets i ∧
    call.block ∈ f.blocks ∧ (p, v) ∈ (f.blockParams call.block).zip call.args

namespace DefUse

/-- A step adds entries to a table: the given uses of values and the given dependencies. -/
structure Adds (step : DefUse → DefUse) (use : ValueId → ValueUse → Prop)
    (dependency : ValueId → ValueId → Prop) : Prop where
  size_uses : ∀ d, (step d).uses.size = d.uses.size
  size_dependencies : ∀ d, (step d).dependencies.size = d.dependencies.size
  uses : ∀ d v u, u ∈ (step d).usesOf v ↔ u ∈ d.usesOf v ∨ (v < d.uses.size ∧ use v u)
  dependencies : ∀ d r v, v ∈ (step d).dependenciesOf r ↔
    v ∈ d.dependenciesOf r ∨ (r < d.dependencies.size ∧ dependency r v)

namespace Adds

variable {step next : DefUse → DefUse} {use use' : ValueId → ValueUse → Prop}
  {dependency dependency' : ValueId → ValueId → Prop} {α : Type}

theorem id : Adds (fun d => d) (fun _ _ => False) (fun _ _ => False) := by
  refine ⟨fun _ => rfl, fun _ => rfl, ?_, ?_⟩
  · intro d v u
    simp
  · intro d r v
    simp

theorem congr (h : Adds step use dependency) (huse : ∀ v u, use' v u ↔ use v u)
    (hdependency : ∀ r v, dependency' r v ↔ dependency r v) : Adds step use' dependency' := by
  refine ⟨h.size_uses, h.size_dependencies, ?_, ?_⟩
  · intro d v u
    rw [h.uses, huse]
  · intro d r v
    rw [h.dependencies, hdependency]

theorem comp (h : Adds step use dependency) (h' : Adds next use' dependency') :
    Adds (fun d => next (step d)) (fun v u => use v u ∨ use' v u)
      (fun r v => dependency r v ∨ dependency' r v) := by
  constructor
  case size_uses =>
    intro d
    rw [h'.size_uses, h.size_uses]
  case size_dependencies =>
    intro d
    rw [h'.size_dependencies, h.size_dependencies]
  case uses =>
    intro d v u
    rw [h'.uses, h.uses, h.size_uses, and_or_left, or_assoc]
  case dependencies =>
    intro d r v
    rw [h'.dependencies, h.dependencies, h.size_dependencies, and_or_left, or_assoc]

theorem foldl {step : DefUse → α → DefUse} {use : α → ValueId → ValueUse → Prop}
    {dependency : α → ValueId → ValueId → Prop} {l : List α}
    (h : ∀ a ∈ l, Adds (fun d => step d a) (use a) (dependency a)) :
    Adds (fun d => l.foldl step d) (fun v u => ∃ a ∈ l, use a v u)
      (fun r v => ∃ a ∈ l, dependency a r v) := by
  induction l with
  | nil => exact id.congr (by simp) (by simp)
  | cons a l ih =>
    have hrest := ih fun b hb => h b (List.mem_cons_of_mem a hb)
    exact ((h a List.mem_cons_self).comp hrest).congr (by simp) (by simp)

end Adds

theorem mem_getD_modify {α : Type} {table : Array (List α)} {i x : Nat} {g : List α → List α}
    {a b : α} (hg : ∀ l, a ∈ g l ↔ a ∈ l ∨ a = b) :
    a ∈ (table.modify i g)[x]?.getD [] ↔ a ∈ table[x]?.getD [] ∨ (x < table.size ∧ i = x ∧ a = b) := by
  rw [Array.getElem?_modify]
  by_cases hi : i = x
  · subst hi
    by_cases hlt : i < table.size
    · simp [hlt, hg]
    · simp [hlt]
  · simp [hi]

theorem adds_addUse (i : InstId) (v : ValueId) :
    Adds (fun d => d.addUse i v) (fun x u => v = x ∧ u = .inst i) (fun _ _ => False) := by
  constructor
  case size_uses => exact fun d => Array.size_modify
  case size_dependencies => exact fun d => rfl
  case uses =>
    intro d x u
    apply mem_getD_modify
    intro us
    by_cases hmem : .inst i ∈ us
    · rw [if_pos hmem]
      constructor
      · exact Or.inl
      · rintro (hu | rfl)
        · exact hu
        · exact hmem
    · rw [if_neg hmem, List.mem_append, List.mem_singleton]
  case dependencies =>
    intro d r x
    simp [addUse, dependenciesOf]

theorem adds_addDependency (r v : ValueId) :
    Adds (fun d => d.addDependency r v) (fun _ _ => False) (fun x y => r = x ∧ y = v) := by
  constructor
  case size_uses => exact fun d => rfl
  case size_dependencies => exact fun d => Array.size_modify
  case uses =>
    intro d x u
    simp [addDependency, usesOf]
  case dependencies =>
    intro d x y
    exact mem_getD_modify fun l => by rw [List.mem_append, List.mem_singleton]

theorem adds_addPassed (p v : ValueId) :
    Adds (fun d => d.addPassed p v) (fun x u => v = x ∧ u = .param p) (fun x y => p = x ∧ y = v) := by
  constructor
  case size_uses => exact fun d => Array.size_modify
  case size_dependencies => exact fun d => Array.size_modify
  case uses =>
    intro d x u
    exact mem_getD_modify fun l => by rw [List.mem_append, List.mem_singleton]
  case dependencies =>
    intro d x y
    exact mem_getD_modify fun l => by rw [List.mem_append, List.mem_singleton]

def Feeds (f : Function) (b : BlockId) (v p : ValueId) : Prop :=
  ∃ q ∈ f.flowPreds b, ∃ call ∈ f.targets q.inst, call.block = b ∧
    (p, v) ∈ (f.blockParams b).zip call.args

variable {f : Function} {throughCalls : Bool} {v : ValueId}

theorem adds_addInst (f : Function) (throughCalls : Bool) (i : InstId) :
    Adds (fun d => d.addInst f throughCalls i) (fun v u => v ∈ f.args i ∧ u = .inst i)
      (fun r v => v ∈ f.args i ∧ r ∈ f.results i ∧
        (throughCalls = true ∨ (f.opcode i).isCall = false)) := by
  have hall := Adds.foldl (l := f.args i) fun v _ => (adds_addUse i v).comp
    (Adds.foldl (l := if !throughCalls && (f.opcode i).isCall then [] else f.results i)
      fun r _ => adds_addDependency r v)
  apply Adds.congr hall
  · intro v u
    simp
  · intro r v
    cases throughCalls with
    | true => simp
    | false =>
      cases (f.opcode i).isCall with
      | true => simp
      | false => simp

theorem adds_addParams (f : Function) (b : BlockId) :
    Adds (fun d => d.addParams f b) (fun v u => ∃ p, u = .param p ∧ Feeds f b v p)
      (fun p v => Feeds f b v p) := by
  have hcall : ∀ call : BlockCall, Adds
      (fun d => if call.block = b then
        ((f.blockParams b).zip call.args).foldl (fun d x => d.addPassed x.1 x.2) d else d)
      (fun v u => call.block = b ∧ ∃ x ∈ (f.blockParams b).zip call.args,
        x.2 = v ∧ u = .param x.1)
      (fun p v => call.block = b ∧ ∃ x ∈ (f.blockParams b).zip call.args, x.1 = p ∧ v = x.2) := by
    intro call
    by_cases hblock : call.block = b
    · simp only [hblock, if_true, true_and]
      exact Adds.foldl fun x _ => adds_addPassed x.1 x.2
    · simp only [hblock, if_false, false_and]
      exact Adds.id
  have hall := Adds.foldl (l := f.flowPreds b) fun q _ =>
    Adds.foldl (l := f.targets q.inst) fun call _ => hcall call
  unfold Feeds
  apply Adds.congr hall
  · intro v u
    constructor
    · rintro ⟨p, rfl, q, hq, call, hcall, hblock, hmem⟩
      exact ⟨q, hq, call, hcall, hblock, (p, v), hmem, rfl, rfl⟩
    · rintro ⟨q, hq, call, hcall, hblock, ⟨p, v⟩, hmem, rfl, rfl⟩
      exact ⟨p, rfl, q, hq, call, hcall, hblock, hmem⟩
  · intro p v
    constructor
    · rintro ⟨q, hq, call, hcall, hblock, hmem⟩
      exact ⟨q, hq, call, hcall, hblock, (p, v), hmem, rfl, rfl⟩
    · rintro ⟨q, hq, call, hcall, hblock, ⟨p, v⟩, hmem, rfl, rfl⟩
      exact ⟨q, hq, call, hcall, hblock, hmem⟩

theorem adds_layout (f : Function) (throughCalls : Bool) :
    Adds (fun d => f.layout.foldl
        (fun d l => (l.insts.foldl (addInst f throughCalls) d).addParams f l.block) d)
      (fun v u => ∃ l ∈ f.layout, (∃ i ∈ l.insts, v ∈ f.args i ∧ u = .inst i) ∨
        ∃ p, u = .param p ∧ Feeds f l.block v p)
      (fun r v => ∃ l ∈ f.layout, (∃ i ∈ l.insts, v ∈ f.args i ∧ r ∈ f.results i ∧
        (throughCalls = true ∨ (f.opcode i).isCall = false)) ∨ Feeds f l.block v r) :=
  Adds.foldl fun l _ =>
    (Adds.foldl fun i _ => adds_addInst f throughCalls i).comp (adds_addParams f l.block)

theorem mem_flowPreds_iff (h : f.WellFormed) {q : FlowPred} {b : BlockId} :
    q ∈ f.flowPreds b ↔ f.lastInst? q.block = some q.inst ∧ b ∈ f.flowSuccs q.block := by
  have hany : ∀ c, ((f.flowTargets c).any (·.block == b)) = true ↔ b ∈ f.flowSuccs c := by
    intro c
    unfold Function.flowSuccs
    rw [AscSet.mem_ofList, List.mem_map, List.any_eq_true]
    simp
  unfold Function.flowPreds
  rw [List.mem_mergeSort, List.mem_filterMap]
  constructor
  · rintro ⟨l, hl, hsome⟩
    split at hsome
    · rename_i hedge
      obtain ⟨i, hi, rfl⟩ := Option.map_eq_some_iff.mp hsome
      refine ⟨?_, (hany l.block).mp hedge⟩
      unfold Function.lastInst?
      rw [Function.blockInsts_eq h.blocks_nodup hl]
      exact hi
    · cases hsome
  · rintro ⟨hlast, hedge⟩
    obtain ⟨l, hl, hblock⟩ := Function.mem_blocks.mp (Function.mem_blocks_of_mem_flowSuccs hedge)
    refine ⟨l, hl, ?_⟩
    rw [hblock, if_pos ((hany q.block).mpr hedge), ← Function.blockInsts_eq h.blocks_nodup hl, hblock]
    exact congrArg (Option.map _) hlast

theorem exists_feeds_iff (h : f.WellFormed) {p : ValueId} :
    (∃ l ∈ f.layout, Feeds f l.block v p) ↔ f.Passes v p := by
  unfold Feeds Function.Passes
  constructor
  · rintro ⟨l, hl, q, hq, call, hcall, hblock, hmem⟩
    obtain ⟨hlast, hedge⟩ := (mem_flowPreds_iff h).mp hq
    obtain ⟨i, hi, hbranch, -⟩ := Function.mem_flowSuccs.mp hedge
    obtain rfl := Option.some_inj.mp (hlast.symm.trans hi)
    rw [← hblock] at hmem
    exact ⟨q.block, q.inst, call, hlast, hbranch, hcall,
      Function.mem_blocks.mpr ⟨l, hl, hblock.symm⟩, hmem⟩
  · rintro ⟨a, i, call, hlast, hbranch, hcall, hin, hmem⟩
    obtain ⟨l, hl, hblock⟩ := Function.mem_blocks.mp hin
    rw [← hblock] at hmem
    refine ⟨l, hl, ⟨a, i⟩, (mem_flowPreds_iff h).mpr ⟨hlast, ?_⟩, call, hcall, hblock.symm, hmem⟩
    exact Function.mem_flowSuccs.mpr ⟨i, hlast, hbranch, call, hcall, hblock.symm⟩

theorem mem_usesOf (h : f.WellFormed) {u : ValueUse} :
    u ∈ (ofFunction f throughCalls).usesOf v ↔ v < f.values.size ∧
      ((∃ i ∈ f.layoutInsts, v ∈ f.args i ∧ u = .inst i) ∨ ∃ p, u = .param p ∧ f.Passes v p) := by
  unfold ofFunction
  rw [(adds_layout f throughCalls).uses]
  have hempty : u ∉ usesOf ⟨Array.replicate f.values.size [], Array.replicate f.values.size []⟩ v := by
    unfold usesOf
    rw [Array.getElem?_replicate]
    split <;> simp
  simp only [hempty, false_or, Array.size_replicate, ← exists_feeds_iff h,
    Function.layoutInsts, List.mem_flatMap]
  refine and_congr_right fun _ => ?_
  constructor
  · rintro ⟨l, hl, ⟨i, hi, hv, hu⟩ | ⟨p, hu, hfeeds⟩⟩
    · exact Or.inl ⟨i, ⟨l, hl, hi⟩, hv, hu⟩
    · exact Or.inr ⟨p, hu, l, hl, hfeeds⟩
  · rintro (⟨i, ⟨l, hl, hi⟩, hv, hu⟩ | ⟨p, hu, l, hl, hfeeds⟩)
    · exact ⟨l, hl, Or.inl ⟨i, hi, hv, hu⟩⟩
    · exact ⟨l, hl, Or.inr ⟨p, hu, hfeeds⟩⟩

theorem mem_dependenciesOf (h : f.WellFormed) {r : ValueId} :
    v ∈ (ofFunction f throughCalls).dependenciesOf r ↔ r < f.values.size ∧
      ((∃ i ∈ f.layoutInsts, v ∈ f.args i ∧ r ∈ f.results i ∧
        (throughCalls = true ∨ (f.opcode i).isCall = false)) ∨ f.Passes v r) := by
  unfold ofFunction
  rw [(adds_layout f throughCalls).dependencies]
  have hempty : v ∉ dependenciesOf
      ⟨Array.replicate f.values.size [], Array.replicate f.values.size []⟩ r := by
    unfold dependenciesOf
    rw [Array.getElem?_replicate]
    split <;> simp
  simp only [hempty, false_or, Array.size_replicate, ← exists_feeds_iff h,
    Function.layoutInsts, List.mem_flatMap]
  refine and_congr_right fun _ => ?_
  constructor
  · rintro ⟨l, hl, ⟨i, hi, hrest⟩ | hfeeds⟩
    · exact Or.inl ⟨i, ⟨l, hl, hi⟩, hrest⟩
    · exact Or.inr ⟨l, hl, hfeeds⟩
  · rintro (⟨i, ⟨l, hl, hi⟩, hrest⟩ | ⟨l, hl, hfeeds⟩)
    · exact ⟨l, hl, Or.inl ⟨i, hi, hrest⟩⟩
    · exact ⟨l, hl, Or.inr hfeeds⟩

end DefUse

end SpecFence
