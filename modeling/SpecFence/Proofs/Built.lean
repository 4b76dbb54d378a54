import Mathlib.Data.List.Nodup
import Mathlib.Data.List.Range
import SpecFence.Proofs.Editing
import SpecFence.Proofs.Uses

/-!
# Functions built from descriptions

A description that names only its own blocks and values, and lays no block out twice, is built into
a well formed function in which every result and every parameter is defined where it stands.  The
numbers of the built parts run on from one part to the next, so no instruction is laid out twice.
-/

set_option autoImplicit false

namespace SpecFence

open SpecFence.Function

/-- The operands of an instruction and its destinations are among so many values and blocks. -/
def FitsIn (blocks values : Nat) (args : List ValueId) (extra : Extra) : Prop :=
  (∀ v ∈ args, v < values) ∧
    ∀ call ∈ callsOf extra, call.block < blocks ∧ ∀ v ∈ call.args, v < values

instance (blocks values : Nat) (args : List ValueId) (extra : Extra) :
    Decidable (FitsIn blocks values args extra) :=
  inferInstanceAs (Decidable ((∀ v ∈ args, v < values) ∧
    ∀ call ∈ callsOf extra, call.block < blocks ∧ ∀ v ∈ call.args, v < values))

namespace FunctionSpec

variable (spec : FunctionSpec)

def order : List BlockId := spec.layout.getD (List.range spec.blocks.length)

def valueCount : Nat :=
  (spec.blocks.flatMap BlockSpec.params).length +
    ((spec.blocks.flatMap BlockSpec.insts).flatMap InstSpec.results).length

/-- A description names only what it has, and lays no block out twice. -/
structure InRange : Prop where
  order_nodup : spec.order.Nodup
  order_lt : ∀ b ∈ spec.order, b < spec.blocks.length
  fits : ∀ block ∈ spec.blocks, ∀ inst ∈ block.insts,
    FitsIn spec.blocks.length spec.valueCount inst.args inst.extra

instance : Decidable spec.InRange :=
  decidable_of_iff (spec.order.Nodup ∧ (∀ b ∈ spec.order, b < spec.blocks.length) ∧
      ∀ block ∈ spec.blocks, ∀ inst ∈ block.insts,
        FitsIn spec.blocks.length spec.valueCount inst.args inst.extra)
    ⟨fun ⟨horder, hlt, hfits⟩ => ⟨horder, hlt, hfits⟩,
      fun h => ⟨h.order_nodup, h.order_lt, h.fits⟩⟩

end FunctionSpec

namespace Function

variable {f : Function} {blocks values : Nat}

section Values

theorem size_addValues (f : Function) (types : List Ty) (origin : Definition) :
    (f.addValues types origin).2.values.size = f.values.size + types.length := by
  simp [addValues]

theorem definition?_addValues (f : Function) (types : List Ty) (origin : Definition) {v : ValueId}
    {d : Definition} (hd : f.definition? v = some d) :
    (f.addValues types origin).2.definition? v = some d := by
  unfold definition? at hd ⊢
  obtain ⟨data, hdata, rfl⟩ := Option.map_eq_some_iff.mp hd
  obtain ⟨hlt, -⟩ := Array.getElem?_eq_some_iff.mp hdata
  have hkept : (f.addValues types origin).2.values[v]? = f.values[v]? := by
    simp [addValues, Array.getElem?_append, hlt]
  rw [hkept, hdata, Option.map_some]

theorem definition?_addValues_self (f : Function) (types : List Ty) (origin : Definition)
    {v : ValueId} (hv : v ∈ (f.addValues types origin).1) :
    (f.addValues types origin).2.definition? v = some origin := by
  obtain ⟨k, hk, rfl⟩ := List.mem_map.mp hv
  have hlt : k < types.length := List.mem_range.mp hk
  simp [definition?, addValues, hlt]

end Values

def addBlocks (f : Function) (specs : List BlockSpec) : Function :=
  specs.foldl (fun f b => (f.addBlock b.params).2) f

structure Building (f : Function) (blocks values : Nat) : Prop where
  params_defined : ∀ b < f.params.size, ∀ p ∈ f.blockParams b, f.definition? p = some (.param b)
  results_defined : ∀ i < f.insts.size, ∀ r ∈ f.results i, f.definition? r = some (.result i)
  fits : ∀ i < f.insts.size, FitsIn blocks values (f.args i) (f.inst i).extra

namespace Building

theorem addBlock (h : f.Building blocks values) (types : List Ty) :
    (f.addBlock types).2.Building blocks values := by
  constructor
  case params_defined =>
    intro b hb p hp
    rw [size_addBlock] at hb
    have hparams : (f.addBlock types).2.blockParams b =
        ((f.params.push (f.addValues types (.param f.params.size)).1)[b]?).getD [] := rfl
    rw [hparams, Array.getElem?_push] at hp
    rcases Nat.lt_succ_iff_lt_or_eq.mp hb with hlt | rfl
    · rw [if_neg (Nat.ne_of_lt hlt)] at hp
      exact definition?_addValues f types _ (h.params_defined b hlt p hp)
    · rw [if_pos rfl] at hp
      exact definition?_addValues_self f types _ hp
  case results_defined =>
    intro i hi r hr
    exact definition?_addValues f types _ (h.results_defined i hi r hr)
  case fits => exact h.fits

theorem addInst (h : f.Building blocks values) (spec : InstSpec)
    (hfits : FitsIn blocks values spec.args spec.extra) :
    (f.addInst spec).2.Building blocks values := by
  constructor
  case params_defined =>
    intro b hb p hp
    exact definition?_addValues f spec.results _ (h.params_defined b hb p hp)
  case results_defined =>
    intro i hi r hr
    rw [size_addInst] at hi
    unfold results at hr
    rcases Nat.lt_succ_iff_lt_or_eq.mp hi with hlt | rfl
    · rw [inst_addInst f spec hlt] at hr
      exact definition?_addValues f spec.results _ (h.results_defined i hlt r hr)
    · rw [inst_addInst_self] at hr
      exact definition?_addValues_self f spec.results _ hr
  case fits =>
    intro i hi
    rw [size_addInst] at hi
    unfold args
    rcases Nat.lt_succ_iff_lt_or_eq.mp hi with hlt | rfl
    · rw [inst_addInst f spec hlt]
      exact h.fits i hlt
    · rw [inst_addInst_self]
      exact hfits

theorem addInsts (h : f.Building blocks values) {specs : List InstSpec}
    (hfits : ∀ spec ∈ specs, FitsIn blocks values spec.args spec.extra) :
    (f.addInsts specs).2.Building blocks values := by
  induction specs generalizing f with
  | nil => exact h
  | cons spec rest ih =>
    exact ih (h.addInst spec (hfits spec List.mem_cons_self))
      fun spec' hspec => hfits spec' (List.mem_cons_of_mem spec hspec)

theorem addBodies (h : f.Building blocks values) {specs : List BlockSpec}
    (hfits : ∀ block ∈ specs, ∀ spec ∈ block.insts, FitsIn blocks values spec.args spec.extra) :
    (f.addBodies specs).2.Building blocks values := by
  induction specs generalizing f with
  | nil => exact h
  | cons block rest ih =>
    exact ih (h.addInsts (hfits block List.mem_cons_self))
      fun block' hblock => hfits block' (List.mem_cons_of_mem block hblock)

theorem addBlocks (h : f.Building blocks values) (specs : List BlockSpec) :
    (f.addBlocks specs).Building blocks values := by
  induction specs generalizing f with
  | nil => exact h
  | cons block rest ih => exact ih (h.addBlock block.params)

end Building

section Sizes

theorem size_addBlocks (f : Function) (specs : List BlockSpec) :
    (f.addBlocks specs).params.size = f.params.size + specs.length ∧
      (f.addBlocks specs).insts.size = f.insts.size ∧
      (f.addBlocks specs).values.size =
        f.values.size + (specs.flatMap BlockSpec.params).length := by
  induction specs generalizing f with
  | nil => exact ⟨rfl, rfl, rfl⟩
  | cons block rest ih =>
    have hvalues : (f.addBlock block.params).2.values.size = f.values.size + block.params.length :=
      size_addValues f block.params _
    obtain ⟨hparams, hinsts, hrest⟩ := ih (f.addBlock block.params).2
    rw [size_addBlock] at hparams
    rw [hvalues] at hrest
    simp only [List.length_cons, List.flatMap_cons, List.length_append]
    refine ⟨?_, hinsts, ?_⟩
    · exact hparams.trans (by omega)
    · exact hrest.trans (by omega)

theorem size_addInsts (f : Function) (specs : List InstSpec) :
    (f.addInsts specs).2.params.size = f.params.size ∧
      (f.addInsts specs).2.insts.size = f.insts.size + specs.length ∧
      (f.addInsts specs).2.values.size =
        f.values.size + (specs.flatMap InstSpec.results).length := by
  induction specs generalizing f with
  | nil => exact ⟨rfl, rfl, rfl⟩
  | cons spec rest ih =>
    have hvalues : (f.addInst spec).2.values.size = f.values.size + spec.results.length :=
      size_addValues f spec.results _
    obtain ⟨hparams, hinsts, hrest⟩ := ih (f.addInst spec).2
    rw [size_addInst] at hinsts
    rw [hvalues] at hrest
    simp only [Function.addInsts, List.length_cons, List.flatMap_cons, List.length_append]
    refine ⟨hparams, ?_, ?_⟩
    · omega
    · omega

theorem size_addBodies (f : Function) (specs : List BlockSpec) :
    (f.addBodies specs).2.params.size = f.params.size ∧
      (f.addBodies specs).2.insts.size = f.insts.size + (specs.flatMap BlockSpec.insts).length ∧
      (f.addBodies specs).2.values.size = f.values.size +
        ((specs.flatMap BlockSpec.insts).flatMap InstSpec.results).length := by
  induction specs generalizing f with
  | nil => exact ⟨rfl, rfl, rfl⟩
  | cons block rest ih =>
    obtain ⟨hparams, hinsts, hvalues⟩ := size_addInsts f block.insts
    obtain ⟨hparams', hinsts', hvalues'⟩ := ih (f.addInsts block.insts).2
    simp only [Function.addBodies, List.flatMap_cons, List.flatMap_append, List.length_append]
    refine ⟨hparams'.trans hparams, ?_, ?_⟩
    · omega
    · omega

end Sizes

section Numbers

theorem addInsts_fst (f : Function) (specs : List InstSpec) :
    (f.addInsts specs).1 = List.range' f.insts.size specs.length := by
  induction specs generalizing f with
  | nil => rfl
  | cons spec rest ih =>
    have hrest := ih (f.addInst spec).2
    rw [size_addInst] at hrest
    simp only [addInsts, List.length_cons, List.range'_succ]
    rw [hrest]
    rfl

theorem flatten_addBodies (f : Function) (specs : List BlockSpec) :
    (f.addBodies specs).1.flatten =
      List.range' f.insts.size (specs.flatMap BlockSpec.insts).length := by
  induction specs generalizing f with
  | nil => rfl
  | cons block rest ih =>
    have hrest := ih (f.addInsts block.insts).2
    rw [(size_addInsts f block.insts).2.1] at hrest
    simp only [addBodies, List.flatten_cons, List.flatMap_cons, List.length_append]
    rw [hrest, addInsts_fst, List.range'_append_1]

theorem flatten_addBlocks (f : Function) (specs : List BlockSpec) :
    (f.addBlocks specs).params.toList.flatten = f.params.toList.flatten ++
      List.range' f.values.size (specs.flatMap BlockSpec.params).length := by
  induction specs generalizing f with
  | nil => simp [addBlocks]
  | cons block rest ih =>
    have hrest := ih (f.addBlock block.params).2
    have hsize : (f.addBlock block.params).2.values.size = f.values.size + block.params.length :=
      size_addValues f block.params _
    have hpushed : (f.addBlock block.params).2.params.toList.flatten =
        f.params.toList.flatten ++ List.range' f.values.size block.params.length := by
      simp [addBlock, addValues, List.range'_eq_map_range]
    rw [hsize, hpushed] at hrest
    rw [List.flatMap_cons, List.length_append, ← List.range'_append_1, ← List.append_assoc]
    exact hrest

theorem params_addInsts (f : Function) (specs : List InstSpec) :
    (f.addInsts specs).2.params = f.params := by
  induction specs generalizing f with
  | nil => rfl
  | cons spec rest ih => exact ih (f.addInst spec).2

theorem params_addBodies (f : Function) (specs : List BlockSpec) :
    (f.addBodies specs).2.params = f.params := by
  induction specs generalizing f with
  | nil => rfl
  | cons block rest ih => exact (ih (f.addInsts block.insts).2).trans (params_addInsts f _)

end Numbers

theorem exists_of_mem_getD {α : Type} {bodies : List (List α)} {b : Nat} {x : α}
    (hx : x ∈ bodies[b]?.getD []) : ∃ hlt : b < bodies.length, x ∈ bodies[b] := by
  cases hb : bodies[b]? with
  | none =>
    rw [hb] at hx
    exact absurd hx List.not_mem_nil
  | some body =>
    rw [hb] at hx
    obtain ⟨hlt, rfl⟩ := List.getElem?_eq_some_iff.mp hb
    exact ⟨hlt, hx⟩

/-- Members of a list of lists that are taken at distinct places have nothing in common and nothing
twice, when all of them together have nothing twice. -/
theorem nodup_flatMap_getD {α : Type} {bodies : List (List α)} (h : bodies.flatten.Nodup)
    {order : List Nat} (horder : order.Nodup) :
    (order.flatMap fun b => bodies[b]?.getD []).Nodup := by
  obtain ⟨hown, hapart⟩ := List.nodup_flatten.mp h
  refine List.nodup_flatMap.mpr ⟨?_, horder.imp ?_⟩
  · intro b _
    cases hb : bodies[b]? with
    | none => exact List.nodup_nil
    | some body => exact hown body (List.mem_of_getElem? hb)
  · intro a b hne x hxa hxb
    obtain ⟨hltA, hmemA⟩ := exists_of_mem_getD hxa
    obtain ⟨hltB, hmemB⟩ := exists_of_mem_getD hxb
    rw [List.pairwise_iff_getElem] at hapart
    rcases Nat.lt_or_gt_of_ne hne with hlt | hlt
    · exact hapart a b hltA hltB hlt hmemA hmemB
    · exact hapart b a hltB hltA hlt hmemB hmemA

section Build

variable {spec : FunctionSpec}

def bare (spec : FunctionSpec) : Function :=
  ⟨spec.name, spec.slots, spec.globals, #[], #[], #[], []⟩

/-- A described function before its blocks are laid out, with the instructions of each block. -/
def unlaid (spec : FunctionSpec) : List (List InstId) × Function :=
  ((bare spec).addBlocks spec.blocks).addBodies spec.blocks

theorem build_eq (spec : FunctionSpec) : build spec =
    { (unlaid spec).2 with
      layout := spec.order.map fun b => ⟨b, (unlaid spec).1[b]?.getD []⟩ } := rfl

theorem size_unlaid (spec : FunctionSpec) :
    (unlaid spec).2.params.size = spec.blocks.length ∧
      (unlaid spec).2.insts.size = (spec.blocks.flatMap BlockSpec.insts).length ∧
      (unlaid spec).2.values.size = spec.valueCount := by
  obtain ⟨hparams, hinsts, hvalues⟩ := size_addBlocks (bare spec) spec.blocks
  obtain ⟨hparams', hinsts', hvalues'⟩ :=
    size_addBodies ((bare spec).addBlocks spec.blocks) spec.blocks
  rw [hparams] at hparams'
  rw [hinsts] at hinsts'
  rw [hvalues] at hvalues'
  refine ⟨?_, ?_, ?_⟩
  · exact hparams'.trans (Nat.zero_add _)
  · exact hinsts'.trans (Nat.zero_add _)
  · exact hvalues'.trans (congrArg (· + _) (Nat.zero_add _))

theorem flatten_unlaid (spec : FunctionSpec) :
    (unlaid spec).1.flatten = List.range (unlaid spec).2.insts.size := by
  have hstart : ((bare spec).addBlocks spec.blocks).insts.size = 0 :=
    (size_addBlocks (bare spec) spec.blocks).2.1
  rw [(size_unlaid spec).2.1, List.range_eq_range', ← hstart]
  exact flatten_addBodies _ spec.blocks

theorem building_unlaid (h : spec.InRange) :
    (unlaid spec).2.Building spec.blocks.length spec.valueCount := by
  have hbare : (bare spec).Building spec.blocks.length spec.valueCount :=
    ⟨fun b hb => absurd hb (Nat.not_lt_zero b), fun i hi => absurd hi (Nat.not_lt_zero i),
      fun i hi => absurd hi (Nat.not_lt_zero i)⟩
  exact (hbare.addBlocks spec.blocks).addBodies h.fits

theorem blocks_build (spec : FunctionSpec) : (build spec).blocks = spec.order := by
  simp [build_eq, blocks, Function.comp_def]

theorem layoutInsts_build (spec : FunctionSpec) : (build spec).layoutInsts =
    spec.order.flatMap fun b => (unlaid spec).1[b]?.getD [] := by
  simp [build_eq, layoutInsts, List.flatMap_map]

theorem nodup_params_build (h : spec.order.Nodup) :
    ((build spec).blocks.flatMap (build spec).blockParams).Nodup := by
  have hflat : (unlaid spec).2.params.toList.flatten =
      List.range' 0 (spec.blocks.flatMap BlockSpec.params).length := by
    unfold unlaid
    rw [params_addBodies, flatten_addBlocks]
    rfl
  have hparams : (build spec).blocks.flatMap (build spec).blockParams =
      spec.order.flatMap fun b => (unlaid spec).2.params.toList[b]?.getD [] := by
    rw [blocks_build]
    congr 1
    funext b
    unfold blockParams
    rw [build_eq, Array.getElem?_toList]
  rw [hparams]
  refine nodup_flatMap_getD ?_ h
  rw [hflat]
  exact List.nodup_range'

theorem lt_of_mem_layoutInsts_build {i : InstId} (hi : i ∈ (build spec).layoutInsts) :
    i < (unlaid spec).2.insts.size := by
  rw [layoutInsts_build] at hi
  obtain ⟨b, -, hb⟩ := List.mem_flatMap.mp hi
  obtain ⟨hlt, hmem⟩ := exists_of_mem_getD hb
  have hflat := List.mem_flatten.mpr ⟨_, List.getElem_mem hlt, hmem⟩
  rw [flatten_unlaid] at hflat
  exact List.mem_range.mp hflat

theorem build_wellFormed (h : spec.InRange) : (build spec).WellFormed := by
  have hsize : (build spec).params.size = spec.blocks.length := (size_unlaid spec).1
  constructor
  case blocks_nodup =>
    rw [blocks_build]
    exact h.order_nodup
  case blocks_lt =>
    intro b hb
    rw [blocks_build] at hb
    rw [hsize]
    exact h.order_lt b hb
  case insts_nodup =>
    rw [layoutInsts_build]
    refine nodup_flatMap_getD ?_ h.order_nodup
    rw [flatten_unlaid]
    exact List.nodup_range
  case insts_lt =>
    intro i hi
    exact lt_of_mem_layoutInsts_build hi
  case targets_lt =>
    intro i hi call hcall
    rw [targets_eq] at hcall
    rw [hsize]
    exact (((building_unlaid h).fits i hi).2 call hcall).1

theorem build_defined (h : spec.InRange) : (build spec).Defined := by
  have hbuilding := building_unlaid h
  have hvalues : (build spec).values.size = spec.valueCount := (size_unlaid spec).2.2
  constructor
  case args_lt =>
    intro i hi v hv
    rw [hvalues]
    exact (hbuilding.fits i (lt_of_mem_layoutInsts_build hi)).1 v hv
  case passed_lt =>
    intro i hi call hcall v hv
    rw [targets_eq] at hcall
    rw [hvalues]
    exact ((hbuilding.fits i (lt_of_mem_layoutInsts_build hi)).2 call hcall).2 v hv
  case results_defined =>
    intro i hi r hr
    exact hbuilding.results_defined i (lt_of_mem_layoutInsts_build hi) r hr
  case params_defined =>
    intro b hb p hp
    have hlt := (build_wellFormed h).blocks_lt b hb
    exact hbuilding.params_defined b hlt p hp

end Build

end Function

end SpecFence
