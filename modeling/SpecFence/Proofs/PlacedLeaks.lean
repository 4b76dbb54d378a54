import SpecFence.Proofs.Dependents
import SpecFence.Proofs.Origins
import SpecFence.Proofs.Restoration

/-!
# Fences open no leak

A chain of uses in a function with fences put in and edges split leads through values that stand for
values of the function before: a parameter of a new block for the parameter that it is passed on to,
and any other value for itself.  What stops a chain before stops it still, because the place
directly before an instruction is given to a fence alone.  So no value leaks that did not leak
before any fence was placed.
-/

set_option autoImplicit false

namespace SpecFence

open Relation

namespace Function

variable {f g : Function} {table : IntrinsicTable} {v w : ValueId} {i : InstId}

section Chains

/-- An instruction that no fence precedes has the value as an operand that is always transmitted, or
calls an intrinsic of which nothing is known. -/
def Exposed (f : Function) (table : IntrinsicTable) (v : ValueId) : Prop :=
  ∃ i ∈ f.layoutInsts, f.hasFenceBefore i = false ∧ v ∈ f.args i ∧
    ((∃ operands, f.transmitters table i = .ok operands ∧ (v, .always) ∈ operands) ∨
      ∃ intrinsic, table.calledBy? f i = some intrinsic ∧ intrinsic.leak = .unknown)

/-- A value goes on into the first result of an instruction other than a call that no fence precedes,
or into a block parameter that a branch feeds. -/
inductive GoesInto (f : Function) : ValueId → ValueId → Prop
  | result {v r : ValueId} {i : InstId} (hi : i ∈ f.layoutInsts)
      (hfence : f.hasFenceBefore i = false) (hv : v ∈ f.args i)
      (hcall : (f.opcode i).isCall = false) (hr : f.firstResult? i = some r) : GoesInto f v r
  | passed {v p : ValueId} (hp : f.Passes v p) : GoesInto f v p

theorem transmitters_of_calledBy? {intrinsic : Intrinsic}
    (h : table.calledBy? f i = some intrinsic) :
    f.transmitters table i = f.intrinsicTransmitters i intrinsic := by
  have hformat : (f.opcode i).format = .call := by
    unfold IntrinsicTable.calledBy? at h
    split at h
    · split at h
      · assumption
      · cases h
    · cases h
  have hopcode : f.opcode i ≠ .atomicLoad ∧ f.opcode i ≠ .atomicStore := by
    constructor
    · intro heq
      rw [heq] at hformat
      cases hformat
    · intro heq
      rw [heq] at hformat
      cases hformat
  unfold transmitters loadAddress? storeOperands?
  simp only [hformat, hopcode, reduceCtorEq, or_self, if_false, h]

theorem alwaysTransmits_iff : f.alwaysTransmits table i v = true ↔
    (∃ operands, f.transmitters table i = .ok operands ∧ (v, .always) ∈ operands) ∨
      ∃ intrinsic, table.calledBy? f i = some intrinsic ∧ intrinsic.leak = .unknown := by
  have hunknown : (∃ e, f.transmitters table i = .error e) ↔
      ∃ intrinsic, table.calledBy? f i = some intrinsic ∧ intrinsic.leak = .unknown := by
    constructor
    · rintro ⟨e, he⟩
      unfold transmitters at he
      split at he
      · cases he
      · cases he
      · split at he
        all_goals try cases he
        · cases hcalled : table.calledBy? f i with
          | none =>
            rw [hcalled] at he
            cases he
          | some intrinsic =>
            rw [hcalled] at he
            refine ⟨intrinsic, rfl, ?_⟩
            by_contra hknown
            obtain ⟨operands, hoperands⟩ := exists_intrinsicTransmitters hknown
            cases hoperands.symm.trans he
        · split at he <;> cases he
    · rintro ⟨intrinsic, hcalled, hleak⟩
      refine ⟨.noLeakRule f.name i intrinsic, ?_⟩
      rw [transmitters_of_calledBy? hcalled]
      unfold intrinsicTransmitters
      rw [hleak]
  rw [← hunknown]
  unfold alwaysTransmits
  cases f.transmitters table i with
  | error e => simp
  | ok operands => simp

theorem leaks_iff_chain :
    f.Leaks table v ↔ ∃ w, ReflTransGen f.GoesInto v w ∧ f.Exposed table w := by
  constructor
  · intro hleaks
    induction hleaks with
    | @transmitted v i hi hfence hv hleak =>
      exact ⟨v, .refl, i, hi, hfence, hv, alwaysTransmits_iff.mp hleak⟩
    | result hi hfence hv hcall hr _ ih =>
      obtain ⟨w, hreach, hexposed⟩ := ih
      exact ⟨w, hreach.head (.result hi hfence hv hcall hr), hexposed⟩
    | passed hp _ ih =>
      obtain ⟨w, hreach, hexposed⟩ := ih
      exact ⟨w, hreach.head (.passed hp), hexposed⟩
  · rintro ⟨w, hreach, hexposed⟩
    induction hreach using ReflTransGen.head_induction_on with
    | refl =>
      obtain ⟨i, hi, hfence, hv, hleak⟩ := hexposed
      exact .transmitted hi hfence hv (alwaysTransmits_iff.mpr hleak)
    | head hstep _ ih =>
      cases hstep with
      | result hi hfence hv hcall hr => exact .result hi hfence hv hcall hr ih
      | passed hp => exact .passed hp ih

end Chains

section TracesBack

/-- An instruction is the same in two functions, but for where it goes. -/
structure SameInst (f g : Function) (i : InstId) : Prop where
  opcode : g.opcode i = f.opcode i
  args : g.args i = f.args i
  results : g.results i = f.results i
  transmitters : ∀ table, g.transmitters table i = f.transmitters table i

/-- The uses of one function are uses of another when each value is read as the one that it stands
for.  Passing a value on may be no use at all there: then both values stand for the same one. -/
structure TracesBack (f g : Function) (origin : ValueId → ValueId) : Prop where
  fixed : ∀ v < f.values.size, origin v = v
  insts : ∀ i ∈ g.layoutInsts, g.args i ≠ [] → i ∈ f.layoutInsts ∧ SameInst f g i
  fences : ∀ i, f.hasFenceBefore i = true → g.hasFenceBefore i = true
  passes : ∀ v p, g.Passes v p → f.Passes (origin v) (origin p) ∨ origin v = origin p

theorem transmitters_congr (hname : g.name = f.name) (hopcode : g.opcode i = f.opcode i)
    (hargs : g.args i = f.args i) (hcalled : table.calledBy? g i = table.calledBy? f i) :
    g.transmitters table i = f.transmitters table i := by
  unfold transmitters loadAddress? storeOperands? intrinsicTransmitters
  rw [hname, hopcode, hargs, hcalled]

theorem sameInst_of_inst (hname : g.name = f.name) (hinst : g.inst i = f.inst i) :
    SameInst f g i := by
  have hopcode : g.opcode i = f.opcode i := congrArg InstData.opcode hinst
  have hargs : g.args i = f.args i := congrArg InstData.args hinst
  refine ⟨hopcode, hargs, congrArg InstData.results hinst, fun table => ?_⟩
  apply transmitters_congr hname hopcode hargs
  unfold IntrinsicTable.calledBy?
  rw [hinst, hopcode]

namespace TracesBack

variable {origin : ValueId → ValueId}

theorem unfenced (h : TracesBack f g origin) (hfence : g.hasFenceBefore i = false) :
    f.hasFenceBefore i = false := by
  cases hbefore : f.hasFenceBefore i with
  | false => rfl
  | true =>
    rw [h.fences i hbefore] at hfence
    cases hfence

theorem leaks (h : TracesBack f g origin) (hd : f.Defined) (hleaks : g.Leaks table v) :
    f.Leaks table (origin v) := by
  induction hleaks with
  | @transmitted v i hi hfence hv hleak =>
    obtain ⟨hold, hsame⟩ := h.insts i hi (List.ne_nil_of_mem hv)
    rw [hsame.args] at hv
    rw [h.fixed v (hd.args_lt i hold v hv)]
    refine .transmitted hold (h.unfenced hfence) hv ?_
    unfold alwaysTransmits at hleak ⊢
    rw [← hsame.transmitters]
    exact hleak
  | @result v r i hi hfence hv hcall hr _ ih =>
    obtain ⟨hold, hsame⟩ := h.insts i hi (List.ne_nil_of_mem hv)
    rw [hsame.args] at hv
    rw [hsame.opcode] at hcall
    have hr' : f.firstResult? i = some r := (congrArg List.head? hsame.results).symm.trans hr
    rw [h.fixed r (lt_of_definition? (hd.firstResult?_defined hold hr'))] at ih
    rw [h.fixed v (hd.args_lt i hold v hv)]
    exact .result hold (h.unfenced hfence) hv hcall hr' ih
  | passed hp _ ih =>
    rcases h.passes _ _ hp with hpasses | heq
    · exact .passed hpasses ih
    · rw [heq]
      exact ih

end TracesBack

end TracesBack

theorem Defined.extend (hd : f.Defined)
    (hvalues : ∀ v < f.values.size, g.values[v]? = f.values[v]?)
    (hinsts : ∀ j ∈ g.layoutInsts,
      (j ∈ f.layoutInsts ∧ g.args j = f.args j ∧ g.results j = f.results j) ∨
        (g.args j = [] ∧ g.results j = []))
    (hpassed : ∀ j ∈ g.layoutInsts, ∀ call ∈ g.targets j, ∀ v ∈ call.args, v < g.values.size)
    (hparams : ∀ b ∈ g.blocks, ∀ p ∈ g.blockParams b, g.definition? p = some (.param b)) :
    g.Defined := by
  have hkept : ∀ v d, f.definition? v = some d → g.definition? v = some d := by
    intro v d hv
    unfold definition? at hv ⊢
    rw [hvalues v (lt_of_definition? hv)]
    exact hv
  constructor
  case args_lt =>
    intro j hj v hv
    rcases hinsts j hj with ⟨hold, hargs, -⟩ | ⟨hargs, -⟩
    · rw [hargs] at hv
      have hlt := hd.args_lt j hold v hv
      have hsome := (hvalues v hlt).trans (Array.getElem?_eq_getElem hlt)
      exact (Array.getElem?_eq_some_iff.mp hsome).1
    · rw [hargs] at hv
      exact absurd hv List.not_mem_nil
  case passed_lt => exact hpassed
  case results_defined =>
    intro j hj r hr
    rcases hinsts j hj with ⟨hold, -, hresults⟩ | ⟨-, hresults⟩
    · rw [hresults] at hr
      exact hkept r _ (hd.results_defined j hold r hr)
    · rw [hresults] at hr
      exact absurd hr List.not_mem_nil
  case params_defined => exact hparams

section Fence

theorem mem_layoutInsts_withFenceBefore (h : f.WellFormed) {j : InstId}
    (hj : j ∈ (f.withFenceBefore i).layoutInsts) : j ∈ f.layoutInsts ∨ j = f.insts.size := by
  obtain ⟨b, hb⟩ := (withFenceBefore_wellFormed h).mem_layoutInsts.mp hj
  rw [blockInsts_withFenceBefore] at hb
  rcases mem_insertBeforeIn.mp hb with hold | ⟨hnew, -⟩
  · exact Or.inl (h.mem_layoutInsts.mpr ⟨b, hold⟩)
  · exact Or.inr hnew

theorem inst_withFenceBefore_self :
    (f.withFenceBefore i).inst f.insts.size = ⟨.fence, [], .none, none, []⟩ :=
  inst_addInst_self f fenceSpec

theorem passes_withFenceBefore (h : f.WellFormed) {p : ValueId}
    (hp : (f.withFenceBefore i).Passes v p) : f.Passes v p := by
  obtain ⟨a, j, call, hlast, hbranch, hcall, hin, hmem⟩ := hp
  rw [lastInst?_withFenceBefore] at hlast
  have hj := h.lt_of_mem_blockInsts (List.mem_of_mem_getLast? hlast)
  unfold opcode at hbranch
  unfold targets at hcall
  rw [inst_withFenceBefore hj] at hbranch hcall
  have hblocks : (f.withFenceBefore i).blocks = f.blocks := blocks_layBefore _ _ _
  exact ⟨a, j, call, hlast, hbranch, hcall, hblocks ▸ hin, hmem⟩

theorem tracesBack_withFenceBefore (h : f.WellFormed) : TracesBack f (f.withFenceBefore i) id := by
  constructor
  case fixed => exact fun v _ => rfl
  case insts =>
    intro j hj hargs
    rcases mem_layoutInsts_withFenceBefore h hj with hold | rfl
    · exact ⟨hold, sameInst_of_inst rfl (inst_withFenceBefore (h.insts_lt j hold))⟩
    · unfold args at hargs
      rw [inst_withFenceBefore_self] at hargs
      exact absurd rfl hargs
  case fences => exact fun j hj => hasFenceBefore_withFenceBefore h hj
  case passes => exact fun v p hp => Or.inl (passes_withFenceBefore h hp)

theorem Defined.withFenceBefore (hd : f.Defined) (h : f.WellFormed) :
    (f.withFenceBefore i).Defined := by
  have hblocks : (f.withFenceBefore i).blocks = f.blocks := blocks_layBefore _ _ _
  apply hd.extend
  case hvalues =>
    intro v _
    rw [values_withFenceBefore]
  case hinsts =>
    intro j hj
    unfold args results
    rcases mem_layoutInsts_withFenceBefore h hj with hold | rfl
    · rw [inst_withFenceBefore (h.insts_lt j hold)]
      exact Or.inl ⟨hold, rfl, rfl⟩
    · rw [inst_withFenceBefore_self]
      exact Or.inr ⟨rfl, rfl⟩
  case hpassed =>
    intro j hj call hcall
    rw [targets_eq] at hcall
    rw [values_withFenceBefore]
    rcases mem_layoutInsts_withFenceBefore h hj with hold | rfl
    · rw [inst_withFenceBefore (h.insts_lt j hold), ← targets_eq] at hcall
      exact hd.passed_lt j hold call hcall
    · rw [inst_withFenceBefore_self] at hcall
      exact absurd hcall List.not_mem_nil
  case hparams =>
    intro b hb
    rw [hblocks] at hb
    unfold definition?
    rw [values_withFenceBefore]
    exact hd.params_defined b hb

end Fence

section Split

variable {source target : BlockId} {branch : InstId} {types : List Ty} {uniform : Bool}
  {passed : List ValueId} {p : ValueId}

/-- What a value stands for when an edge to a block has been split: a parameter of the new block for
the parameter of the block that it is passed on to, and any other value for itself. -/
def beforeSplit (f : Function) (target : BlockId) (v : ValueId) : ValueId :=
  if v < f.values.size then v else (f.blockParams target)[v - f.values.size]?.getD v

theorem beforeSplit_of_lt (hv : v < f.values.size) : f.beforeSplit target v = v := if_pos hv

theorem beforeSplit_new {k : Nat} (hp : (f.blockParams target)[k]? = some p) :
    f.beforeSplit target (f.values.size + k) = p := by
  unfold beforeSplit
  rw [if_neg (Nat.not_lt.mpr (Nat.le_add_right _ _)), Nat.add_sub_cancel_left, hp]
  rfl

theorem mem_zip_iff {params args : List ValueId} :
    (p, v) ∈ params.zip args ↔ ∃ k : Nat, params[k]? = some p ∧ args[k]? = some v := by
  rw [List.mem_iff_getElem?]
  simp only [List.getElem?_zip_eq_some]

theorem getElem?_newParams {k : Nat} (h : (f.newParams types)[k]? = some p) :
    k < types.length ∧ p = f.values.size + k := by
  unfold newParams at h
  rw [List.getElem?_map] at h
  obtain ⟨n, hn, rfl⟩ := Option.map_eq_some_iff.mp h
  obtain ⟨hlt, rfl⟩ := List.getElem?_eq_some_iff.mp hn
  rw [List.length_range] at hlt
  rw [List.getElem_range]
  exact ⟨hlt, rfl⟩

theorem values_eq_splitWith : (f.splitWith source target branch types uniform passed).values =
    f.values ++ (types.map fun t => ⟨t, .param f.params.size⟩).toArray :=
  Array.append_empty

theorem definition?_newParam (hp : p ∈ f.newParams types) :
    (f.splitWith source target branch types uniform passed).definition? p =
      some (.param f.params.size) := by
  obtain ⟨k, hk, rfl⟩ := List.mem_map.mp hp
  have hlt : k < types.length := List.mem_range.mp hk
  unfold definition?
  rw [values_eq_splitWith, Array.getElem?_append_right (Nat.le_add_right _ _),
    Nat.add_sub_cancel_left]
  simp [hlt]

theorem mem_blocks_splitWith (hsource : source ∈ f.blocks) {b : BlockId} :
    b ∈ (f.splitWith source target branch types uniform passed).blocks ↔
      b = f.params.size ∨ b ∈ f.blocks :=
  (perm_blocks_layAfter _ hsource).mem_iff.trans List.mem_cons

theorem mem_layoutInsts_splitWith (h : f.WellFormed) (hsource : source ∈ f.blocks)
    (hwell : (f.splitWith source target branch types uniform passed).WellFormed) {j : InstId}
    (hj : j ∈ (f.splitWith source target branch types uniform passed).layoutInsts) :
    j ∈ f.layoutInsts ∨ j = f.insts.size := by
  obtain ⟨b, hb⟩ := hwell.mem_layoutInsts.mp hj
  rw [blockInsts_splitWith h hsource] at hb
  split at hb
  · exact Or.inr (List.mem_singleton.mp hb)
  · exact Or.inl (h.mem_layoutInsts.mpr ⟨b, hb⟩)

theorem inst_splitWith_self :
    (f.splitWith source target branch types uniform passed).inst f.insts.size =
      ⟨.jump, [], .targets [⟨target, passed⟩], none, []⟩ := by
  have hjump := inst_addInst_self ((f.addBlock types).2.setTargets branch
    ((f.targets branch).map (retarget target f.params.size uniform))) (jumpSpec target passed)
  rw [size_setTargets] at hjump
  exact hjump

theorem sameInst_splitWith {j : InstId} (hcall : f.targets branch ≠ []) (hj : j < f.insts.size) :
    SameInst f (f.splitWith source target branch types uniform passed) j := by
  have hname : (f.splitWith source target branch types uniform passed).name = f.name := rfl
  by_cases hbranch : j = branch
  · rw [hbranch] at hj ⊢
    have hinst : (f.splitWith source target branch types uniform passed).inst branch = _ :=
      inst_splitWith_branch hj
    have hargs : (f.splitWith source target branch types uniform passed).args branch =
        f.args branch := by
      unfold args
      rw [hinst]
    have hresults : (f.splitWith source target branch types uniform passed).results branch =
        f.results branch := by
      unfold results
      rw [hinst]
    refine ⟨opcode_splitWith hj, hargs, hresults, fun table => ?_⟩
    apply transmitters_congr hname (opcode_splitWith hj) hargs
    unfold IntrinsicTable.calledBy?
    rw [hinst, extra_of_targets hcall]
  · exact sameInst_of_inst hname (inst_splitWith hj hbranch)

theorem hasFenceBefore_splitWith (h : f.WellFormed) (hsource : source ∈ f.blocks)
    (hwell : (f.splitWith source target branch types uniform passed).WellFormed) {j : InstId}
    (hj : f.hasFenceBefore j = true) :
    (f.splitWith source target branch types uniform passed).hasFenceBefore j = true := by
  obtain ⟨b, x, hadjacent, hfence⟩ := h.hasFenceBefore_iff.mp hj
  have hb : b ≠ f.params.size := by
    rintro rfl
    exact h.fresh_block (mem_blocks_of_mem_blockInsts hadjacent.mem_left)
  refine hwell.hasFenceBefore_iff.mpr ⟨b, x, ?_, ?_⟩
  · rw [blockInsts_splitWith h hsource, if_neg hb]
    exact hadjacent
  · unfold isFence at hfence ⊢
    rw [opcode_splitWith (h.lt_of_mem_blockInsts hadjacent.mem_left)]
    exact hfence

theorem mem_args_of_retarget {new : BlockId} {call : BlockCall}
    (hv : v ∈ (retarget target new uniform call).args) : v ∈ call.args := by
  unfold retarget at hv
  split at hv
  · cases uniform with
    | true => exact absurd hv List.not_mem_nil
    | false => exact hv
  · exact hv

theorem SplitsEdge.mem_passed (hsplit : SplitsEdge f source target branch types uniform passed)
    (hv : v ∈ passed) :
    (∃ call ∈ f.targets branch, v ∈ call.args) ∨ v ∈ f.newParams types := by
  cases uniform with
  | true =>
    obtain ⟨call, hmem, hblock⟩ := hsplit.leads
    exact Or.inl ⟨call, hmem, ((hsplit.shared rfl).2 call hmem hblock).symm ▸ hv⟩
  | false => exact Or.inr ((hsplit.diverging rfl).2 ▸ hv)

section Passes

variable (h : f.WellFormed) (hd : f.Defined)
  (hsplit : SplitsEdge f source target branch types uniform passed) (htarget : target ∈ f.blocks)
include h hd

theorem passes_beforeSplit (hp : f.Passes v p) :
    f.Passes (f.beforeSplit target v) (f.beforeSplit target p) := by
  obtain ⟨b, hdefinition⟩ := hd.passes_defined hp
  rw [beforeSplit_of_lt (hd.lt_of_passes h hp), beforeSplit_of_lt (lt_of_definition? hdefinition)]
  exact hp

include hsplit htarget

theorem passes_of_jump (hmem : (p, v) ∈ (f.blockParams target).zip passed) :
    f.Passes (f.beforeSplit target v) (f.beforeSplit target p) ∨
      f.beforeSplit target v = f.beforeSplit target p := by
  cases uniform with
  | true =>
    obtain ⟨call, hmemCall, hblock⟩ := hsplit.leads
    rw [← (hsplit.shared rfl).2 call hmemCall hblock, ← hblock] at hmem
    exact Or.inl (passes_beforeSplit h hd
      ⟨source, branch, call, hsplit.last, hsplit.isBranch, hmemCall, hblock ▸ htarget, hmem⟩)
  | false =>
    rw [(hsplit.diverging rfl).2] at hmem
    have hplt := lt_of_definition? (hd.params_defined target htarget p (List.of_mem_zip hmem).1)
    obtain ⟨k, hparam, hnew⟩ := mem_zip_iff.mp hmem
    obtain ⟨-, rfl⟩ := getElem?_newParams hnew
    exact Or.inr ((beforeSplit_new hparam).trans (beforeSplit_of_lt hplt).symm)

theorem passes_of_branch {call : BlockCall} (hmemCall : call ∈ f.targets branch)
    (hblock : call.block = target)
    (hmem : (p, v) ∈ (f.newParams types).zip (if uniform then [] else call.args)) :
    f.Passes (f.beforeSplit target v) (f.beforeSplit target p) := by
  cases uniform with
  | true =>
    rw [if_pos rfl, List.zip_nil_right] at hmem
    exact absurd hmem List.not_mem_nil
  | false =>
    rw [if_neg Bool.false_ne_true] at hmem
    obtain ⟨k, hnew, harg⟩ := mem_zip_iff.mp hmem
    obtain ⟨hk, rfl⟩ := getElem?_newParams hnew
    rw [(hsplit.diverging rfl).1] at hk
    have hparam := List.getElem?_eq_getElem hk
    have hi : branch ∈ f.layoutInsts := h.mem_layoutInsts.mpr ⟨source, hsplit.mem_blockInsts⟩
    rw [beforeSplit_new hparam,
      beforeSplit_of_lt (hd.passed_lt branch hi call hmemCall v (List.of_mem_zip hmem).2)]
    refine ⟨source, branch, call, hsplit.last, hsplit.isBranch, hmemCall, hblock ▸ htarget, ?_⟩
    rw [hblock]
    exact mem_zip_iff.mpr ⟨k, hparam, harg⟩

theorem passes_splitWith
    (hp : (f.splitWith source target branch types uniform passed).Passes v p) :
    f.Passes (f.beforeSplit target v) (f.beforeSplit target p) ∨
      f.beforeSplit target v = f.beforeSplit target p := by
  have hsource := hsplit.source_mem
  obtain ⟨a, i, call, hlast, hisBranch, hmemCall, hin, hmem⟩ := hp
  by_cases ha : a = f.params.size
  · -- the new block
    unfold lastInst? at hlast
    rw [blockInsts_splitWith h hsource, if_pos ha] at hlast
    obtain rfl : f.insts.size = i := Option.some_inj.mp hlast
    rw [inst_splitWith_jump.2] at hmemCall
    obtain rfl := List.mem_singleton.mp hmemCall
    rw [blockParams_splitWith (Nat.ne_of_lt (h.blocks_lt target htarget))] at hmem
    exact passes_of_jump h hd hsplit htarget hmem
  · rw [lastInst?_splitWith h hsource ha] at hlast
    have hi := h.lt_of_mem_blockInsts (List.mem_of_mem_getLast? hlast)
    rw [opcode_splitWith hi] at hisBranch
    -- a destination that is kept
    have hkept : call ∈ f.targets i →
        f.Passes (f.beforeSplit target v) (f.beforeSplit target p) := by
      intro hold
      have hne : call.block ≠ f.params.size := Nat.ne_of_lt (h.targets_lt i hi call hold)
      rw [blockParams_splitWith hne] at hmem
      have hinOld := ((mem_blocks_splitWith hsource).mp hin).resolve_left hne
      exact passes_beforeSplit h hd ⟨a, i, call, hlast, hisBranch, hold, hinOld, hmem⟩
    left
    by_cases hi' : i = branch
    · rw [hi', targets_splitWith_branch (hi' ▸ hi)] at hmemCall
      obtain ⟨old, hold, rfl⟩ := List.mem_map.mp hmemCall
      by_cases hblock : old.block = target
      · unfold retarget at hmem
        rw [if_pos hblock, blockParams_splitWith_new] at hmem
        exact passes_of_branch h hd hsplit htarget hold hblock hmem
      · apply hkept
        unfold retarget
        rw [if_neg hblock, hi']
        exact hold
    · unfold targets at hmemCall
      rw [inst_splitWith hi hi'] at hmemCall
      exact hkept hmemCall

theorem tracesBack_splitWith :
    TracesBack f (f.splitWith source target branch types uniform passed)
      (f.beforeSplit target) := by
  have hsource := hsplit.source_mem
  have hwell := (hsplit.edgeSplit h).wellFormed
  constructor
  case fixed => exact fun v hv => beforeSplit_of_lt hv
  case insts =>
    intro j hj hargs
    rcases mem_layoutInsts_splitWith h hsource hwell hj with hold | rfl
    · exact ⟨hold, sameInst_splitWith hsplit.targets_ne_nil (h.insts_lt j hold)⟩
    · unfold args at hargs
      rw [inst_splitWith_self] at hargs
      exact absurd rfl hargs
  case fences => exact fun j hj => hasFenceBefore_splitWith h hsource hwell hj
  case passes => exact fun v p hp => passes_splitWith h hd hsplit htarget hp

omit htarget in
theorem Defined.splitWith : (f.splitWith source target branch types uniform passed).Defined := by
  have hsource := hsplit.source_mem
  have hi : branch ∈ f.layoutInsts := h.mem_layoutInsts.mpr ⟨source, hsplit.mem_blockInsts⟩
  have hwell := (hsplit.edgeSplit h).wellFormed
  have hsize : (f.splitWith source target branch types uniform passed).values.size =
      f.values.size + types.length := by
    rw [values_eq_splitWith]
    simp
  apply hd.extend
  case hvalues => exact fun v hv => values_splitWith hv
  case hinsts =>
    intro j hj
    rcases mem_layoutInsts_splitWith h hsource hwell hj with hold | rfl
    · have hsame : SameInst f (f.splitWith source target branch types uniform passed) j :=
        sameInst_splitWith hsplit.targets_ne_nil (h.insts_lt j hold)
      exact Or.inl ⟨hold, hsame.args, hsame.results⟩
    · unfold args results
      rw [inst_splitWith_self]
      exact Or.inr ⟨rfl, rfl⟩
  case hpassed =>
    intro j hj call hmemCall v hv
    rw [hsize]
    rcases mem_layoutInsts_splitWith h hsource hwell hj with hold | rfl
    · apply Nat.lt_add_right
      by_cases hj' : j = branch
      · rw [hj', targets_splitWith_branch (h.insts_lt branch hi)] at hmemCall
        obtain ⟨old, hmemOld, rfl⟩ := List.mem_map.mp hmemCall
        exact hd.passed_lt branch hi old hmemOld v (mem_args_of_retarget hv)
      · unfold targets at hmemCall
        rw [inst_splitWith (h.insts_lt j hold) hj'] at hmemCall
        exact hd.passed_lt j hold call hmemCall v hv
    · rw [inst_splitWith_jump.2] at hmemCall
      obtain rfl := List.mem_singleton.mp hmemCall
      rcases hsplit.mem_passed hv with ⟨old, hmemOld, hvOld⟩ | hnew
      · exact Nat.lt_add_right _ (hd.passed_lt branch hi old hmemOld v hvOld)
      · obtain ⟨k, hk, rfl⟩ := List.mem_map.mp hnew
        exact Nat.add_lt_add_left (List.mem_range.mp hk) _
  case hparams =>
    intro b hb p hp
    rcases (mem_blocks_splitWith hsource).mp hb with rfl | hold
    · rw [blockParams_splitWith_new] at hp
      exact definition?_newParam hp
    · rw [blockParams_splitWith (Nat.ne_of_lt (h.blocks_lt b hold))] at hp
      have hdefinition := hd.params_defined b hold p hp
      unfold definition? at hdefinition ⊢
      rw [values_splitWith (lt_of_definition? hdefinition)]
      exact hdefinition

end Passes

end Split

end Function

open SpecFence.Function

namespace Placer

variable {f : Function} {p : Placer}

/-- A placer has opened no leak in the function that it was started with. -/
structure Tight (f : Function) (p : Placer) : Prop where
  wellFormed : p.function.WellFormed
  defined : p.function.Defined
  values_le : f.values.size ≤ p.function.values.size
  leaks : ∀ table, ∀ v < f.values.size, p.function.Leaks table v → f.Leaks table v

theorem tight_start (h : f.WellFormed) (hd : f.Defined) (mitigation : Mitigation) :
    Tight f (start f mitigation) :=
  ⟨h, hd, Nat.le_refl _, fun _ _ _ hleaks => hleaks⟩

theorem Tight.edit (htight : Tight f p) {g : Function} {origin : ValueId → ValueId}
    (hwell : g.WellFormed) (hdefined : g.Defined)
    (hvalues : p.function.values.size ≤ g.values.size)
    (htraces : TracesBack p.function g origin) (placed : List PlacedFence) (split : List SplitEdge) :
    Tight f { p with function := g, placed := placed, split := split } := by
  refine ⟨hwell, hdefined, Nat.le_trans htight.values_le hvalues, ?_⟩
  intro table v hv hleaks
  apply htight.leaks table v hv
  rw [← htraces.fixed v (Nat.lt_of_lt_of_le hv htight.values_le)]
  exact htraces.leaks htight.defined hleaks

theorem Tight.withFence (htight : Tight f p) (i : InstId) (point : InsertionPoint) :
    Tight f { p with
      function := p.function.withFenceBefore i
      placed := p.placed ++ [⟨p.function.insts.size, point⟩] } :=
  htight.edit (withFenceBefore_wellFormed htight.wellFormed)
    (htight.defined.withFenceBefore htight.wellFormed)
    (Nat.le_of_eq (congrArg Array.size values_withFenceBefore.symm))
    (tracesBack_withFenceBefore htight.wellFormed) _ _

theorem Tight.withSplit (htight : Tight f p) {s t : BlockId} (ht : t ∈ p.function.blocks)
    (hedge : t ∈ p.function.flowSuccs s) :
    ∃ g, p.function.splitEdge? s t = some (p.function.params.size, g) ∧
      Tight f { p with
        function := g
        split := p.split ++ [⟨s, t, p.function.params.size⟩] } := by
  have hwf := htight.wellFormed
  obtain ⟨branch, types, uniform, passed, hg, hsplit⟩ := exists_splitsEdge hedge
  refine ⟨_, hg, ?_⟩
  apply htight.edit
  case hwell => exact (hsplit.edgeSplit hwf).wellFormed
  case hdefined => exact Defined.splitWith hwf htight.defined hsplit
  case hvalues =>
    rw [values_eq_splitWith, Array.size_append]
    exact Nat.le_add_right _ _
  case htraces => exact tracesBack_splitWith hwf htight.defined hsplit ht

theorem tight_stable (f : Function) : Stable (Tight f) :=
  ⟨fun _ htight => htight.withFence, fun _ htight _ _ ht hedge => htight.withSplit ht hedge,
    fun _ htight _ => ⟨htight.wellFormed, htight.defined, htight.values_le, htight.leaks⟩⟩

/-- Whatever a placer is asked for, a value that may leak afterwards may have leaked before; and a
value may leak if a chain of values leads from it to one that is exposed. -/
theorem run_opens_no_leak (f : Function) (h : f.WellFormed) (hd : f.Defined)
    (table : IntrinsicTable) (v : ValueId) (hv : v < f.values.size) :
    (∀ mitigation calls,
      v < ((start f mitigation).run calls).function.values.size ∧
        (((start f mitigation).run calls).function.mayLeak table
            (.ofFunction ((start f mitigation).run calls).function false) v = true →
          f.mayLeak table (.ofFunction f false) v = true)) ∧
      (f.mayLeak table (.ofFunction f false) v = true ↔
        ∃ w, ReflTransGen f.GoesInto v w ∧ f.Exposed table w) := by
  constructor
  · intro mitigation calls
    have htight := (tight_stable f).run (tight_start h hd mitigation) calls
    have hlt := Nat.lt_of_lt_of_le hv htight.values_le
    refine ⟨hlt, fun hleak => ?_⟩
    rw [mayLeak_iff htight.wellFormed htight.defined hlt] at hleak
    exact (mayLeak_iff h hd hv).mpr (htight.leaks table v hv hleak)
  · rw [mayLeak_iff h hd hv]
    exact leaks_iff_chain

/-- A value that leaks through the parameter of a new block leaked before the edge was split; with a
fence before the load it leaks no more. -/
theorem run_opens_no_leak_entersLoop :
    entersLoop.WellFormed ∧ entersLoop.Defined ∧
      (∃ w, ReflTransGen entersLoop.GoesInto 1 w ∧ entersLoop.Exposed .empty w) ∧
      entersLoop.mayLeak .empty (.ofFunction entersLoop false) 1 = true ∧
      ((start entersLoop .fencePerEdge).run [.cutBetween 0 1]).function.blockParams 3 = [5] ∧
      ((start entersLoop .fencePerEdge).run [.cutBetween 0 1]).function.mayLeak .empty
        (.ofFunction ((start entersLoop .fencePerEdge).run [.cutBetween 0 1]).function false) 1 =
          true ∧
      ((start entersLoop .fencePerEdge).run [.cutBetween 0 1, .fenceBefore 1]).function.mayLeak
        .empty (.ofFunction ((start entersLoop .fencePerEdge).run
          [.cutBetween 0 1, .fenceBefore 1]).function false) 1 = false := by
  have hwf : entersLoop.WellFormed := build_wellFormed (by decide)
  have hd : entersLoop.Defined := build_defined (by decide)
  obtain ⟨hrun, hchain⟩ := run_opens_no_leak entersLoop hwf hd .empty 1 (by decide +kernel)
  have hleak := (hrun .fencePerEdge [.cutBetween 0 1]).2 (by cbv)
  exact ⟨hwf, hd, hchain.mp hleak, hleak, by cbv, by cbv, by cbv⟩

end Placer

end SpecFence
