import Mathlib
import SpecFence.Proofs.Built
import SpecFence.Proofs.Contraction

/-!
# Placement only adds

Whatever a placer is asked to do, it only puts in fences and splits edges: when the fences that it
has placed are erased and the blocks that it has made are contracted, what is left is the function
that it was started with.
-/

set_option autoImplicit false

namespace SpecFence

namespace Function

variable {f : Function} {n : Nat} {ids : List InstId} {i : InstId}

theorem filter_insertBeforeIn {new anchor : InstId} {l : List InstId} (hnew : new ∉ l) :
    (insertBeforeIn new anchor l).filter (· ∉ ids ++ [new]) = l.filter (· ∉ ids) := by
  induction l with
  | nil => rfl
  | cons a l ih =>
    rw [List.mem_cons, not_or] at hnew
    have hkeep : (a :: l).filter (· ∉ ids ++ [new]) = (a :: l).filter (· ∉ ids) := by
      apply List.filter_congr
      intro x hx
      have hne : x ≠ new := by
        rintro rfl
        exact (List.mem_cons.mp hx).elim hnew.1 hnew.2
      simp [hne]
    rw [insertBeforeIn]
    split
    · rw [List.filter_cons_of_neg (by simp)]
      exact hkeep
    · have hhead : (decide (a ∉ ids ++ [new])) = decide (a ∉ ids) := by
        have hne : a ≠ new := fun heq => hnew.1 heq.symm
        simp [hne]
      rw [List.filter_cons, List.filter_cons, hhead, ih hnew.2]

theorem agreesFrom_withFenceBefore (h : f.WellFormed) :
    AgreesFrom n (f.erase ids) ((f.withFenceBefore i).erase (ids ++ [f.insts.size])) := by
  have hinst : ∀ j < f.insts.size, (f.withFenceBefore i).inst j = f.inst j :=
    fun j hj => inst_withFenceBefore hj
  refine ⟨?_, fun j _ hj => hinst j hj⟩
  constructor
  case name => rfl
  case slots => rfl
  case globals => rfl
  case layout =>
    change (f.layout.map _).map _ = f.layout.map _
    rw [List.map_map]
    apply List.map_congr_left
    intro l hl
    have hnew : f.insts.size ∉ l.insts :=
      fun hmem => h.fresh_inst (List.mem_flatMap.mpr ⟨l, hl, hmem⟩)
    exact congrArg (LaidBlock.mk l.block) (filter_insertBeforeIn hnew)
  case insts_le =>
    change _ ≤ (f.addInst fenceSpec).2.insts.size
    rw [size_addInst]
    exact Nat.le_succ _
  case insts =>
    intro j hj
    change InstAgrees _ (f.inst j) ((f.withFenceBefore i).inst j)
    rw [hinst j hj]
    exact InstAgrees.refl _
  case params_le => exact Nat.le_refl _
  case params => exact fun b _ => rfl
  case values =>
    intro v hv
    exact Array.getElem?_append_left hv

section Split

variable {source target : BlockId} {branch : InstId} {types : List Ty} {uniform : Bool}
  {passed : List ValueId}

theorem filter_insertAfterIn {new : LaidBlock} {anchor : BlockId} {layout : List LaidBlock}
    (hnew : new.block ∉ layout.map LaidBlock.block) :
    (insertAfterIn new anchor layout).filter (fun l => l.block != new.block) = layout := by
  induction layout with
  | nil => rfl
  | cons l layout ih =>
    rw [List.map_cons, List.mem_cons, not_or] at hnew
    have hhead : (l.block != new.block) = true := bne_iff_ne.mpr (fun heq => hnew.1 heq.symm)
    have hrest : layout.filter (fun l => l.block != new.block) = layout := by
      apply List.filter_eq_self.mpr
      intro m hm
      apply bne_iff_ne.mpr
      intro heq
      exact hnew.2 (heq ▸ List.mem_map_of_mem hm)
    rw [insertAfterIn]
    split
    · simp [hhead, hrest]
    · simp [hhead, ih hnew.2]

theorem zip_take_length (l m : List ValueId) : l.zip (m.take l.length) = l.zip m := by
  have htake : (l.zip m).take l.length = (l.take l.length).zip (m.take l.length) :=
    List.take_zipWith
  rw [List.take_length] at htake
  refine htake.symm.trans (List.take_of_length_le ?_)
  rw [List.length_zip]
  exact Nat.min_le_left _ _

def rerouted (f : Function) (target : BlockId) (types : List Ty) (uniform : Bool)
    (passed : List ValueId) (call : BlockCall) : BlockCall :=
  BlockCall.past f.params.size (f.newParams types) ⟨target, passed⟩
    (retarget target f.params.size uniform call)

theorem rerouted_of_ne {call : BlockCall} (hne : call.block ≠ target)
    (hlt : call.block < f.params.size) : f.rerouted target types uniform passed call = call := by
  unfold rerouted retarget BlockCall.past
  rw [if_neg hne, if_neg (Nat.ne_of_lt hlt)]

theorem SplitChoice.rerouted_uniform (hchoice : SplitChoice f target branch types true passed)
    {call : BlockCall} (hcall : call ∈ f.targets branch) (hlt : call.block < f.params.size) :
    f.rerouted target types true passed call = call := by
  obtain ⟨rfl, hargs⟩ := hchoice.shared rfl
  by_cases htarget : call.block = target
  · have hself : passed.filterMap (bindValue [] []) = passed := by
      rw [funext (bindValue_nil []), List.filterMap_some]
    unfold rerouted retarget BlockCall.past
    rw [if_pos htarget, if_pos rfl, if_pos rfl]
    change (⟨target, passed.filterMap (bindValue [] [])⟩ : BlockCall) = call
    rw [hself, ← hargs call hcall htarget, ← htarget]
  · exact rerouted_of_ne htarget hlt

theorem SplitChoice.callAgrees_rerouted
    (hchoice : SplitChoice f target branch types uniform passed) {call : BlockCall}
    (hcall : call ∈ f.targets branch) (hlt : call.block < f.params.size) :
    CallAgrees f.blockParams call (f.rerouted target types uniform passed call) := by
  cases uniform with
  | true =>
    rw [hchoice.rerouted_uniform hcall hlt]
    exact CallAgrees.refl call
  | false =>
    obtain ⟨hlength, rfl⟩ := hchoice.diverging rfl
    by_cases htarget : call.block = target
    · -- the new block has as many parameters as the target, so no value that counts is dropped
      have htake : f.rerouted target types false (f.newParams types) call =
          ⟨target, call.args.take types.length⟩ := by
        unfold rerouted retarget BlockCall.past
        rw [if_pos htarget, if_pos rfl, if_neg Bool.false_ne_true]
        dsimp only
        rw [filterMap_bindValue (nodup_newParams f types), length_newParams]
      rw [htake]
      refine ⟨htarget.symm, ?_, List.take_prefix _ _⟩
      rw [htarget, hlength]
      exact zip_take_length _ _
    · rw [rerouted_of_ne htarget hlt]
      exact CallAgrees.refl call

theorem onward?_splitWith (h : f.WellFormed) (hsource : source ∈ f.blocks)
    (hids : ∀ i ∈ ids, i < f.insts.size) :
    ((f.splitWith source target branch types uniform passed).erase ids).onward? f.params.size =
      some ⟨target, passed⟩ := by
  have hinsts : ((f.splitWith source target branch types uniform passed).erase ids).blockInsts
      f.params.size = [f.insts.size] := by
    rw [blockInsts_erase, blockInsts_splitWith h hsource, if_pos rfl]
    apply List.filter_eq_self.mpr
    intro i hi
    obtain rfl := List.mem_singleton.mp hi
    exact decide_eq_true fun hmem => Nat.lt_irrefl _ (hids _ hmem)
  unfold onward?
  rw [hinsts]
  dsimp only
  rw [opcode_erase, targets_erase, inst_splitWith_jump.1, inst_splitWith_jump.2]

theorem inst_leadPast_splitWith (h : f.WellFormed) {j : InstId} (hj : j < f.insts.size)
    (hne : j ≠ branch) :
    (((f.splitWith source target branch types uniform passed).erase ids).leadPast f.params.size
      ⟨target, passed⟩).inst j = f.inst j := by
  rw [inst_leadPast]
  change ((f.splitWith source target branch types uniform passed).inst j).mapCalls _ = _
  rw [inst_splitWith hj hne]
  apply InstData.mapCalls_eq_self
  intro call hcall
  rw [← targets_eq] at hcall
  exact if_neg (Nat.ne_of_lt (h.targets_lt j hj call hcall))

theorem inst_leadPast_splitWith_branch (hbranch : branch < f.insts.size) :
    (((f.splitWith source target branch types uniform passed).erase ids).leadPast f.params.size
      ⟨target, passed⟩).inst branch =
      { f.inst branch with
        extra := .targets ((f.targets branch).map (f.rerouted target types uniform passed)) } := by
  rw [inst_leadPast, blockParams_erase, blockParams_splitWith_new]
  change ((f.splitWith source target branch types uniform passed).inst branch).mapCalls _ = _
  rw [inst_splitWith_branch hbranch]
  unfold InstData.mapCalls
  dsimp only
  rw [List.map_map]
  rfl

theorem extra_of_targets (h : f.targets i ≠ []) : (f.inst i).extra = .targets (f.targets i) := by
  rw [targets_eq] at h ⊢
  cases hextra : (f.inst i).extra with
  | targets calls => rfl
  | _ =>
    rw [hextra] at h
    exact absurd rfl h

theorem agrees_leadPast_splitWith (h : f.WellFormed)
    (hsplit : SplitsEdge f source target branch types uniform passed) :
    Agrees (f.erase ids)
      (((f.splitWith source target branch types uniform passed).erase ids).leadPast f.params.size
        ⟨target, passed⟩) := by
  have hbranch := h.lt_of_mem_blockInsts hsplit.mem_blockInsts
  constructor
  case name => rfl
  case slots => rfl
  case globals => rfl
  case layout =>
    change ((insertAfterIn _ source f.layout).map _).filter _ = f.layout.map _
    rw [List.filter_map]
    have hfresh : (⟨f.params.size, [(((f.addBlock types).2.setTargets branch
        ((f.targets branch).map (retarget target f.params.size uniform))).insts.size)]⟩ :
          LaidBlock).block ∉ f.layout.map LaidBlock.block := h.fresh_block
    exact congrArg (List.map _) (filter_insertAfterIn hfresh)
  case insts_le =>
    rw [size_leadPast]
    change f.insts.size ≤ (f.splitWith source target branch types uniform passed).insts.size
    rw [insts_size_splitWith]
    exact Nat.le_succ _
  case insts =>
    intro j hj
    change InstAgrees f.blockParams (f.inst j) _
    by_cases hj' : j = branch
    · rw [hj', inst_leadPast_splitWith_branch hbranch]
      refine ⟨rfl, rfl, rfl, rfl, ?_⟩
      rw [extra_of_targets hsplit.targets_ne_nil]
      refine .targets (List.forall₂_map_right_iff.mpr (List.forall₂_same.mpr ?_))
      intro call hmem
      exact hsplit.callAgrees_rerouted hmem (h.targets_lt branch hbranch call hmem)
    · rw [inst_leadPast_splitWith h hj hj']
      exact InstAgrees.refl _
  case params_le =>
    change _ ≤ (f.params.push _).size
    rw [Array.size_push]
    exact Nat.le_succ _
  case params =>
    intro b hb
    have hne : b ≠ f.params.size := Nat.ne_of_lt hb
    change (f.splitWith source target branch types uniform passed).blockParams b = _
    rw [blockParams_splitWith hne, blockParams_erase]
  case values =>
    intro v hv
    change (f.splitWith source target branch types uniform passed).values[v]? = _
    exact values_splitWith hv

/-- A block that is split off and contracted again leaves the function as it was.  Instructions with
one destination at most are left even as they were written. -/
theorem agreesFrom_splitWith (h : f.WellFormed)
    (hsplit : SplitsEdge f source target branch types uniform passed)
    (hids : ∀ i ∈ ids, i < f.insts.size) (hsingle : n ≤ branch → (f.targets branch).length ≤ 1) :
    AgreesFrom n (f.erase ids)
      (((f.splitWith source target branch types uniform passed).erase ids).contract
        f.params.size) := by
  have hbranch := h.lt_of_mem_blockInsts hsplit.mem_blockInsts
  have honward : ((f.splitWith source target branch types uniform passed).erase ids).onward?
      f.params.size = some ⟨target, passed⟩ := onward?_splitWith h hsplit.source_mem hids
  unfold contract
  rw [honward]
  refine ⟨agrees_leadPast_splitWith h hsplit, ?_⟩
  intro j hnj hj
  change _ = f.inst j
  by_cases hj' : j = branch
  · obtain rfl := hsplit.single (hsingle (hj' ▸ hnj))
    have hself : (f.targets branch).map (f.rerouted target types true passed) =
        f.targets branch := by
      refine (List.map_congr_left ?_).trans (List.map_id _)
      intro call hmem
      exact hsplit.rerouted_uniform hmem (h.targets_lt branch hbranch call hmem)
    rw [hj', inst_leadPast_splitWith_branch hbranch, hself,
      ← extra_of_targets hsplit.targets_ne_nil]
  · exact inst_leadPast_splitWith h hj hj'

end Split

/-- One function is another to which fences and blocks of instructions with one destination each
have been added. -/
structure Extends (f g : Function) (fences : List InstId) (blocks : List BlockId) : Prop where
  wellFormed : g.WellFormed
  insts_le : f.insts.size ≤ g.insts.size
  params_le : f.params.size ≤ g.params.size
  single : ∀ i, f.insts.size ≤ i → i < g.insts.size → (g.targets i).length ≤ 1
  fences : ∀ i ∈ fences, f.insts.size ≤ i ∧ i < g.insts.size ∧ g.isFence i = true
  blocks : ∀ b ∈ blocks, f.params.size ≤ b ∧ b < g.params.size ∧
    ∀ i ∈ g.blockInsts b, f.insts.size ≤ i

namespace Extends

variable {g : Function} {fences : List InstId} {blocks : List BlockId}

theorem refl (h : f.WellFormed) : Extends f f [] [] := by
  refine ⟨h, Nat.le_refl _, Nat.le_refl _, ?_, ?_, ?_⟩
  · intro i hi hlt
    exact absurd hlt (Nat.not_lt.mpr hi)
  · intro i hi
    exact absurd hi List.not_mem_nil
  · intro b hb
    exact absurd hb List.not_mem_nil

theorem withFenceBefore (h : Extends f g fences blocks) (i : InstId) :
    Extends f (g.withFenceBefore i) (fences ++ [g.insts.size]) blocks := by
  have hsize : (g.withFenceBefore i).insts.size = g.insts.size + 1 := size_addInst g fenceSpec
  have hinst : ∀ j < g.insts.size, (g.withFenceBefore i).inst j = g.inst j :=
    fun j hj => inst_withFenceBefore hj
  constructor
  case wellFormed => exact withFenceBefore_wellFormed h.wellFormed
  case insts_le => exact Nat.le_trans h.insts_le (hsize ▸ Nat.le_succ _)
  case params_le => exact h.params_le
  case single =>
    intro j hj hlt
    rw [hsize] at hlt
    rcases Nat.lt_succ_iff_lt_or_eq.mp hlt with hold | rfl
    · unfold targets
      rw [hinst j hold]
      exact h.single j hj hold
    · have hfence : (g.withFenceBefore i).targets g.insts.size = [] := by
        rw [targets_eq]
        exact congrArg (fun d : InstData => callsOf d.extra) (inst_addInst_self g fenceSpec)
      rw [hfence]
      exact Nat.zero_le _
  case fences =>
    intro j hj
    rw [hsize]
    rcases List.mem_append.mp hj with hold | hnew
    · obtain ⟨hge, hlt, hfence⟩ := h.fences j hold
      refine ⟨hge, Nat.lt_succ_of_lt hlt, ?_⟩
      unfold isFence opcode
      rw [hinst j hlt]
      exact hfence
    · obtain rfl := List.mem_singleton.mp hnew
      exact ⟨h.insts_le, Nat.lt_succ_self _, isFence_withFenceBefore⟩
  case blocks =>
    intro b hb
    obtain ⟨hge, hlt, hrecent⟩ := h.blocks b hb
    refine ⟨hge, hlt, ?_⟩
    intro j hj
    rw [blockInsts_withFenceBefore] at hj
    rcases mem_insertBeforeIn.mp hj with hold | ⟨rfl, -⟩
    · exact hrecent j hold
    · exact h.insts_le

theorem single_splitWith (h : Extends f g fences blocks) {source target : BlockId} {branch : InstId}
    {types : List Ty} {uniform : Bool} {passed : List ValueId} (hbranch : branch < g.insts.size)
    {j : InstId} (hj : f.insts.size ≤ j) (hlt : j < g.insts.size + 1) :
    ((g.splitWith source target branch types uniform passed).targets j).length ≤ 1 := by
  rcases Nat.lt_succ_iff_lt_or_eq.mp hlt with hold | rfl
  · by_cases hj' : j = branch
    · rw [hj', targets_splitWith_branch hbranch, List.length_map, ← hj']
      exact h.single j hj hold
    · unfold targets
      rw [inst_splitWith hold hj']
      exact h.single j hj hold
  · rw [inst_splitWith_jump.2]
    exact Nat.le_refl _

theorem edgeSplit (h : Extends f g fences blocks) {k : Function} {source target : BlockId}
    (hsplit : EdgeSplit g k source target)
    (hsingle : ∀ j, f.insts.size ≤ j → j < g.insts.size + 1 → (k.targets j).length ≤ 1) :
    Extends f k fences (blocks ++ [g.params.size]) := by
  constructor
  case wellFormed => exact hsplit.wellFormed
  case insts_le => exact hsplit.insts_size ▸ Nat.le_succ_of_le h.insts_le
  case params_le => exact hsplit.params_size ▸ Nat.le_succ_of_le h.params_le
  case single =>
    rw [hsplit.insts_size]
    exact hsingle
  case fences =>
    intro j hj
    obtain ⟨hge, hlt, hfence⟩ := h.fences j hj
    rw [hsplit.insts_size]
    refine ⟨hge, Nat.lt_succ_of_lt hlt, ?_⟩
    unfold isFence
    rw [hsplit.opcode_eq j hlt]
    exact hfence
  case blocks =>
    intro b hb
    rw [hsplit.params_size]
    rcases List.mem_append.mp hb with hold | hnew
    · obtain ⟨hge, hlt, hrecent⟩ := h.blocks b hold
      refine ⟨hge, Nat.lt_succ_of_lt hlt, ?_⟩
      rw [hsplit.blockInsts_old b (Nat.ne_of_lt hlt)]
      exact hrecent
    · obtain rfl := List.mem_singleton.mp hnew
      refine ⟨h.params_le, Nat.lt_succ_self _, ?_⟩
      intro j hj
      rw [hsplit.blockInsts_new] at hj
      obtain rfl := List.mem_singleton.mp hj
      exact h.insts_le

theorem agrees_contractAll (h : Extends f g fences blocks) {k : Function}
    (hedit : AgreesFrom f.insts.size (g.erase fences) k) :
    Agrees ((g.erase fences).contractAll blocks) (k.contractAll blocks) := by
  -- the blocks that were added before consist of instructions that the edit leaves alone
  refine (hedit.contractAll ?_).toAgrees
  intro b hb
  obtain ⟨-, hlt, hrecent⟩ := h.blocks b hb
  refine ⟨hlt, ?_⟩
  intro i hi
  rw [blockInsts_erase] at hi
  have hmem := (List.mem_filter.mp hi).1
  exact ⟨hrecent i hmem, h.wellFormed.lt_of_mem_blockInsts hmem⟩

end Extends

end Function

/-- What a placer can be asked to do. -/
inductive PlacerCall where
  | place (graph : DependenceGraph) (cut : List Edge)
  | cutBetween (src dst : InstId)
  | fenceBefore (inst : InstId)
  | fenceAfter (inst : InstId)

open SpecFence.Function

namespace Placer

variable {f : Function} {p : Placer} {s t : BlockId}

def call (p : Placer) : PlacerCall → Placer
  | .place graph cut => p.place graph cut
  | .cutBetween src dst => p.cutBetween src dst
  | .fenceBefore i => p.fenceBefore i
  | .fenceAfter i => p.fenceAfter i

def run (p : Placer) (calls : List PlacerCall) : Placer := calls.foldl call p

def fences (p : Placer) : List InstId := p.placed.map PlacedFence.fence

def newBlocks (p : Placer) : List BlockId := p.split.map SplitEdge.block

/-- The function of a placer without the fences and the blocks that the placer has put into it. -/
def restored (p : Placer) : Function := (p.function.erase p.fences).contractAll p.newBlocks

/-- A property of placers that each single edit keeps: putting in a fence, splitting an edge of the
control flow, and writing a record. -/
structure Stable (P : Placer → Prop) : Prop where
  withFence : ∀ p, P p → ∀ i point, P { p with
    function := p.function.withFenceBefore i
    placed := p.placed ++ [⟨p.function.insts.size, point⟩] }
  withSplit : ∀ p, P p → ∀ s t, t ∈ p.function.blocks → t ∈ p.function.flowSuccs s →
    ∃ g, p.function.splitEdge? s t = some (p.function.params.size, g) ∧ P { p with
      function := g
      split := p.split ++ [⟨s, t, p.function.params.size⟩] }
  withLog : ∀ p, P p → ∀ log, P { p with log := log }

structure KeptByPlacement (P : Placer → Prop) : Prop where
  fenceBefore : ∀ p, P p → ∀ i, P (p.fenceBefore i)
  fenceOnEdge : ∀ p, P p → ∀ s, ∀ t ∈ p.function.blocks, P (p.fenceOnEdge s t)
  withLog : ∀ p, P p → ∀ log, P { p with log := log }

namespace KeptByPlacement

variable {P : Placer → Prop}

theorem fenceAfter (h : KeptByPlacement P) (hp : P p) (i : InstId) : P (p.fenceAfter i) := by
  unfold Placer.fenceAfter
  split
  · exact h.fenceBefore p hp _
  · exact hp

theorem cutBetween (h : KeptByPlacement P) (hp : P p) (src dst : InstId) :
    P (p.cutBetween src dst) := by
  unfold Placer.cutBetween
  split
  · exact h.fenceBefore p hp _
  · split
    · rename_i source target _ htarget
      dsimp only
      split
      · exact h.fenceBefore p hp dst
      · obtain ⟨l, hl, rfl⟩ := Option.map_eq_some_iff.mp htarget
        exact h.fenceOnEdge p hp _ _ (mem_blocks.mpr ⟨l, List.mem_of_find?_eq_some hl, rfl⟩)
    · exact hp

theorem place (h : KeptByPlacement P) (hp : P p) (graph : DependenceGraph) (cut : List Edge) :
    P (p.place graph cut) := by
  induction cut generalizing p with
  | nil => exact hp
  | cons e cut ih =>
    apply ih
    unfold cutEdge
    split
    · exact h.cutBetween hp _ _
    · exact h.withLog p hp _

theorem call (h : KeptByPlacement P) (hp : P p) (c : PlacerCall) : P (p.call c) := by
  cases c with
  | place graph cut => exact h.place hp graph cut
  | cutBetween src dst => exact h.cutBetween hp src dst
  | fenceBefore i => exact h.fenceBefore p hp i
  | fenceAfter i => exact h.fenceAfter hp i

theorem run (h : KeptByPlacement P) (hp : P p) (calls : List PlacerCall) : P (p.run calls) := by
  induction calls generalizing p with
  | nil => exact hp
  | cons c calls ih => exact ih (h.call hp c)

end KeptByPlacement

namespace Stable

variable {P : Placer → Prop}

theorem fenceBefore (h : Stable P) (hp : P p) (i : InstId) : P (p.fenceBefore i) := by
  unfold Placer.fenceBefore
  split
  · exact hp
  · exact h.withFence p hp i (.before i)

theorem fenceOnEdge (h : Stable P) (hp : P p) (s : BlockId) (ht : t ∈ p.function.blocks) :
    P (p.fenceOnEdge s t) := by
  unfold Placer.fenceOnEdge
  split
  · exact hp
  · split
    · exact h.withLog p hp _
    · rename_i hedge
      obtain ⟨g, hg, hsplit⟩ := h.withSplit p hp s t ht (not_not.mp hedge)
      rw [hg]
      exact h.withFence _ hsplit _ _

theorem run (h : Stable P) (hp : P p) (calls : List PlacerCall) : P (p.run calls) :=
  KeptByPlacement.run
    ⟨fun _ => h.fenceBefore, fun _ hp s _ => h.fenceOnEdge hp s, h.withLog⟩ hp calls

end Stable

/-- A placer that was started with a function and has only added to it. -/
structure Keeps (f : Function) (p : Placer) : Prop where
  additions : Extends f p.function p.fences p.newBlocks
  agrees : Agrees f p.restored

theorem keeps_start (h : f.WellFormed) (mitigation : Mitigation) :
    Keeps f (start f mitigation) := by
  have herase : f.erase [] = f := by
    unfold erase
    simp
  refine ⟨Extends.refl h, ?_⟩
  change Agrees f (f.erase [])
  rw [herase]
  exact Agrees.refl f

theorem Keeps.withFence (h : f.WellFormed) (hkeeps : Keeps f p) (i : InstId)
    (point : InsertionPoint) :
    Keeps f { p with
      function := p.function.withFenceBefore i
      placed := p.placed ++ [⟨p.function.insts.size, point⟩] } := by
  have hadditions := hkeeps.additions.withFenceBefore i
  have hundone := hkeeps.additions.agrees_contractAll
    (agreesFrom_withFenceBefore (i := i) hkeeps.additions.wellFormed)
  constructor
  case additions =>
    unfold fences
    dsimp only
    rw [List.map_append]
    exact hadditions
  case agrees =>
    unfold restored fences
    dsimp only
    rw [List.map_append]
    exact hkeeps.agrees.trans h hundone

theorem Keeps.withSplit (h : f.WellFormed) (hkeeps : Keeps f p)
    (hedge : t ∈ p.function.flowSuccs s) :
    ∃ g, p.function.splitEdge? s t = some (p.function.params.size, g) ∧
      Keeps f { p with
        function := g
        split := p.split ++ [⟨s, t, p.function.params.size⟩] } := by
  have hwf := hkeeps.additions.wellFormed
  obtain ⟨branch, types, uniform, passed, hg, hsplit⟩ := exists_splitsEdge hedge
  have hbranch := hwf.lt_of_mem_blockInsts hsplit.mem_blockInsts
  have hadditions := hkeeps.additions.edgeSplit (hsplit.edgeSplit hwf) fun j hj hlt =>
    hkeeps.additions.single_splitWith hbranch hj hlt
  refine ⟨_, hg, ?_⟩
  constructor
  case additions =>
    unfold newBlocks
    dsimp only
    rw [List.map_append]
    exact hadditions
  case agrees =>
    -- the block that was made last is the first to be contracted
    unfold restored newBlocks
    dsimp only
    rw [List.map_append, List.map_singleton, contractAll_concat]
    refine hkeeps.agrees.trans h (hkeeps.additions.agrees_contractAll ?_)
    refine agreesFrom_splitWith hwf hsplit ?_ ?_
    · exact fun i hi => (hkeeps.additions.fences i hi).2.1
    · exact fun hrecent => hkeeps.additions.single branch hrecent hbranch

theorem Keeps.withLog (hkeeps : Keeps f p) (log : List LogRecord) : Keeps f { p with log := log } :=
  ⟨hkeeps.additions, hkeeps.agrees⟩

theorem keeps_stable (h : f.WellFormed) : Stable (Keeps f) :=
  ⟨fun _ hkeeps => hkeeps.withFence h, fun _ hkeeps _ _ _ hedge => hkeeps.withSplit h hedge,
    fun _ hkeeps => hkeeps.withLog⟩

theorem Keeps.run (h : f.WellFormed) (hkeeps : Keeps f p) (calls : List PlacerCall) :
    Keeps f (p.run calls) :=
  (keeps_stable h).run hkeeps calls

/-- Whatever a placer is asked for, what it places are new fences, the blocks that it makes are new,
and without them the function is the one that it was started with.  Its instructions are the same
even to the values that they pass, where these are not more than there are parameters. -/
theorem run_only_adds (f : Function) (h : f.WellFormed) (mitigation : Mitigation)
    (calls : List PlacerCall) :
    (∀ e ∈ ((start f mitigation).run calls).placed, f.insts.size ≤ e.fence ∧
        ((start f mitigation).run calls).function.isFence e.fence = true) ∧
      (∀ e ∈ ((start f mitigation).run calls).split, f.params.size ≤ e.block) ∧
      Agrees f ((start f mitigation).run calls).restored ∧
      ∀ i < f.insts.size,
        (∀ c ∈ f.targets i, c.args.length ≤ (f.blockParams c.block).length) →
          ((start f mitigation).run calls).restored.inst i = f.inst i := by
  have hkeeps := (keeps_start h mitigation).run h calls
  refine ⟨?_, ?_, hkeeps.agrees, ?_⟩
  · intro e he
    obtain ⟨hge, -, hfence⟩ := hkeeps.additions.fences e.fence (List.mem_map_of_mem he)
    exact ⟨hge, hfence⟩
  · intro e he
    exact (hkeeps.additions.blocks e.block (List.mem_map_of_mem he)).1
  · intro i hi hlength
    rw [targets_eq] at hlength
    exact (hkeeps.agrees.insts i hi).eq hlength

/-- A branch that goes to one block with either of two values, and a loop at that block. -/
def entersLoop : Function := .build ⟨.numbered 0 0, [], [],
  [⟨[⟨.i32, 1⟩, ⟨.i64, 1⟩, ⟨.i64, 1⟩],
      [⟨.brif, [0], .targets [⟨1, [1]⟩, ⟨1, [2]⟩], none, []⟩]⟩,
    ⟨[⟨.i64, 1⟩], [⟨.load, [3], .offset 0, some ⟨.i64, 1⟩, [⟨.i64, 1⟩]⟩,
      ⟨.brif, [0], .targets [⟨1, [4]⟩, ⟨2, []⟩], none, []⟩]⟩,
    ⟨[], [⟨.ret, [], .none, none, []⟩]⟩], none⟩

/-- The branch is split from the loop, the edge around the loop is cut, and a fence is put behind
the load. -/
def loopCalls : List PlacerCall :=
  [.cutBetween 0 1, .place (.ofFunction entersLoop (.uniform 1)) [⟨6, 5⟩], .fenceAfter 1]

/-- Two edges are split, the first one by a block with a parameter, and nothing else is changed. -/
theorem run_entersLoop :
    entersLoop.WellFormed ∧
      ((start entersLoop .fencePerEdge).run loopCalls).function.layout =
        [⟨0, [0]⟩, ⟨3, [5, 4]⟩, ⟨1, [1, 8, 2]⟩, ⟨4, [7, 6]⟩, ⟨2, [3]⟩] ∧
      ((start entersLoop .fencePerEdge).run loopCalls).function.blockParams 3 = [5] ∧
      ((start entersLoop .fencePerEdge).run loopCalls).function.targets 0 =
        [⟨3, [1]⟩, ⟨3, [2]⟩] ∧
      Agrees entersLoop ((start entersLoop .fencePerEdge).run loopCalls).restored ∧
      ((start entersLoop .fencePerEdge).run loopCalls).restored.inst 0 = entersLoop.inst 0 := by
  have hwf : entersLoop.WellFormed := build_wellFormed (by decide)
  obtain ⟨-, -, hagrees, hinst⟩ := run_only_adds entersLoop hwf .fencePerEdge loopCalls
  exact ⟨hwf, by cbv, by cbv, by cbv, hagrees, hinst 0 (by decide +kernel) (by decide +kernel)⟩

end Placer

end SpecFence
