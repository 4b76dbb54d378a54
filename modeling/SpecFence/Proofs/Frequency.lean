import Mathlib.Data.List.Permutation
import SpecFence.Proofs.Built
import SpecFence.Proofs.ControlEdges
import SpecFence.Proofs.NaturalLoops

/-!
# Estimated frequencies

A reached block weighs the base weight, multiplied by the number of natural loops around it and
divided by the number of blocks that lie before it on every path, one more of each.  The product is
held at the largest weight and the result is never zero, so no step of control loses its edge.
-/

set_option autoImplicit false

namespace SpecFence

open SpecFence.Function

namespace Function

noncomputable def loopCount (f : Function) (b : BlockId) : Nat :=
  {header | b ∈ f.naturalLoop header}.ncard

noncomputable def dominatorCount (f : Function) (b : BlockId) : Nat :=
  {a | f.Reached a ∧ a ≠ b ∧ f.OnEveryPath a b}.ncard

variable {f : Function} {b : BlockId}

theorem length_le_of_lt {l : List BlockId} {n : Nat} (hnodup : l.Nodup) (hlt : ∀ b ∈ l, b < n) :
    l.length ≤ n := by
  have hsub : l ⊆ List.range n := fun b hb => List.mem_range.mpr (hlt b hb)
  simpa using hnodup.length_le_of_subset hsub

theorem length_around_le (loops : List FlowLoop) (b : BlockId) :
    (FlowLoop.around b loops).length ≤ loops.length := by
  induction loops generalizing b with
  | nil => exact Nat.le_refl 0
  | cons l later ih =>
    rw [FlowLoop.around]
    split
    · exact Nat.succ_le_succ (ih l.header)
    · exact Nat.le_succ_of_le (ih b)

theorem loopDepth_le (h : f.WellFormed) : f.loopDepth b ≤ f.params.size := by
  obtain ⟨hnodup, hmem, -⟩ := headers_spec h
  have hheaders : f.headers.length ≤ f.params.size := by
    apply length_le_of_lt hnodup
    intro header hheader
    obtain ⟨t, ht⟩ := (hmem header).mp hheader
    exact h.flowSucc_lt ht.enters
  have hloops := congrArg List.length (loops_enclose h).1
  rw [List.length_map, List.length_reverse] at hloops
  calc f.loopDepth b ≤ f.loops.reverse.length := length_around_le f.loops.reverse b
    _ = f.loops.length := List.length_reverse
    _ = f.headers.length := hloops
    _ ≤ f.params.size := hheaders

theorem length_strictDominators_le (h : f.WellFormed) :
    (f.strictDominators b).length ≤ f.params.size := by
  apply length_le_of_lt (h.blocks_nodup.filter _)
  intro a ha
  exact h.blocks_lt a ((mem_strictDominators h).mp ha).1.1

end Function

namespace BlockWeighting

variable {f : Function} {base : Nat} {b : BlockId}

theorem weight_of_reached (h : f.WellFormed) (hb : f.Reached b) :
    (frequency base).weight f b =
      max 1 (Weight.mul base (f.loopDepth b + 1) / ((f.strictDominators b).length + 1)) :=
  if_pos ((reached_iff h).mp hb)

theorem weight_of_not_reached (h : f.WellFormed) (hb : ¬ f.Reached b) :
    (frequency base).weight f b = 1 :=
  if_neg fun hreached => hb ((reached_iff h).mpr hreached)

theorem weight_le_limit : (frequency base).weight f b ≤ Weight.limit := by
  have hlimit : 1 ≤ Weight.limit := by decide
  unfold weight
  dsimp only
  split
  · refine max_le hlimit ((Nat.div_le_self _ _).trans ?_)
    exact Nat.min_le_right _ _
  · exact hlimit

/-- The weights of blocks by frequency: what each block weighs, that all that is computed is a
weight, and that each step of control has an edge with the weight of the block that it enters. -/
structure EstimatesFrequency (f : Function) (base : Nat) : Prop where
  reached (b : BlockId) : f.Reached b → (frequency base).weight f b =
    max 1 (min (base * (f.loopCount b + 1)) Weight.limit / (f.dominatorCount b + 1))
  unreached (b : BlockId) : ¬ f.Reached b → (frequency base).weight f b = 1
  inRange (b : BlockId) : f.loopCount b + 1 ≤ Weight.limit ∧
    f.dominatorCount b + 1 ≤ Weight.limit ∧ (frequency base).weight f b ≤ Weight.limit
  step (u v : Node) (i j : InstId) (b : BlockId) :
    (DependenceGraph.ofFunction f (.frequency base)).inst? u = some i →
    (DependenceGraph.ofFunction f (.frequency base)).inst? v = some j →
    f.Follows i j → j ∈ f.blockInsts b →
    (DependenceGraph.ofFunction f (.frequency base)).control.weight u v =
        (frequency base).weight f b ∧
      0 < (DependenceGraph.ofFunction f (.frequency base)).control.weight u v

/-- Where natural loops nest, which is where the loops found are the natural loops, blocks are
weighted by the natural loops around them and the blocks before them. -/
theorem estimates_frequency (f : Function) (h : f.WellFormed)
    (hsize : f.params.size < Weight.limit) (hnest : f.LoopsNest) (base : Nat) :
    EstimatesFrequency f base := by
  have hloops : ∀ b, f.loopDepth b = f.loopCount b := fun b => loopDepth_eq h hnest
  have hdominators : ∀ b, (f.strictDominators b).length = f.dominatorCount b :=
    fun b => length_strictDominators h
  constructor
  case reached =>
    intro b hb
    rw [weight_of_reached h hb, hloops, hdominators, Weight.mul]
  case unreached => exact fun b hb => weight_of_not_reached h hb
  case inRange =>
    intro b
    have hdepth : f.loopDepth b ≤ f.params.size := loopDepth_le h
    have hlength : (f.strictDominators b).length ≤ f.params.size := length_strictDominators_le h
    rw [← hloops, ← hdominators]
    exact ⟨by omega, by omega, weight_le_limit⟩
  case step =>
    intro u v i j b hu hv hfollows hj
    have hsteps := DependenceGraph.stepsMatch h
      fun b _ => DependenceGraph.weight_pos f (.frequency base) b
    have hpos := (hsteps.joins_iff u v).mpr ⟨i, j, hu, hv, hfollows⟩
    exact ⟨hsteps.weighs u v j b hpos hv hj, hpos⟩

def nestedLoops : Function := .build ⟨.numbered 0 0, [], [],
  [⟨[⟨.i32, 1⟩], [⟨.jump, [], .targets [⟨1, []⟩], none, []⟩]⟩,
    ⟨[], [⟨.brif, [0], .targets [⟨2, []⟩, ⟨5, []⟩], none, []⟩]⟩,
    ⟨[], [⟨.brif, [0], .targets [⟨2, []⟩, ⟨3, []⟩], none, []⟩]⟩,
    ⟨[], [⟨.brif, [0], .targets [⟨1, []⟩, ⟨4, []⟩], none, []⟩]⟩,
    ⟨[], [⟨.jump, [], .targets [⟨1, []⟩], none, []⟩]⟩,
    ⟨[], [⟨.ret, [], .none, none, []⟩]⟩,
    ⟨[], [⟨.ret, [], .none, none, []⟩]⟩], none⟩

/-- In the inner loop the product is more than a weight can hold. -/
theorem estimates_frequency_nestedLoops :
    nestedLoops.WellFormed ∧ nestedLoops.params.size < Weight.limit ∧ nestedLoops.LoopsNest ∧
      EstimatesFrequency nestedLoops (2 ^ 63) ∧
      nestedLoops.loopCount 2 = 2 ∧ nestedLoops.dominatorCount 2 = 2 ∧
      (frequency (2 ^ 63)).weight nestedLoops 2 = Weight.limit / 3 ∧
      (frequency (2 ^ 63)).weight nestedLoops 6 = 1 := by
  have hformed : nestedLoops.WellFormed := build_wellFormed (by decide)
  have hsize : nestedLoops.params.size < Weight.limit := by decide +kernel
  have hreachable : nestedLoops.reachable = #[true, true, true, true, true, true, false] := by cbv
  have hentered : ∀ a ∈ nestedLoops.blocks,
      nestedLoops.reachable.has a = true ∨ (nestedLoops.flowSuccs a).toList = [] := by
    rw [hreachable]
    decide +kernel
  have hnest : nestedLoops.LoopsNest := by
    apply loopsNest_of_reached
    intro a b hstep _
    have ha := mem_blocks_of_mem_flowSuccs hstep
    refine (reached_iff hformed).mpr ⟨ha, (hentered a ha).resolve_right fun hnone => ?_⟩
    rw [AscSet.mem_def, hnone] at hstep
    exact List.not_mem_nil hstep
  have hestimates := estimates_frequency nestedLoops hformed hsize hnest (2 ^ 63)
  have hloops : nestedLoops.loopCount 2 = 2 := by
    rw [loopCount, ← loopDepth_eq hformed hnest]
    cbv
  have hdominators : nestedLoops.dominatorCount 2 = 2 := by
    rw [dominatorCount, ← length_strictDominators hformed]
    cbv
  refine ⟨hformed, hsize, hnest, hestimates, hloops, hdominators, ?_, ?_⟩
  · have hreached : nestedLoops.Reached 2 := by
      rw [reached_iff hformed, hreachable]
      decide +kernel
    rw [hestimates.reached 2 hreached, hloops, hdominators]
    decide +kernel
  · apply hestimates.unreached
    rw [reached_iff hformed, hreachable]
    decide +kernel

end BlockWeighting

end SpecFence
