import SpecFence.Alias
import Mathlib.Logic.Relation
import Mathlib.Tactic.ByContra

/-!
# Resolving addresses

Unless values are defined from each other in a circle, through additions of constants, every address
is found to be a base with an offset.
-/

set_option autoImplicit false

namespace SpecFence

namespace AliasOracle

def Step.addend? : Step → Option ValueId
  | .base _ _ => none
  | .sum v _ => some v

def AddsTo (f : Function) (v x : ValueId) : Prop := (step f v).addend? = some x

/-- No value is defined from itself by adding constants. -/
def Acyclic (f : Function) : Prop := ∀ v, ¬ Relation.TransGen (AddsTo f) v v

/-- No value that a value is made of by adding constants is defined from itself in this way. -/
def AcyclicFrom (f : Function) (v : ValueId) : Prop :=
  ∀ x, Relation.ReflTransGen (AddsTo f) v x → ¬ Relation.TransGen (AddsTo f) x x

/-- An address that is not made of a value defined from itself; a stack slot always is one. -/
def AcyclicAt (f : Function) : Address → Prop
  | .slot _ => True
  | .value v => AcyclicFrom f v

variable {f : Function}

theorem addsTo_of_step {v x : ValueId} {c : Int} (h : step f v = .sum x c) : AddsTo f v x := by
  simp [AddsTo, h, Step.addend?]

theorem AddsTo.lt {v x : ValueId} (h : AddsTo f v x) : v < f.values.size := by
  cases hdefined : f.definition? v with
  | none => simp [AddsTo, step, hdefined, Step.addend?] at h
  | some d => exact Function.lt_of_definition? hdefined

theorem acyclic_of_lt (h : ∀ v < f.values.size, ∀ x ∈ (step f v).addend?, x < v) : Acyclic f := by
  have hless : ∀ v x, Relation.TransGen (AddsTo f) v x → x < v := by
    intro v x hvx
    induction hvx with
    | single hstep => exact h v hstep.lt _ hstep
    | tail _ hstep ih => exact Nat.lt_trans (h _ hstep.lt _ hstep) ih
  intro v hv
  exact Nat.lt_irrefl v (hless v v hv)

theorem AcyclicFrom.next {v x : ValueId} (h : AcyclicFrom f v) (hadds : AddsTo f v x) :
    AcyclicFrom f x :=
  fun y hxy => h y (Relation.ReflTransGen.head hadds hxy)

/-- The values from which the walk came here are all different and all in the list of values, so
that there are steps left until it ends. -/
theorem AcyclicFrom.exists_resolveValue? {n : Nat} {seen : List ValueId} {v : ValueId}
    (h : AcyclicFrom f v) {offset : Int} (hnodup : seen.Nodup)
    (hlt : ∀ x ∈ seen, x < f.values.size)
    (hseen : ∀ x ∈ seen, Relation.TransGen (AddsTo f) x v)
    (hn : f.values.size < seen.length + n) : ∃ r, resolveValue? f v offset n = some r := by
  induction n generalizing seen v offset with
  | zero =>
    have hsub : seen ⊆ List.range f.values.size := fun x hx => List.mem_range.mpr (hlt x hx)
    have hlength := hnodup.length_le_of_subset hsub
    rw [List.length_range] at hlength
    omega
  | succ n ih =>
    rw [resolveValue?]
    cases hstep : step f v with
    | base b c => exact ⟨_, rfl⟩
    | sum x c =>
      have hadds : AddsTo f v x := addsTo_of_step hstep
      have hfresh : v ∉ seen := fun hv => h v .refl (hseen v hv)
      refine ih (h.next hadds) (List.nodup_cons.mpr ⟨hfresh, hnodup⟩) ?_ ?_ ?_
      · exact List.forall_mem_cons.mpr ⟨hadds.lt, hlt⟩
      · exact List.forall_mem_cons.mpr ⟨.single hadds, fun y hy => (hseen y hy).tail hadds⟩
      · rw [List.length_cons]
        omega

theorem AcyclicAt.exists_resolve? {a : Address} (h : AcyclicAt f a) :
    ∃ r, resolve? f a = some r := by
  cases a with
  | slot s => exact ⟨_, rfl⟩
  | value v =>
    apply AcyclicFrom.exists_resolveValue? h List.nodup_nil (List.forall_mem_nil _)
      (List.forall_mem_nil _)
    simp

theorem Acyclic.at (h : Acyclic f) : ∀ a, AcyclicAt f a
  | .slot _ => trivial
  | .value _ => fun x _ => h x

theorem Acyclic.exists_resolve? (h : Acyclic f) (a : Address) : ∃ r, resolve? f a = some r :=
  (h.at a).exists_resolve?

end AliasOracle

end SpecFence
