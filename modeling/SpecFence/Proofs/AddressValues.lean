import Mathlib.Data.BitVec
import SpecFence.Proofs.Resolution

/-!
# Addresses in a run

A run places the slots and the globals in memory and gives the values of a function 64-bit numbers
that obey their definitions.  What an address is resolved to is right in every run: the base and the
offset add up to the number of the address, although the offset is summed up in another order than
the program computes and wraps around on its own.
-/

set_option autoImplicit false

namespace SpecFence

/-- Where the stack slots and the globals of a function are in memory. -/
structure Placement where
  slot : Nat → BitVec 64
  global : Nat → BitVec 64

namespace Placement

variable (place : Placement) (σ : ValueId → BitVec 64)

/-- The number that the definition of a value gives it, for constants, sums, differences, and
addresses of slots and globals. -/
def computed? (f : Function) (v : ValueId) : Option (BitVec 64) :=
  match f.definition? v with
  | some (.result i) =>
    let d := f.inst i
    match d.opcode, d.extra, d.args with
    | .iconst, .immediate n, _ => some (.ofInt 64 n)
    | .iadd, _, [x, y] => some (σ x + σ y)
    | .isub, _, [x, y] => some (σ x - σ y)
    | .iaddImm, .immediate n, [x] => some (σ x + .ofInt 64 n)
    | .stackAddr, .slot s n, _ => some (place.slot s + .ofInt 64 n)
    | .symbolValue, .globalName g, _ => some (place.global g)
    | .globalValue, .globalName g, _ => some (place.global g)
    | _, _, _ => none
  | _ => none

/-- The numbers of the values obey the definitions of the values. -/
def Obeys (f : Function) : Prop :=
  ∀ v < f.values.size, ∀ x ∈ place.computed? σ f v, σ v = x

-- Written out: the search would find the instance that tries all bit vectors.
instance (f : Function) : Decidable (place.Obeys σ f) :=
  @Nat.decidableBallLT f.values.size (fun v _ => ∀ x ∈ place.computed? σ f v, σ v = x)
    fun v _ => Option.decidableForallMem (place.computed? σ f v)

def ofBase : AliasOracle.Base → BitVec 64
  | .slot s => place.slot s
  | .global g => place.global g
  | .value v => σ v

def ofAddress : Address → BitVec 64
  | .slot s => place.slot s
  | .value v => σ v

def ofStep : AliasOracle.Step → BitVec 64
  | .base b c => place.ofBase σ b + .ofInt 64 c
  | .sum x c => σ x + .ofInt 64 c

/-- An access of known size touches a byte. -/
def Covers (a : MemoryLocation) (byte : BitVec 64) : Prop :=
  ∃ n, a.size = some n ∧
    ∃ k < n, byte = place.ofAddress σ a.address + .ofInt 64 a.offset + .ofNat 64 k

theorem Obeys.eq {place : Placement} {σ : ValueId → BitVec 64} {f : Function}
    (hσ : place.Obeys σ f) {v : ValueId} {x : BitVec 64}
    (h : place.computed? σ f v = some x) : σ v = x := by
  refine hσ v ?_ x h
  cases hdefined : f.definition? v with
  | none => simp [computed?, hdefined] at h
  | some d => exact Function.lt_of_definition? hdefined

end Placement

namespace AliasOracle

theorem ofInt_wrap (n : Int) : BitVec.ofInt 64 (wrap n) = BitVec.ofInt 64 n := by
  apply BitVec.eq_of_toInt_eq
  rw [BitVec.toInt_ofInt, BitVec.toInt_ofInt]
  exact Int.bmod_bmod

variable {f : Function} {place : Placement} {σ : ValueId → BitVec 64}

theorem ofInt_of_constant? (hσ : place.Obeys σ f) {v : ValueId} {n : Int}
    (h : f.constant? v = some n) : σ v = .ofInt 64 n := by
  apply hσ.eq
  unfold Function.constant? at h
  split at h
  · rename_i i hdefined
    split at h
    · rename_i hopcode hextra
      cases h
      simp [Placement.computed?, hdefined, hopcode, hextra]
    · cases h
  · cases h

theorem ofStep_step (hσ : place.Obeys σ f) (v : ValueId) : place.ofStep σ (step f v) = σ v := by
  have hself : place.ofStep σ (.base (.value v) 0) = σ v := by
    simp [Placement.ofStep, Placement.ofBase]
  unfold step
  split
  · rename_i i hdefined
    dsimp only
    split
    · rename_i s n hopcode hextra
      exact (hσ.eq (by simp [Placement.computed?, hdefined, hopcode, hextra]; rfl)).symm
    · rename_i g hopcode hextra
      have hvalue : σ v = place.global g :=
        hσ.eq (by simp [Placement.computed?, hdefined, hopcode, hextra])
      simp [Placement.ofStep, Placement.ofBase, hvalue]
    · rename_i g hopcode hextra
      have hvalue : σ v = place.global g :=
        hσ.eq (by simp [Placement.computed?, hdefined, hopcode, hextra])
      simp [Placement.ofStep, Placement.ofBase, hvalue]
    · rename_i n x hopcode hextra hargs
      exact (hσ.eq (by simp [Placement.computed?, hdefined, hopcode, hextra, hargs]; rfl)).symm
    · rename_i x y hopcode hargs
      have hvalue : σ v = σ x + σ y :=
        hσ.eq (by simp [Placement.computed?, hdefined, hopcode, hargs])
      split
      · rename_i c hconstant
        rw [Placement.ofStep, hvalue, ofInt_of_constant? hσ hconstant]
      · rename_i c hconstant _
        rw [Placement.ofStep, hvalue, ofInt_of_constant? hσ hconstant, BitVec.add_comm]
      · exact hself
    · rename_i x y hopcode hargs
      have hvalue : σ v = σ x - σ y :=
        hσ.eq (by simp [Placement.computed?, hdefined, hopcode, hargs])
      split
      · rename_i c hconstant
        rw [Placement.ofStep, hvalue, ofInt_of_constant? hσ hconstant, BitVec.ofInt_neg,
          BitVec.sub_eq_add_neg]
      · exact hself
    · exact hself
  · exact hself

/-- The offset found so far and the number of the value still to be resolved always add up to the
same: this is what each step hands on to the next. -/
theorem ofBase_add_resolveValue? (hσ : place.Obeys σ f) {n : Nat} {v : ValueId} {offset o : Int}
    {b : Base} (h : resolveValue? f v offset n = some (b, o)) :
    place.ofBase σ b + .ofInt 64 o = σ v + .ofInt 64 offset := by
  induction n generalizing v offset with
  | zero => cases h
  | succ n ih =>
    rw [resolveValue?] at h
    have hv := ofStep_step hσ v
    cases hstep : step f v with
    | base b' c =>
      rw [hstep] at h hv
      cases h
      rw [ofInt_wrap, BitVec.ofInt_add, ← hv, Placement.ofStep]
      ac_rfl
    | sum x c =>
      rw [hstep] at h hv
      rw [ih h, ofInt_wrap, BitVec.ofInt_add, ← hv, Placement.ofStep]
      ac_rfl

theorem ofBase_add_resolve? (hσ : place.Obeys σ f) {a : Address} {b : Base} {o : Int}
    (h : resolve? f a = some (b, o)) :
    place.ofBase σ b + .ofInt 64 o = place.ofAddress σ a := by
  cases a with
  | slot s =>
    cases h
    simp [Placement.ofBase, Placement.ofAddress]
  | value v => simpa [Placement.ofAddress] using ofBase_add_resolveValue? hσ h

theorem ranges_eq_must_iff {startA startB : Int} {sizeA sizeB : Option Int} :
    ranges startA startB sizeA sizeB = .must ↔ startA = startB ∧ sizeA.isSome ∧ sizeA = sizeB := by
  unfold ranges
  cases sizeA <;> cases sizeB <;> grind

theorem ranges_comm (startA startB : Int) (sizeA sizeB : Option Int) :
    ranges startA startB sizeA sizeB = ranges startB startA sizeB sizeA := by
  unfold ranges
  cases sizeA <;> cases sizeB <;> grind

theorem size_of_knownSize? {a : MemoryLocation} {n : Int} (h : knownSize? a = some n) :
    a.size = some n.toNat := by
  obtain ⟨k, hk, hsize⟩ := Option.bind_eq_some_iff.mp h
  split at hsize
  · cases hsize
    exact hk
  · cases hsize

theorem basic_comm (f : Function) (a b : MemoryLocation) : basic f a b = basic f b a := by
  unfold basic
  cases resolve? f a.address with
  | none => cases resolve? f b.address <;> rfl
  | some x =>
    cases resolve? f b.address with
    | none => rfl
    | some y =>
      by_cases hbase : x.1 = y.1
      · simp only [hbase, if_true]
        exact ranges_comm _ _ _ _
      · simp only [hbase, Ne.symm hbase, if_false]
        cases x.1 <;> cases y.1 <;> rfl

theorem same_of_basic_eq_must {a b : MemoryLocation} (h : basic f a b = .must) :
    ∃ base offA offB, resolve? f a.address = some (base, offA) ∧
      resolve? f b.address = some (base, offB) ∧
      wrap (offA + a.offset) = wrap (offB + b.offset) ∧ a.size.isSome ∧ a.size = b.size := by
  unfold basic at h
  split at h
  · rename_i baseA offA baseB offB ha hb
    split at h
    · rename_i hbase
      obtain ⟨hstart, hknown, hsize⟩ := ranges_eq_must_iff.mp h
      obtain ⟨n, hn⟩ := Option.isSome_iff_exists.mp hknown
      have hsizeA := size_of_knownSize? hn
      have hsizeB := size_of_knownSize? (hsize ▸ hn)
      exact ⟨baseA, offA, offB, ha, hbase ▸ hb, hstart, by simp [hsizeA], hsizeA.trans hsizeB.symm⟩
    · split at h <;> cases h
  · cases h

theorem start_eq_of_basic_eq_must (hσ : place.Obeys σ f) {a b : MemoryLocation}
    (h : basic f a b = .must) :
    place.ofAddress σ a.address + .ofInt 64 a.offset =
      place.ofAddress σ b.address + .ofInt 64 b.offset := by
  obtain ⟨base, offA, offB, ha, hb, hstart, -⟩ := same_of_basic_eq_must h
  calc place.ofAddress σ a.address + .ofInt 64 a.offset
      = place.ofBase σ base + .ofInt 64 (wrap (offA + a.offset)) := by
        rw [← ofBase_add_resolve? hσ ha, ofInt_wrap, BitVec.ofInt_add, BitVec.add_assoc]
    _ = place.ofBase σ base + .ofInt 64 (wrap (offB + b.offset)) := by rw [hstart]
    _ = place.ofAddress σ b.address + .ofInt 64 b.offset := by
        rw [← ofBase_add_resolve? hσ hb, ofInt_wrap, BitVec.ofInt_add, BitVec.add_assoc]

/-- Every address that is not made of a value defined from itself is resolved, and in every run its
base and its offset add up to it.  Accesses that are found to be the same have one known size and
cover the same bytes in every run, and the order of the accesses does not matter. -/
theorem resolve_agrees_with_runs (f : Function) :
    (∀ a, AcyclicAt f a → ∃ base offset, resolve? f a = some (base, offset) ∧
      ∀ (place : Placement) (σ : ValueId → BitVec 64), place.Obeys σ f →
        place.ofBase σ base + .ofInt 64 offset = place.ofAddress σ a) ∧
      (∀ a b, basic f a b = .must → ∃ n, a.size = some n ∧ b.size = some n ∧
        ∀ (place : Placement) (σ : ValueId → BitVec 64), place.Obeys σ f →
          ∀ byte, place.Covers σ a byte ↔ place.Covers σ b byte) ∧
      ∀ a b, basic f a b = basic f b a := by
  refine ⟨?_, ?_, basic_comm f⟩
  · intro a ha
    obtain ⟨⟨base, offset⟩, hresolve⟩ := ha.exists_resolve?
    exact ⟨base, offset, hresolve, fun place σ hσ => ofBase_add_resolve? hσ hresolve⟩
  · intro a b hmust
    obtain ⟨-, -, -, -, -, -, hknown, hsize⟩ := same_of_basic_eq_must hmust
    obtain ⟨n, hn⟩ := Option.isSome_iff_exists.mp hknown
    refine ⟨n, hn, hsize ▸ hn, fun place σ hσ byte => ?_⟩
    unfold Placement.Covers
    rw [start_eq_of_basic_eq_must hσ hmust, hsize]

/-- A field of an object and one of a stack slot, each with the number of its place computed in two
ways: with the constant on either side, subtracted or added. -/
def computedFields : Function := .build ⟨.numbered 0 0, [16], [],
  [⟨[⟨.i64, 1⟩], [⟨.iconst, [], .immediate (-12), some ⟨.i64, 1⟩, [⟨.i64, 1⟩]⟩,
    ⟨.iadd, [1, 0], .none, some ⟨.i64, 1⟩, [⟨.i64, 1⟩]⟩,
    ⟨.isub, [2, 1], .none, some ⟨.i64, 1⟩, [⟨.i64, 1⟩]⟩,
    ⟨.iaddImm, [0], .immediate 16, some ⟨.i64, 1⟩, [⟨.i64, 1⟩]⟩,
    ⟨.iadd, [4, 1], .none, some ⟨.i64, 1⟩, [⟨.i64, 1⟩]⟩,
    ⟨.stackAddr, [], .slot 0 8, some ⟨.i64, 1⟩, [⟨.i64, 1⟩]⟩,
    ⟨.ret, [], .none, none, []⟩]⟩], none⟩

def computedFieldsPlace : Placement := ⟨fun _ => -16, fun _ => 0⟩

def computedFieldsRun (v : ValueId) : BitVec 64 := ([4, -12, -8, 4, 20, 8, -8].getD v 0)

/-- The two ways to write a place give the same bytes, also where a sum wraps around. -/
theorem resolve_computedFields :
    basic computedFields ⟨.value 3, 4, some 8⟩ ⟨.value 5, 0, some 8⟩ = .must ∧
      (∀ byte, computedFieldsPlace.Covers computedFieldsRun ⟨.value 3, 4, some 8⟩ byte ↔
        computedFieldsPlace.Covers computedFieldsRun ⟨.value 5, 0, some 8⟩ byte) ∧
      ∃ base offset, resolve? computedFields (.value 5) = some (base, offset) ∧
        computedFieldsPlace.ofBase computedFieldsRun base + .ofInt 64 offset = 8 := by
  have hruns := resolve_agrees_with_runs computedFields
  have hobeys : computedFieldsPlace.Obeys computedFieldsRun computedFields := by decide +kernel
  have hacyclic : Acyclic computedFields := acyclic_of_lt (by decide +kernel)
  have hmust : basic computedFields ⟨.value 3, 4, some 8⟩ ⟨.value 5, 0, some 8⟩ = .must := by
    decide +kernel
  obtain ⟨-, -, -, hcovers⟩ := hruns.2.1 _ _ hmust
  obtain ⟨base, offset, hresolve, hsum⟩ := hruns.1 (.value 5) (hacyclic.at _)
  have hvalue : computedFieldsPlace.ofAddress computedFieldsRun (.value 5) = 8 := by
    decide +kernel
  exact ⟨hmust, hcovers _ _ hobeys, base, offset, hresolve, (hsum _ _ hobeys).trans hvalue⟩

end AliasOracle

end SpecFence
