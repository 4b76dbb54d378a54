/-!
# Finite sets as ascending lists

A finite set of an ordered type is kept as its strictly ascending list of members, so that two sets
with the same members are equal and every listing of a set is in ascending order.  The main
statements are the membership law of each operation and extensionality.
-/

set_option autoImplicit false

namespace SpecFence

open Std

def Ascending {κ : Type} [Ord κ] (l : List κ) : Prop :=
  l.Pairwise fun a b => compare a b = .lt

/-- A finite set, kept as the strictly ascending list of its members. -/
structure AscSet (κ : Type) [Ord κ] where
  toList : List κ
  ascending : Ascending toList

namespace Ascending

variable {κ : Type} [Ord κ]

def insert (k : κ) : List κ → List κ
  | [] => [k]
  | a :: l =>
    match compare k a with
    | .lt => k :: a :: l
    | .eq => a :: l
    | .gt => a :: insert k l

theorem nil : Ascending ([] : List κ) := List.Pairwise.nil

theorem filter {l : List κ} (h : Ascending l) (p : κ → Bool) : Ascending (l.filter p) :=
  List.Pairwise.filter p h

variable [LawfulEqOrd κ]

theorem mem_insert {k x : κ} {l : List κ} : x ∈ insert k l ↔ x = k ∨ x ∈ l := by
  induction l with
  | nil => simp [insert]
  | cons a l ih =>
    rw [insert]
    split
    · simp
    · rename_i h
      have := LawfulEqOrd.compare_eq_iff_eq.mp h
      subst this
      simp
    · simp only [List.mem_cons, ih]
      exact or_left_comm

variable [TransOrd κ]

theorem ascending_insert {k : κ} {l : List κ} (h : Ascending l) : Ascending (insert k l) := by
  induction l with
  | nil => simp [insert, Ascending]
  | cons a l ih =>
    have ha : ∀ x ∈ l, compare a x = .lt := (List.pairwise_cons.mp h).1
    have hl : Ascending l := (List.pairwise_cons.mp h).2
    rw [insert]
    split
    · rename_i hk
      refine List.pairwise_cons.mpr ⟨?_, h⟩
      intro x hx
      rcases List.mem_cons.mp hx with rfl | hx
      · exact hk
      · exact TransCmp.lt_trans hk (ha x hx)
    · exact h
    · rename_i hk
      refine List.pairwise_cons.mpr ⟨?_, ih hl⟩
      intro x hx
      rcases mem_insert.mp hx with rfl | hx
      · exact OrientedCmp.gt_iff_lt.mp hk
      · exact ha x hx

theorem eq_of_mem_iff {l m : List κ} (hl : Ascending l) (hm : Ascending m)
    (h : ∀ x, x ∈ l ↔ x ∈ m) : l = m := by
  induction l generalizing m with
  | nil =>
    cases m with
    | nil => rfl
    | cons b m => simpa using (h b).mpr (by simp)
  | cons a l ih =>
    cases m with
    | nil => simpa using (h a).mp (by simp)
    | cons b m =>
      have hal : ∀ x ∈ l, compare a x = .lt := (List.pairwise_cons.mp hl).1
      have hbm : ∀ x ∈ m, compare b x = .lt := (List.pairwise_cons.mp hm).1
      have hab : a = b := by
        rcases List.mem_cons.mp ((h a).mp (by simp)) with hab | ham
        · exact hab
        · rcases List.mem_cons.mp ((h b).mpr (by simp)) with hba | hbl
          · exact hba.symm
          · exact absurd (TransCmp.lt_trans (hal b hbl) (hbm a ham)) (by simp)
      subst hab
      congr 1
      refine ih (List.pairwise_cons.mp hl).2 (List.pairwise_cons.mp hm).2 fun x => ?_
      constructor
      · intro hx
        rcases List.mem_cons.mp ((h x).mp (List.mem_cons_of_mem _ hx)) with rfl | hm'
        · exact absurd (hal x hx) (by simp)
        · exact hm'
      · intro hx
        rcases List.mem_cons.mp ((h x).mpr (List.mem_cons_of_mem _ hx)) with rfl | hl'
        · exact absurd (hbm x hx) (by simp)
        · exact hl'

end Ascending

namespace AscSet

variable {κ : Type} [Ord κ]

instance : Membership κ (AscSet κ) := ⟨fun s k => k ∈ s.toList⟩

instance [DecidableEq κ] : DecidableEq (AscSet κ) := fun s t =>
  if h : s.toList = t.toList then
    .isTrue (by cases s; cases t; cases h; rfl)
  else
    .isFalse fun e => h (congrArg AscSet.toList e)

instance [DecidableEq κ] (k : κ) (s : AscSet κ) : Decidable (k ∈ s) :=
  inferInstanceAs (Decidable (k ∈ s.toList))

instance : Ord (AscSet κ) := ⟨fun s t => compare s.toList t.toList⟩

def empty : AscSet κ := ⟨[], Ascending.nil⟩

instance : Inhabited (AscSet κ) := ⟨empty⟩

instance : EmptyCollection (AscSet κ) := ⟨empty⟩

def singleton (k : κ) : AscSet κ := ⟨[k], List.pairwise_singleton _ _⟩

def isEmpty (s : AscSet κ) : Bool := s.toList.isEmpty

def size (s : AscSet κ) : Nat := s.toList.length

def filter (p : κ → Bool) (s : AscSet κ) : AscSet κ :=
  ⟨s.toList.filter p, s.ascending.filter p⟩

def difference [DecidableEq κ] (s t : AscSet κ) : AscSet κ := s.filter fun k => !decide (k ∈ t)

theorem mem_def {k : κ} {s : AscSet κ} : k ∈ s ↔ k ∈ s.toList := Iff.rfl

theorem isEmpty_iff {s : AscSet κ} : s.isEmpty = true ↔ ∀ k, k ∉ s := by
  unfold isEmpty
  rw [List.isEmpty_iff, List.eq_nil_iff_forall_not_mem]
  rfl

@[simp] theorem not_mem_empty (k : κ) : k ∉ (empty : AscSet κ) := List.not_mem_nil

@[simp] theorem mem_singleton {k x : κ} : x ∈ singleton k ↔ x = k := List.mem_singleton

@[simp] theorem mem_filter {s : AscSet κ} {p : κ → Bool} {x : κ} :
    x ∈ s.filter p ↔ x ∈ s ∧ p x = true := List.mem_filter

@[simp] theorem mem_difference [DecidableEq κ] {s t : AscSet κ} {x : κ} :
    x ∈ s.difference t ↔ x ∈ s ∧ x ∉ t := by
  simp [difference]

theorem nodup_toList [ReflOrd κ] (s : AscSet κ) : s.toList.Nodup := by
  refine s.ascending.imp fun hlt hab => ?_
  rw [hab, ReflOrd.compare_self] at hlt
  cases hlt

theorem eq_of_toList {s t : AscSet κ} (h : s.toList = t.toList) : s = t := by
  cases s; cases t; cases h; rfl

variable [TransOrd κ] [LawfulEqOrd κ]

def insert (s : AscSet κ) (k : κ) : AscSet κ :=
  ⟨Ascending.insert k s.toList, Ascending.ascending_insert s.ascending⟩

def insertAll (s : AscSet κ) (l : List κ) : AscSet κ := l.foldl insert s

def ofList (l : List κ) : AscSet κ := insertAll empty l

def union (s t : AscSet κ) : AscSet κ := s.insertAll t.toList

instance : Union (AscSet κ) := ⟨union⟩

@[simp] theorem mem_insert {s : AscSet κ} {k x : κ} : x ∈ s.insert k ↔ x = k ∨ x ∈ s :=
  Ascending.mem_insert

@[simp] theorem mem_insertAll {s : AscSet κ} {l : List κ} {x : κ} :
    x ∈ s.insertAll l ↔ x ∈ s ∨ x ∈ l := by
  induction l generalizing s with
  | nil => simp [insertAll]
  | cons a l ih =>
    have : s.insertAll (a :: l) = (s.insert a).insertAll l := rfl
    rw [this, ih, mem_insert, List.mem_cons]
    constructor
    · rintro ((h | h) | h) <;> simp [h]
    · rintro (h | h | h) <;> simp [h]

@[simp] theorem mem_ofList {l : List κ} {x : κ} : x ∈ ofList l ↔ x ∈ l := by
  simp [ofList]

@[simp] theorem mem_union {s t : AscSet κ} {x : κ} : x ∈ s ∪ t ↔ x ∈ s ∨ x ∈ t :=
  mem_insertAll

@[ext] theorem ext {s t : AscSet κ} (h : ∀ x, x ∈ s ↔ x ∈ t) : s = t :=
  eq_of_toList (Ascending.eq_of_mem_iff s.ascending t.ascending h)

instance : TransOrd (AscSet κ) where
  eq_swap {s t} := OrientedOrd.eq_swap (a := s.toList) (b := t.toList)
  isLE_trans {s t u} := TransOrd.isLE_trans (a := s.toList) (b := t.toList) (c := u.toList)

instance : LawfulEqOrd (AscSet κ) where
  compare_self {s} := ReflOrd.compare_self (a := s.toList)
  eq_of_compare h := eq_of_toList (LawfulEqOrd.eq_of_compare h)

end AscSet

end SpecFence
