import SpecFence.Ordered.AscSet

/-!
# Finite maps as ascending association lists

A finite map from an ordered type is kept as the list of its entries, strictly ascending by key.
The look-up `get?` is the view that every operation is stated through.
-/

set_option autoImplicit false

namespace SpecFence

open Std

/-- A finite map, kept as the list of its entries with strictly ascending keys. -/
structure AscMap (κ ν : Type) [Ord κ] where
  toList : List (κ × ν)
  ascending : Ascending (toList.map Prod.fst)

namespace AscMap

variable {κ ν : Type} [Ord κ]

def insertEntry (k : κ) (v : ν) : List (κ × ν) → List (κ × ν)
  | [] => [(k, v)]
  | (a, w) :: l =>
    match compare k a with
    | .lt => (k, v) :: (a, w) :: l
    | .eq => (k, v) :: l
    | .gt => (a, w) :: insertEntry k v l

def findEntry (k : κ) : List (κ × ν) → Option ν
  | [] => none
  | (a, v) :: l => if compare k a = .eq then some v else findEntry k l

instance [DecidableEq κ] [DecidableEq ν] : DecidableEq (AscMap κ ν) := fun s t =>
  if h : s.toList = t.toList then
    .isTrue (by cases s; cases t; cases h; rfl)
  else
    .isFalse fun e => h (congrArg AscMap.toList e)

def empty : AscMap κ ν := ⟨[], Ascending.nil⟩

instance : Inhabited (AscMap κ ν) := ⟨empty⟩

instance : EmptyCollection (AscMap κ ν) := ⟨empty⟩

def get? (m : AscMap κ ν) (k : κ) : Option ν := findEntry k m.toList

def keys (m : AscMap κ ν) : List κ := m.toList.map Prod.fst

def keySet (m : AscMap κ ν) : AscSet κ := ⟨m.keys, m.ascending⟩

def filter (p : κ → ν → Bool) (m : AscMap κ ν) : AscMap κ ν :=
  ⟨m.toList.filter fun e => p e.1 e.2,
    List.Pairwise.sublist (List.filter_sublist.map Prod.fst) m.ascending⟩

def erase (m : AscMap κ ν) (k : κ) : AscMap κ ν := m.filter fun a _ => compare k a != .eq

@[simp] theorem get?_empty (k : κ) : (empty : AscMap κ ν).get? k = none := rfl

variable [LawfulEqOrd κ]

theorem map_fst_insertEntry (k : κ) (v : ν) (l : List (κ × ν)) :
    (insertEntry k v l).map Prod.fst = Ascending.insert k (l.map Prod.fst) := by
  induction l with
  | nil => rfl
  | cons e l ih =>
    obtain ⟨a, w⟩ := e
    simp only [insertEntry, List.map_cons, Ascending.insert]
    cases h : compare k a with
    | lt => simp
    | eq => simp [LawfulEqOrd.compare_eq_iff_eq.mp h]
    | gt => simp [ih]

theorem findEntry_eq_some {k : κ} {v : ν} {l : List (κ × ν)} (h : findEntry k l = some v) :
    (k, v) ∈ l := by
  induction l with
  | nil => simp [findEntry] at h
  | cons e l ih =>
    obtain ⟨a, w⟩ := e
    rw [findEntry] at h
    split at h
    · rename_i hk
      cases LawfulEqOrd.compare_eq_iff_eq.mp hk
      cases h
      simp
    · exact List.mem_cons_of_mem _ (ih h)

theorem findEntry_of_mem {k : κ} {v : ν} {l : List (κ × ν)} (hl : Ascending (l.map Prod.fst))
    (h : (k, v) ∈ l) : findEntry k l = some v := by
  induction l with
  | nil => simp at h
  | cons e l ih =>
    obtain ⟨a, w⟩ := e
    rw [List.map_cons, Ascending, List.pairwise_cons] at hl
    rw [findEntry]
    rcases List.mem_cons.mp h with h | h
    · cases h
      simp
    · have hlt := hl.1 k (List.mem_map.mpr ⟨_, h, rfl⟩)
      have hne : compare k a ≠ .eq := by
        intro he
        cases LawfulEqOrd.compare_eq_iff_eq.mp he
        simp at hlt
      rw [if_neg hne]
      exact ih hl.2 h

theorem mem_toList_iff {m : AscMap κ ν} {k : κ} {v : ν} :
    (k, v) ∈ m.toList ↔ m.get? k = some v :=
  ⟨findEntry_of_mem m.ascending, findEntry_eq_some⟩

theorem mem_keys_iff {m : AscMap κ ν} {k : κ} : k ∈ m.keys ↔ (m.get? k).isSome := by
  rw [Option.isSome_iff_exists, keys, List.mem_map]
  constructor
  · rintro ⟨⟨a, v⟩, h, rfl⟩
    exact ⟨v, mem_toList_iff.mp h⟩
  · rintro ⟨v, h⟩
    exact ⟨(k, v), mem_toList_iff.mpr h, rfl⟩

theorem get?_filter {p : κ → ν → Bool} {m : AscMap κ ν} {k : κ} :
    (m.filter p).get? k = (m.get? k).filter (p k) := by
  apply Option.ext
  intro v
  rw [← mem_toList_iff, Option.filter_eq_some_iff, ← mem_toList_iff]
  exact List.mem_filter

theorem get?_erase [DecidableEq κ] {m : AscMap κ ν} {k x : κ} :
    (m.erase k).get? x = if x = k then none else m.get? x := by
  rw [erase, get?_filter]
  by_cases h : x = k
  · subst h
    cases m.get? x <;> simp [Option.filter]
  · have hne : compare k x ≠ .eq := fun he => h (LawfulEqOrd.compare_eq_iff_eq.mp he).symm
    cases m.get? x <;> simp [Option.filter, h, hne]

variable [TransOrd κ]

def insert (m : AscMap κ ν) (k : κ) (v : ν) : AscMap κ ν :=
  ⟨insertEntry k v m.toList, by
    rw [map_fst_insertEntry]
    exact Ascending.ascending_insert m.ascending⟩

/-- The map of a list of entries, of which a later one replaces an earlier one of the same key. -/
def ofList (l : List (κ × ν)) : AscMap κ ν := l.foldl (fun m e => m.insert e.1 e.2) empty

omit [TransOrd κ] in
theorem findEntry_insertEntry [DecidableEq κ] {k x : κ} {v : ν} {l : List (κ × ν)} :
    findEntry x (insertEntry k v l) = if x = k then some v else findEntry x l := by
  induction l with
  | nil => simp [insertEntry, findEntry]
  | cons e l ih =>
    obtain ⟨a, w⟩ := e
    rw [insertEntry]
    split
    · simp [findEntry]
    · rename_i h
      cases LawfulEqOrd.compare_eq_iff_eq.mp h
      simp only [findEntry, LawfulEqOrd.compare_eq_iff_eq]
      split <;> rfl
    · rename_i h
      have hka : k ≠ a := by
        rintro rfl
        simp at h
      simp only [findEntry, LawfulEqOrd.compare_eq_iff_eq, ih]
      by_cases hx : x = a
      · subst hx
        simp [Ne.symm hka]
      · simp [hx]

theorem get?_insert [DecidableEq κ] {m : AscMap κ ν} {k x : κ} {v : ν} :
    (m.insert k v).get? x = if x = k then some v else m.get? x :=
  findEntry_insertEntry

omit [LawfulEqOrd κ] [TransOrd κ] in
theorem eq_of_toList {s t : AscMap κ ν} (h : s.toList = t.toList) : s = t := by
  cases s; cases t; cases h; rfl

theorem ext_get? {s t : AscMap κ ν} (h : ∀ k, s.get? k = t.get? k) : s = t := by
  obtain ⟨l, hl⟩ := s
  obtain ⟨m, hm⟩ := t
  apply eq_of_toList
  change l = m
  have hk : l.map Prod.fst = m.map Prod.fst := by
    refine Ascending.eq_of_mem_iff hl hm fun x => ?_
    have := congrArg Option.isSome (h x)
    have h1 := mem_keys_iff (m := (⟨l, hl⟩ : AscMap κ ν)) (k := x)
    have h2 := mem_keys_iff (m := (⟨m, hm⟩ : AscMap κ ν)) (k := x)
    rw [this] at h1
    exact h1.trans h2.symm
  apply List.ext_getElem
  · simpa using congrArg List.length hk
  · intro i hi hj
    have hfst : (l[i]).1 = (m[i]).1 := by
      have := List.getElem_of_eq hk (i := i) (by simpa using hi)
      simpa using this
    have hl' : findEntry (l[i]).1 l = some (l[i]).2 :=
      findEntry_of_mem hl (List.getElem_mem hi)
    have hm' : findEntry (m[i]).1 m = some (m[i]).2 :=
      findEntry_of_mem hm (List.getElem_mem hj)
    have hh : findEntry (l[i]).1 l = findEntry (l[i]).1 m := h (l[i]).1
    rw [hl', hfst, hm'] at hh
    exact Prod.ext hfst (Option.some.inj hh)

end AscMap

end SpecFence
