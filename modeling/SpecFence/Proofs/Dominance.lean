import Mathlib.Data.Set.Card
import SpecFence.Proofs.Editing
import SpecFence.Proofs.Search

/-!
# Dominance

Paths are lists of blocks, each of which leads to the next.  The marked blocks are those that a path
of the right kind leads to, so one block dominates another when it is on every path from the entry to
it, and the strict dominators of a block are as many as there are such blocks.
-/

set_option autoImplicit false

namespace SpecFence

open Relation

theorem ncard_of_nodup {α : Type} [DecidableEq α] {l : List α} (h : l.Nodup) :
    {x | x ∈ l}.ncard = l.length := by
  rw [← List.coe_toFinset, Set.ncard_coe_finset, List.toFinset_card_of_nodup h]

namespace Function

inductive Path (f : Function) : BlockId → BlockId → List BlockId → Prop
  | single (b : BlockId) : Path f b b [b]
  | cons {a b c : BlockId} {path : List BlockId} (hstep : b ∈ f.flowSuccs a)
      (hpath : Path f b c path) : Path f a c (a :: path)

def PathTo (f : Function) (b : BlockId) (path : List BlockId) : Prop :=
  ∃ e, f.entry? = some e ∧ f.Path e b path

def Reached (f : Function) (b : BlockId) : Prop := b ∈ f.blocks ∧ ∃ path, f.PathTo b path

/-- One block is on every path from the entry to another. -/
def OnEveryPath (f : Function) (a b : BlockId) : Prop := ∀ path, f.PathTo b path → a ∈ path

variable {f : Function} {a b c e x y : BlockId} {path path' : List BlockId} {P : BlockId → Prop}
  {through : BlockId → Bool}

section Paths

namespace Path

theorem source_mem (h : f.Path a b path) : a ∈ path := by
  cases h <;> simp

theorem target_mem (h : f.Path a b path) : b ∈ path := by
  induction h with
  | single b => simp
  | cons _ _ ih => exact List.mem_cons_of_mem _ ih

theorem snoc (h : f.Path a b path) (hstep : c ∈ f.flowSuccs b) : f.Path a c (path ++ [c]) := by
  induction h with
  | single b => exact .cons hstep (.single c)
  | cons hfirst _ ih => exact .cons hfirst (ih hstep)

theorem trans (h : f.Path a b path) (h' : f.Path b c path') :
    ∃ way, f.Path a c way ∧ ∀ x ∈ way, x ∈ path ∨ x ∈ path' := by
  induction h with
  | single b => exact ⟨path', h', fun x hx => Or.inr hx⟩
  | @cons a _ _ rest hstep _ ih =>
    obtain ⟨way, hway, hall⟩ := ih h'
    refine ⟨a :: way, .cons hstep hway, ?_⟩
    simp only [List.mem_cons, forall_eq_or_imp, true_or, true_and]
    intro x hx
    exact (hall x hx).imp_left Or.inr

theorem exists_suffix (h : f.Path a b path) (hx : x ∈ path) :
    ∃ rest, f.Path x b rest ∧ ∀ y ∈ rest, y ∈ path := by
  induction h with
  | single b =>
    obtain rfl := List.mem_singleton.mp hx
    exact ⟨[x], .single x, fun y hy => hy⟩
  | @cons a _ _ path hstep hpath ih =>
    rcases List.mem_cons.mp hx with rfl | hx
    · exact ⟨x :: path, .cons hstep hpath, fun y hy => hy⟩
    · obtain ⟨rest, hrest, hall⟩ := ih hx
      exact ⟨rest, hrest, fun y hy => List.mem_cons_of_mem a (hall y hy)⟩

theorem exists_prefix (h : f.Path a b path) (hx : x ∈ path) :
    ∃ way, f.Path a x way ∧ ∀ y ∈ way, y ∈ path := by
  induction h with
  | single b =>
    obtain rfl := List.mem_singleton.mp hx
    exact ⟨[x], .single x, fun y hy => hy⟩
  | @cons a _ _ path hstep _ ih =>
    rcases List.mem_cons.mp hx with rfl | hx
    · exact ⟨[x], .single x, by simp⟩
    · obtain ⟨way, hway, hall⟩ := ih hx
      refine ⟨a :: way, .cons hstep hway, ?_⟩
      simp only [List.mem_cons, forall_eq_or_imp, true_or, true_and]
      exact fun y hy => Or.inr (hall y hy)

theorem first_of_two (h : f.Path x y path) (hne : a ≠ b) (hmem : a ∈ path ∨ b ∈ path) :
    (∃ way, f.Path x a way ∧ b ∉ way) ∨ ∃ way, f.Path x b way ∧ a ∉ way := by
  induction h with
  | single x =>
    rcases hmem with ha | hb
    · obtain rfl := List.mem_singleton.mp ha
      exact Or.inl ⟨[a], .single a, by simpa using hne.symm⟩
    · obtain rfl := List.mem_singleton.mp hb
      exact Or.inr ⟨[b], .single b, by simpa using hne⟩
  | @cons x _ _ path hstep _ ih =>
    by_cases hxa : x = a
    · subst hxa
      exact Or.inl ⟨[x], .single x, by simpa using hne.symm⟩
    by_cases hxb : x = b
    · subst hxb
      exact Or.inr ⟨[x], .single x, by simpa using hne⟩
    have hrest : a ∈ path ∨ b ∈ path := by
      simpa [Ne.symm hxa, Ne.symm hxb] using hmem
    rcases ih hrest with ⟨way, hway, hb⟩ | ⟨way, hway, ha⟩
    · exact Or.inl ⟨x :: way, .cons hstep hway, by simp [hb, Ne.symm hxb]⟩
    · exact Or.inr ⟨x :: way, .cons hstep hway, by simp [ha, Ne.symm hxa]⟩

theorem last_of_two (h : f.Path x y path) (hne : a ≠ b) (ha : a ∈ path) (hb : b ∈ path) :
    (∃ way, f.Path a y way ∧ b ∉ way) ∨ ∃ way, f.Path b y way ∧ a ∉ way := by
  induction h with
  | single x =>
    obtain rfl := List.mem_singleton.mp ha
    exact absurd (List.mem_singleton.mp hb).symm hne
  | @cons x _ _ path hstep hpath ih =>
    by_cases ha' : a ∈ path
    · by_cases hb' : b ∈ path
      · exact ih ha' hb'
      · obtain ⟨way, hway, hall⟩ := hpath.exists_suffix ha'
        exact Or.inl ⟨way, hway, fun hmem => hb' (hall b hmem)⟩
    · obtain rfl : a = x := by simpa [ha'] using ha
      obtain ⟨way, hway, hall⟩ := hpath.exists_suffix (by simpa [hne.symm] using hb)
      exact Or.inr ⟨way, hway, fun hmem => ha' (hall a hmem)⟩

theorem reflTransGen (h : f.Path a b path) (hP : ∀ x ∈ path, P x) :
    ReflTransGen (fun s t => t ∈ f.flowSuccs s ∧ P t) a b := by
  induction h with
  | single b => exact ReflTransGen.refl
  | cons hstep hpath ih =>
    rw [List.forall_mem_cons] at hP
    exact ReflTransGen.head ⟨hstep, hP.2 _ hpath.source_mem⟩ (ih hP.2)

end Path

theorem exists_path_of_steps
    (h : ReflTransGen (fun s t => t ∈ f.flowSuccs s ∧ P s) a b) :
    ∃ path, f.Path a b path ∧ ∀ x ∈ path, x = b ∨ P x := by
  induction h using ReflTransGen.head_induction_on with
  | refl => exact ⟨[b], .single b, by simp⟩
  | @head a c hstep _ ih =>
    obtain ⟨path, hpath, hall⟩ := ih
    refine ⟨a :: path, .cons hstep.1 hpath, ?_⟩
    rw [List.forall_mem_cons]
    exact ⟨Or.inr hstep.2, hall⟩

theorem Reached.of_mem (hb : f.Reached b) (hpath : f.PathTo b path) (hx : x ∈ path) :
    f.Reached x := by
  obtain ⟨e, he, hpath⟩ := hpath
  obtain ⟨way, hway, -⟩ := hpath.exists_prefix hx
  refine ⟨?_, way, e, he, hway⟩
  obtain ⟨rest, hrest, -⟩ := hpath.exists_suffix hx
  cases hrest with
  | single => exact hb.1
  | cons hstep _ => exact mem_blocks_of_mem_flowSuccs hstep

theorem exists_path_iff : (∃ path, f.Path a b path ∧ ∀ x ∈ path, P x) ↔
    P a ∧ ReflTransGen (fun s t => t ∈ f.flowSuccs s ∧ P t) a b := by
  constructor
  · rintro ⟨path, hpath, hP⟩
    exact ⟨hP a hpath.source_mem, hpath.reflTransGen hP⟩
  · rintro ⟨ha, hway⟩
    induction hway with
    | refl => exact ⟨[a], .single a, by simpa using ha⟩
    | @tail b c _ hstep ih =>
      obtain ⟨path, hpath, hP⟩ := ih
      refine ⟨path ++ [c], hpath.snoc hstep.1, ?_⟩
      simpa [or_imp, forall_and] using ⟨hP, hstep.2⟩

end Paths

section Marks

theorem has_reachableThrough (h : f.WellFormed) : (f.reachableThrough through).has b = true ↔
    ∃ path, f.PathTo b path ∧ ∀ x ∈ path, through x = true := by
  have hstep : ∀ s t, Search.Step (fun b => (f.flowSuccs b).toList.filter through) f.params.size
      s t ↔ t ∈ f.flowSuccs s ∧ through t = true := by
    intro s t
    simp only [Search.Step, List.mem_filter, ← AscSet.mem_def]
    exact and_iff_left_of_imp fun ht => h.flowSucc_lt ht.1
  have hpaths : (∃ path, f.PathTo b path ∧ ∀ x ∈ path, through x = true) ↔
      ∃ e, f.entry? = some e ∧ ∃ path, f.Path e b path ∧ ∀ x ∈ path, through x = true := by
    constructor
    · rintro ⟨path, ⟨e, he, hpath⟩, hall⟩
      exact ⟨e, he, path, hpath, hall⟩
    · rintro ⟨e, he, path, hpath, hall⟩
      exact ⟨path, ⟨e, he, hpath⟩, hall⟩
  unfold reachableThrough
  rw [Search.has_spread_iff, hpaths]
  simp only [exists_path_iff, funext₂ fun s t => propext (hstep s t), List.mem_filter,
    Option.mem_toList]
  constructor
  · rintro ⟨e, ⟨he, hthrough⟩, -, hway⟩
    exact ⟨e, he, hthrough, hway⟩
  · rintro ⟨e, he, hthrough, hway⟩
    exact ⟨e, ⟨he, hthrough⟩, h.blocks_lt e (List.mem_of_mem_head? he), hway⟩

theorem has_reachable (h : f.WellFormed) : f.reachable.has b = true ↔ ∃ path, f.PathTo b path := by
  unfold reachable
  rw [has_reachableThrough h]
  simp

theorem reached_iff (h : f.WellFormed) :
    f.Reached b ↔ b ∈ f.blocks ∧ f.reachable.has b = true := by
  unfold Reached
  rw [has_reachable h]

theorem onEveryPath_iff (h : f.WellFormed) :
    f.OnEveryPath a b ↔ (f.reachableThrough (· != a)).has b = false := by
  rw [← Bool.not_eq_true, has_reachableThrough h]
  unfold OnEveryPath
  simp only [bne_iff_ne, not_exists, not_and, ne_eq, not_forall]
  refine forall_congr' fun path => forall_congr' fun _ => ?_
  constructor
  · exact fun ha => ⟨a, ha, not_not_intro rfl⟩
  · rintro ⟨x, hx, hxa⟩
    exact not_not.mp hxa ▸ hx

theorem onEveryPath_self : f.OnEveryPath b b := by
  rintro path ⟨e, -, hpath⟩
  exact hpath.target_mem

theorem OnEveryPath.antisymm (hab : f.OnEveryPath a b) (hba : f.OnEveryPath b a)
    (hpath : f.PathTo b path) : a = b := by
  by_contra hne
  obtain ⟨e, he, hpath⟩ := hpath
  rcases hpath.first_of_two hne (Or.inr hpath.target_mem) with ⟨way, hway, hb⟩ | ⟨way, hway, ha⟩
  · exact hb (hba way ⟨e, he, hway⟩)
  · exact ha (hab way ⟨e, he, hway⟩)

theorem dominates_iff (h : f.WellFormed) : f.dominates a b = true ↔ f.OnEveryPath a b := by
  unfold dominates
  rw [Bool.or_eq_true, beq_iff_eq, Bool.not_eq_true', ← onEveryPath_iff h]
  constructor
  · rintro (rfl | hevery)
    · exact onEveryPath_self
    · exact hevery
  · exact Or.inr

theorem mem_strictDominators (h : f.WellFormed) :
    a ∈ f.strictDominators b ↔ f.Reached a ∧ a ≠ b ∧ f.OnEveryPath a b := by
  unfold strictDominators
  simp only [List.mem_filter, Bool.and_eq_true, bne_iff_ne, dominates_iff h, reached_iff h]
  tauto

theorem length_strictDominators (h : f.WellFormed) : (f.strictDominators b).length =
    {a | f.Reached a ∧ a ≠ b ∧ f.OnEveryPath a b}.ncard := by
  have hnodup : (f.strictDominators b).Nodup := h.blocks_nodup.filter _
  rw [← ncard_of_nodup hnodup]
  congr 1
  ext a
  exact mem_strictDominators h

end Marks

end Function

end SpecFence
