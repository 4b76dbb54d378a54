import Mathlib.Data.List.Nodup
import SpecFence.Proofs.Search

/-!
# The order in which a depth-first walk leaves states

A depth-first walk leaves every state that its starts lead to, once.  While a state is entered, all
states on the way that led there are still to be left.  So what comes after a state in the postorder
holds all states of some way to it.
-/

set_option autoImplicit false

namespace SpecFence.Search

open Relation

variable {next : Nat → List Nat} {starts left : List Nat} {seen : Marks} {plan rest : List Visit}
  {v w : Nat}

def Visit.state : Visit → Nat
  | .enter v => v
  | .leave v => v

def toLeave (plan : List Visit) : List Nat :=
  plan.filterMap fun
    | .enter _ => none
    | .leave v => some v

theorem mem_toLeave : v ∈ toLeave plan ↔ .leave v ∈ plan := by
  simp only [toLeave, List.mem_filterMap]
  constructor
  · rintro ⟨x, hx, hleave⟩
    cases x with
    | enter u => simp at hleave
    | leave u => simp_all
  · intro hleave
    exact ⟨.leave v, hleave, rfl⟩

/-- Some way from a start to a state is through states of a kind, the state itself apart. -/
def LedThrough (next : Nat → List Nat) (starts : List Nat) (through : Nat → Prop) (w : Nat) :
    Prop :=
  ∃ s ∈ starts, ReflTransGen (fun a b => b ∈ next a ∧ through a) s w

theorem LedThrough.mono {p q : Nat → Prop} (h : LedThrough next starts p w)
    (hpq : ∀ a, p a → q a) : LedThrough next starts q w := by
  obtain ⟨s, hs, hway⟩ := h
  exact ⟨s, hs, ReflTransGen.mono (fun _ _ hab => ⟨hab.1, hpq _ hab.2⟩) _ _ hway⟩

theorem LedThrough.step {p : Nat → Prop} (h : LedThrough next starts p v) (hv : p v)
    (hw : w ∈ next v) : LedThrough next starts p w := by
  obtain ⟨s, hs, hway⟩ := h
  exact ⟨s, hs, hway.tail ⟨hw, hv⟩⟩

/-- To each planned visit leads a way through states that are to be left after it. -/
def Planned (next : Nat → List Nat) (starts : List Nat) : List Visit → Prop
  | [] => True
  | x :: rest => LedThrough next starts (.leave · ∈ rest) x.state ∧ Planned next starts rest

theorem planned_starts {l : List Nat} (h : ∀ s ∈ l, s ∈ starts) :
    Planned next starts (l.map .enter) := by
  induction l with
  | nil => trivial
  | cons s l ih =>
    rw [List.forall_mem_cons] at h
    exact ⟨⟨s, h.1, ReflTransGen.refl⟩, ih h.2⟩

theorem Planned.enter (h : Planned next starts (.enter v :: rest)) {l : List Nat}
    (hl : ∀ w ∈ l, w ∈ next v) : Planned next starts (l.map .enter ++ .leave v :: rest) := by
  induction l with
  | nil => exact h
  | cons w l ih =>
    rw [List.forall_mem_cons] at hl
    refine ⟨?_, ih hl.2⟩
    -- the way to `w` passes `v`, which is left after it
    have hway : LedThrough next starts (.leave · ∈ l.map .enter ++ .leave v :: rest) v :=
      h.1.mono fun a ha => by simp [ha]
    exact hway.step (by simp) hl.1

structure Walking (next : Nat → List Nat) (starts : List Nat) (seen : Marks) (left : List Nat)
    (plan : List Visit) : Prop where
  nodup : (left ++ toLeave plan).Nodup
  has_iff : ∀ v, seen.has v = true ↔ v ∈ left ∨ .leave v ∈ plan
  pending : ∀ v w, seen.has v = true → Step next seen.size v w →
    seen.has w = true ∨ .enter w ∈ plan
  planned : Planned next starts plan
  led : ∀ later w earlier, left = later ++ w :: earlier →
    LedThrough next starts (fun a => a ∈ later ∨ .leave a ∈ plan) w

theorem walking_start (n : Nat) :
    Walking next starts (Array.replicate n false) [] (starts.map .enter) := by
  have hnone : toLeave (starts.map .enter) = [] := by
    simp [toLeave, List.filterMap_map]
  constructor
  case nodup => simp [hnone]
  case has_iff =>
    intro v
    simp [Marks.not_has_replicate]
  case pending =>
    intro v w hv
    exact absurd hv (Marks.not_has_replicate n v)
  case planned => exact planned_starts fun s hs => hs
  case led => simp

theorem Walking.enter (h : Walking next starts seen left (.enter v :: rest)) (hv : v < seen.size)
    (hnew : ¬ seen.has v = true) : Walking next starts (seen.set v true hv) left
      ((next v).map .enter ++ .leave v :: rest) := by
  have hold : ¬ (v ∈ left ∨ .leave v ∈ rest) := by
    intro hseen
    apply hnew
    rw [h.has_iff]
    simpa using hseen
  rw [not_or] at hold
  have hleave : toLeave ((next v).map .enter ++ .leave v :: rest) = v :: toLeave rest := by
    simp [toLeave, List.filterMap_map]
  constructor
  case nodup =>
    have hnodup : (left ++ toLeave rest).Nodup := h.nodup
    rw [hleave, List.nodup_middle, List.nodup_cons, List.mem_append, mem_toLeave, not_or]
    exact ⟨hold, hnodup⟩
  case has_iff =>
    intro u
    rw [Marks.has_set, h.has_iff]
    simp only [List.mem_cons, reduceCtorEq, false_or, List.mem_append, List.mem_map, and_false,
      exists_false, Visit.leave.injEq]
    tauto
  case pending =>
    intro a b ha hab
    rw [Array.size_set] at hab
    rw [Marks.has_set]
    rcases (Marks.has_set hv).mp ha with rfl | ha
    · right
      simp [hab.1]
    · rcases h.pending a b ha hab with hb | hb
      · exact Or.inl (Or.inr hb)
      · rcases List.mem_cons.mp hb with hbv | hb
        · exact Or.inl (Or.inl (Visit.enter.inj hbv))
        · right
          simp [hb]
  case planned => exact h.planned.enter fun w hw => hw
  case led =>
    intro later w earlier hleft
    exact (h.led later w earlier hleft).mono fun a ha => by simpa using ha.imp_right Or.inr

theorem Walking.skip (h : Walking next starts seen left (.enter v :: rest))
    (hold : v < seen.size → seen.has v = true) : Walking next starts seen left rest := by
  constructor
  case nodup => exact h.nodup
  case has_iff =>
    intro u
    rw [h.has_iff]
    simp
  case pending =>
    intro a b ha hab
    rcases h.pending a b ha hab with hb | hb
    · exact Or.inl hb
    · rcases List.mem_cons.mp hb with hbv | hb
      · obtain rfl := Visit.enter.inj hbv
        exact Or.inl (hold hab.2)
      · exact Or.inr hb
  case planned => exact h.planned.2
  case led =>
    intro later w earlier hleft
    exact (h.led later w earlier hleft).mono fun a ha => by simpa using ha

theorem Walking.leave (h : Walking next starts seen left (.leave v :: rest)) :
    Walking next starts seen (v :: left) rest := by
  constructor
  case nodup =>
    have hnodup : (left ++ v :: toLeave rest).Nodup := h.nodup
    rw [List.cons_append, ← List.nodup_middle]
    exact hnodup
  case has_iff =>
    intro u
    rw [h.has_iff]
    simp only [List.mem_cons, Visit.leave.injEq]
    tauto
  case pending =>
    intro a b ha hab
    exact (h.pending a b ha hab).imp_right fun hb => by simpa using hb
  case planned => exact h.planned.2
  case led =>
    intro later w earlier hleft
    rcases List.cons_eq_append_iff.mp hleft with ⟨rfl, hcons⟩ | ⟨later, rfl, hrest⟩
    · obtain ⟨rfl, -⟩ := List.cons.inj hcons
      exact h.planned.1.mono fun a ha => Or.inr ha
    · refine (h.led later w earlier hrest).mono fun a ha => ?_
      simp only [List.mem_cons, Visit.leave.injEq] at ha ⊢
      tauto

theorem leaving_spec (h : Walking next starts seen left plan) : ∃ seen' left',
    seen'.size = seen.size ∧ (leaving next seen left plan) = left'.reverse ∧
      Walking next starts seen' left' [] ∧
      (∀ v, v < seen.size → seen.has v = true ∨ .enter v ∈ plan → v ∈ left') := by
  induction seen, left, plan using leaving.induct next with
  | case1 seen left =>
    rw [leaving]
    refine ⟨seen, left, rfl, rfl, h, fun v _ hv => ?_⟩
    simpa [h.has_iff] using hv
  | case2 seen left v rest ih =>
    rw [leaving]
    obtain ⟨seen', left', hsize, hresult, hwalking, hall⟩ := ih h.leave
    refine ⟨seen', left', hsize, hresult, hwalking, fun w hw hseen => ?_⟩
    exact hall w hw (by simpa using hseen)
  | case3 seen left v rest hopen ih =>
    rw [leaving, dif_pos hopen]
    have hnew := Marks.open_iff.mp hopen
    obtain ⟨seen', left', hsize, hresult, hwalking, hall⟩ := ih (h.enter hopen.1 hnew.2)
    rw [Array.size_set] at hsize hall
    refine ⟨seen', left', hsize, hresult, hwalking, fun w hw hseen => hall w hw ?_⟩
    rw [Marks.has_set]
    rcases hseen with hseen | hseen
    · exact Or.inl (Or.inr hseen)
    · rcases List.mem_cons.mp hseen with hwv | hrest
      · exact Or.inl (Or.inl (Visit.enter.inj hwv))
      · right
        simp [hrest]
  | case4 seen left v rest hclosed ih =>
    rw [leaving, dif_neg hclosed]
    have hold : v < seen.size → seen.has v = true := by
      intro hlt
      by_contra hnot
      exact hclosed (Marks.open_iff.mpr ⟨hlt, hnot⟩)
    obtain ⟨seen', left', hsize, hresult, hwalking, hall⟩ := ih (h.skip hold)
    refine ⟨seen', left', hsize, hresult, hwalking, fun w hw hseen => hall w hw ?_⟩
    rcases hseen with hseen | hseen
    · exact Or.inl hseen
    · rcases List.mem_cons.mp hseen with hwv | hrest
      · obtain rfl := Visit.enter.inj hwv
        exact Or.inl (hold hw)
      · exact Or.inr hrest

/-- The postorder has every state that the starts lead to, once.  To each state leads a way through
states that come after it. -/
theorem postorder_spec {n : Nat} (hstarts : ∀ s ∈ starts, s < n)
    (hnext : ∀ v, ∀ w ∈ next v, w < n) : (postorder next n starts).Nodup ∧
      (∀ v, v ∈ postorder next n starts ↔ LedThrough next starts (fun _ => True) v) ∧
      ∀ earlier w later, postorder next n starts = earlier ++ w :: later →
        LedThrough next starts (· ∈ later) w := by
  have hstart : Walking next starts (Array.replicate n false) [] (starts.map .enter) :=
    walking_start n
  obtain ⟨seen, left, hsize, hresult, hwalking, hall⟩ := leaving_spec hstart
  rw [Array.size_replicate] at hsize hall
  have horder : postorder next n starts = left.reverse := hresult
  have hled : ∀ earlier w later, left.reverse = earlier ++ w :: later →
      LedThrough next starts (· ∈ later) w := by
    intro earlier w later hlist
    have hleft : left = later.reverse ++ w :: earlier.reverse := by
      rw [← List.reverse_reverse left, hlist]
      simp
    exact (hwalking.led _ w _ hleft).mono fun a ha => by simpa using ha
  have hseen : ∀ v, seen.has v = true ↔ v ∈ left := by simp [hwalking.has_iff]
  rw [horder]
  refine ⟨?_, ?_, hled⟩
  · simpa [toLeave] using hwalking.nodup
  · intro v
    rw [List.mem_reverse]
    constructor
    · intro hv
      obtain ⟨earlier, later, hsplit⟩ := List.append_of_mem (List.mem_reverse.mpr hv)
      exact (hled _ v _ hsplit).mono fun _ _ => trivial
    · rintro ⟨s, hs, hway⟩
      induction hway with
      | refl => exact hall s (hstarts s hs) (Or.inr (List.mem_map_of_mem hs))
      | @tail a b _ hstep ih =>
        have hpending := hwalking.pending a b ((hseen a).mpr ih)
          ⟨hstep.1, hsize ▸ hnext a b hstep.1⟩
        simpa [hseen] using hpending

end SpecFence.Search
