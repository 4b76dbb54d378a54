import SpecFence.Leak
import SpecFence.Proofs.Traversal
import SpecFence.Proofs.Uses

/-!
# What leaks along uses

A value leaks if a chain leads from it to an operand that is always transmitted: through the first
results of instructions other than calls, and through the block parameters that branches feed.  The
chain meets no instruction with a fence before it.  It passes neither calls nor memory.
-/

set_option autoImplicit false

namespace SpecFence

open Relation

namespace Function

inductive Leaks (f : Function) (table : IntrinsicTable) : ValueId → Prop
  | transmitted {v : ValueId} {i : InstId} (hi : i ∈ f.layoutInsts)
      (hfence : f.hasFenceBefore i = false) (hv : v ∈ f.args i)
      (hleak : f.alwaysTransmits table i v = true) : Leaks f table v
  | result {v r : ValueId} {i : InstId} (hi : i ∈ f.layoutInsts)
      (hfence : f.hasFenceBefore i = false) (hv : v ∈ f.args i)
      (hcall : (f.opcode i).isCall = false) (hr : f.firstResult? i = some r)
      (hrest : Leaks f table r) : Leaks f table v
  | passed {v p : ValueId} (hp : f.Passes v p) (hrest : Leaks f table p) : Leaks f table v

variable {f : Function} {table : IntrinsicTable} {v w : ValueId}

def leaksAt (f : Function) (table : IntrinsicTable) (d : DefUse) (v : ValueId) : Bool :=
  (d.usesOf v).any fun u =>
    match u with
    | .inst i => !f.hasFenceBefore i && f.alwaysTransmits table i v
    | .param _ => false

/-- The values that depend on a value through instructions that no fence precedes and through block
parameters. -/
def unfencedDependents (f : Function) (d : DefUse) (v : ValueId) : List ValueId :=
  (d.usesOf v).filterMap fun u =>
    match u with
    | .inst i => if f.hasFenceBefore i then none else d.dependent? f v u
    | .param _ => d.dependent? f v u

theorem leaksAt_iff (h : f.WellFormed) (hv : v < f.values.size) :
    f.leaksAt table (.ofFunction f false) v = true ↔
      ∃ i ∈ f.layoutInsts, f.hasFenceBefore i = false ∧ v ∈ f.args i ∧
        f.alwaysTransmits table i v = true := by
  unfold leaksAt
  rw [List.any_eq_true]
  constructor
  · rintro ⟨u, hu, hleak⟩
    rcases ((DefUse.mem_usesOf h).mp hu).2 with ⟨i, hi, hmem, rfl⟩ | ⟨p, rfl, -⟩
    · simp only [Bool.and_eq_true, Bool.not_eq_true'] at hleak
      exact ⟨i, hi, hleak.1, hmem, hleak.2⟩
    · cases hleak
  · rintro ⟨i, hi, hfence, hmem, hleak⟩
    refine ⟨.inst i, (DefUse.mem_usesOf h).mpr ⟨hv, Or.inl ⟨i, hi, hmem, rfl⟩⟩, ?_⟩
    simp [hfence, hleak]

namespace Defined

variable (hd : f.Defined)
include hd

theorem firstResult?_defined {i : InstId} (hi : i ∈ f.layoutInsts) (hr : f.firstResult? i = some w) :
    f.definition? w = some (.result i) :=
  hd.results_defined i hi w (List.mem_of_mem_head? hr)

theorem passes_defined (hp : f.Passes v w) : ∃ b, f.definition? w = some (.param b) := by
  obtain ⟨-, -, call, -, -, -, hin, hmem⟩ := hp
  exact ⟨call.block, hd.params_defined call.block hin w (List.of_mem_zip hmem).1⟩

theorem lt_of_passes (h : f.WellFormed) (hp : f.Passes v w) : v < f.values.size := by
  obtain ⟨a, i, call, hlast, -, hcall, -, hmem⟩ := hp
  have hi : i ∈ f.layoutInsts := h.mem_layoutInsts.mpr ⟨a, List.mem_of_mem_getLast? hlast⟩
  exact hd.passed_lt i hi call hcall v (List.of_mem_zip hmem).2

/-- What the first result of an instruction depends on: its operands, if it is no call or
dependencies lead through calls. -/
theorem mem_dependenciesOf_firstResult (h : f.WellFormed) (throughCalls : Bool) {i : InstId}
    (hi : i ∈ f.layoutInsts) (hr : f.firstResult? i = some w) :
    v ∈ (DefUse.ofFunction f throughCalls).dependenciesOf w ↔
      v ∈ f.args i ∧ (throughCalls = true ∨ (f.opcode i).isCall = false) := by
  have hdefined := hd.firstResult?_defined hi hr
  rw [DefUse.mem_dependenciesOf h]
  constructor
  · rintro ⟨-, ⟨j, hj, hv, hw, hcall⟩ | hp⟩
    · have hsame := hd.results_defined j hj w hw
      rw [hdefined] at hsame
      obtain rfl : i = j := by simpa using hsame
      exact ⟨hv, hcall⟩
    · obtain ⟨b, hparam⟩ := hd.passes_defined hp
      rw [hdefined] at hparam
      cases hparam
  · rintro ⟨hv, hcall⟩
    exact ⟨lt_of_definition? hdefined,
      Or.inl ⟨i, hi, hv, List.mem_of_mem_head? hr, hcall⟩⟩

theorem mem_unfencedDependents (h : f.WellFormed) (hv : v < f.values.size) :
    w ∈ f.unfencedDependents (.ofFunction f false) v ↔
      (∃ i ∈ f.layoutInsts, f.hasFenceBefore i = false ∧ v ∈ f.args i ∧
        (f.opcode i).isCall = false ∧ f.firstResult? i = some w) ∨ f.Passes v w := by
  unfold unfencedDependents
  rw [List.mem_filterMap]
  constructor
  · rintro ⟨u, hu, hw⟩
    rcases ((DefUse.mem_usesOf h).mp hu).2 with ⟨i, hi, hmem, rfl⟩ | ⟨p, rfl, hp⟩
    · by_cases hfence : f.hasFenceBefore i = true
      · simp [hfence] at hw
      · simp only [hfence, Bool.false_eq_true, if_false] at hw
        obtain ⟨hr, hdep⟩ := Option.filter_eq_some_iff.mp hw
        have hcall := (hd.mem_dependenciesOf_firstResult h false hi hr).mp (by simpa using hdep)
        exact Or.inl ⟨i, hi, by simpa using hfence, hmem, by simpa using hcall.2, hr⟩
    · obtain rfl := Option.some_inj.mp hw
      exact Or.inr hp
  · rintro (⟨i, hi, hfence, hmem, hcall, hr⟩ | hp)
    · refine ⟨.inst i, (DefUse.mem_usesOf h).mpr ⟨hv, Or.inl ⟨i, hi, hmem, rfl⟩⟩, ?_⟩
      have hdep := (hd.mem_dependenciesOf_firstResult h false hi hr).mpr ⟨hmem, Or.inr hcall⟩
      simp [hfence, DefUse.dependent?, hr, hdep]
    · exact ⟨.param w, (DefUse.mem_usesOf h).mpr ⟨hv, Or.inr ⟨w, rfl, hp⟩⟩, rfl⟩

theorem lt_of_dependent (h : f.WellFormed) (hv : v < f.values.size)
    (hw : w ∈ f.unfencedDependents (.ofFunction f false) v) : w < f.values.size := by
  rcases (hd.mem_unfencedDependents h hv).mp hw with ⟨i, hi, -, -, -, hr⟩ | hp
  · exact lt_of_definition? (hd.firstResult?_defined hi hr)
  · obtain ⟨b, hparam⟩ := hd.passes_defined hp
    exact lt_of_definition? hparam

end Defined

theorem leaks_of_reach (h : f.WellFormed) (hd : f.Defined) (hv : v < f.values.size)
    (hreach : ReflTransGen (Search.Step (f.unfencedDependents (.ofFunction f false)) f.values.size)
      v w)
    (hleak : f.leaksAt table (.ofFunction f false) w = true) : f.Leaks table v := by
  induction hreach using ReflTransGen.head_induction_on with
  | refl =>
    obtain ⟨i, hi, hfence, hmem, hleak⟩ := (leaksAt_iff h hv).mp hleak
    exact .transmitted hi hfence hmem hleak
  | head hstep _ ih =>
    have hrest := ih hstep.2
    rcases (hd.mem_unfencedDependents h hv).mp hstep.1 with ⟨i, hi, hfence, hmem, hcall, hr⟩ | hp
    · exact .result hi hfence hmem hcall hr hrest
    · exact .passed hp hrest

theorem reach_of_leaks (h : f.WellFormed) (hd : f.Defined) (hv : v < f.values.size)
    (hleaks : f.Leaks table v) :
    ∃ x, ReflTransGen (Search.Step (f.unfencedDependents (.ofFunction f false)) f.values.size) v x ∧
      f.leaksAt table (.ofFunction f false) x = true := by
  induction hleaks with
  | @transmitted v i hi hfence hmem hleak =>
    exact ⟨v, ReflTransGen.refl, (leaksAt_iff h hv).mpr ⟨i, hi, hfence, hmem, hleak⟩⟩
  | @result v r i hi hfence hmem hcall hr _ ih =>
    have hnext := (hd.mem_unfencedDependents h hv).mpr (Or.inl ⟨i, hi, hfence, hmem, hcall, hr⟩)
    have hlt := hd.lt_of_dependent h hv hnext
    obtain ⟨x, hreach, hleak⟩ := ih hlt
    exact ⟨x, ReflTransGen.head ⟨hnext, hlt⟩ hreach, hleak⟩
  | @passed v p hp _ ih =>
    have hnext := (hd.mem_unfencedDependents h hv).mpr (Or.inr hp)
    have hlt := hd.lt_of_dependent h hv hnext
    obtain ⟨x, hreach, hleak⟩ := ih hlt
    exact ⟨x, ReflTransGen.head ⟨hnext, hlt⟩ hreach, hleak⟩

section Search

variable {d : DefUse} {t : Search.Traversal}

theorem followUses_eq (f : Function) (table : IntrinsicTable) (d : DefUse) (v : ValueId)
    (t : Search.Traversal) :
    (f.followUses table d v (d.usesOf v) t).2 = f.leaksAt table d v ∧
      (f.leaksAt table d v = false →
        (f.followUses table d v (d.usesOf v) t).1 = t.pushAll (f.unfencedDependents d v)) := by
  unfold leaksAt unfencedDependents
  induction d.usesOf v generalizing t with
  | nil => exact ⟨rfl, fun _ => rfl⟩
  | cons u uses ih =>
    cases u with
    | param p => exact ih (t.push p)
    | inst i =>
      rw [followUses, List.any_cons]
      by_cases hfence : f.hasFenceBefore i = true
      · simpa [hfence] using ih t
      · by_cases hleak : f.alwaysTransmits table i v = true
        · simp [hfence, hleak]
        · obtain ⟨hfound, hrest⟩ := ih (t.pushAll (d.dependent? f v (.inst i)).toList)
          simp only [hfence, hleak, if_false, Bool.not_false, Bool.and_false, Bool.false_or,
            Bool.false_eq_true]
          refine ⟨hfound, fun hnone => (hrest hnone).trans ?_⟩
          cases hdep : d.dependent? f v (.inst i) with
          | none => simp [hfence, hdep, Search.Traversal.pushAll]
          | some w => simp [hfence, hdep, Search.Traversal.pushAll]

theorem leaksFrom_iff {size : Nat} {starts : List Nat}
    (h : Search.Traversal.Underway (f.unfencedDependents d) size starts t)
    (hsafe : ∀ x, t.seen.has x = true → x ∉ t.stack → f.leaksAt table d x = false) :
    f.leaksFrom table d t = true ↔
      ∃ x, (∃ s ∈ starts, s < size ∧
        ReflTransGen (Search.Step (f.unfencedDependents d) size) s x) ∧
          f.leaksAt table d x = true := by
  induction t using leaksFrom.induct f table d with
  | case1 seen =>
    rw [leaksFrom]
    refine iff_of_false Bool.false_ne_true ?_
    rintro ⟨x, hreach, hleak⟩
    rw [hsafe x (h.has_iff_of_done.mpr hreach) List.not_mem_nil] at hleak
    cases hleak
  | case2 seen v rest turn hfound =>
    rw [leaksFrom, if_pos hfound]
    have hleak : f.leaksAt table d v = true :=
      (followUses_eq f table d v ⟨seen, rest⟩).1.symm.trans hfound
    exact iff_of_true rfl ⟨v, h.reached v (h.marked v List.mem_cons_self), hleak⟩
  | case3 seen v rest turn hnone ih =>
    obtain ⟨hfound, hpushed⟩ := followUses_eq f table d v ⟨seen, rest⟩
    have hleak : f.leaksAt table d v = false := by
      rw [← hfound]
      exact Bool.eq_false_iff.mpr hnone
    have hturn : turn.1 = Search.Traversal.pushAll ⟨seen, rest⟩ (f.unfencedDependents d v) :=
      hpushed hleak
    rw [leaksFrom, if_neg hnone]
    refine ih (hturn ▸ h.turn) fun x hx hout => ?_
    rw [hturn] at hx hout
    by_cases hxv : x = v
    · exact hxv ▸ hleak
    · have hold : seen.has x = true := Search.Traversal.has_of_not_mem_stack_pushAll hx hout
      refine hsafe x hold fun hmem => ?_
      rcases List.mem_cons.mp hmem with hxv' | hrest
      · exact hxv hxv'
      · exact hout (Search.Traversal.mem_stack_pushAll.mpr (.inl hrest))

end Search

theorem mayLeak_iff (h : f.WellFormed) (hd : f.Defined) (hv : v < f.values.size) :
    f.mayLeak table (.ofFunction f false) v = true ↔ f.Leaks table v := by
  have hstart := Search.Traversal.Underway.start (f.unfencedDependents (.ofFunction f false))
    f.values.size [v]
  unfold mayLeak
  rw [leaksFrom_iff hstart fun x hx hout => absurd (Search.Traversal.mem_stack_start.mpr
    (Search.Traversal.has_start.mp hx)) hout]
  simp only [List.mem_singleton, exists_eq_left]
  constructor
  · rintro ⟨x, ⟨-, hreach⟩, hleak⟩
    exact leaks_of_reach h hd hv hreach hleak
  · intro hleaks
    obtain ⟨x, hreach, hleak⟩ := reach_of_leaks h hd hv hleaks
    exact ⟨x, ⟨hv, hreach⟩, hleak⟩

end Function

end SpecFence
