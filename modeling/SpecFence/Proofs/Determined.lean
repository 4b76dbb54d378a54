import SpecFence.Proofs.Built
import SpecFence.Proofs.Publicity

/-!
# Public values are determined by what is shown

Two runs that show the same values have the same public values.  A run is described by what it
assigns to the values of the function; what the operators compute is left open, except that those
which count as invertible are.  Agreement of two runs is a closed set, and the public values are in
every closed set.
-/

set_option autoImplicit false

namespace SpecFence

variable {α : Type}

/-- What the instructions of a function compute from their operands.  An operator that counts as
invertible can be undone on operands of its types, and one that counts as invertible given an
operand can be undone for the other one. -/
structure OperatorSemantics (f : Function) (α : Type) where
  fits : Ty → α → Prop
  apply : InstId → List α → α
  inverted : ∀ i ∈ f.layoutInsts, (f.opcode i).inversePolicy = .invertible → ∀ xs ys,
    List.Forall₂ fits ((f.args i).map f.typeOf) xs →
    List.Forall₂ fits ((f.args i).map f.typeOf) ys → apply i xs = apply i ys → xs = ys
  invertedLeft : ∀ i ∈ f.layoutInsts, (f.opcode i).inversePolicy = .invertibleGivenOther →
    ∀ x x' y, List.Forall₂ fits ((f.args i).map f.typeOf) [x, y] →
    List.Forall₂ fits ((f.args i).map f.typeOf) [x', y] → apply i [x, y] = apply i [x', y] → x = x'
  invertedRight : ∀ i ∈ f.layoutInsts, (f.opcode i).inversePolicy = .invertibleGivenOther →
    ∀ x y y', List.Forall₂ fits ((f.args i).map f.typeOf) [x, y] →
    List.Forall₂ fits ((f.args i).map f.typeOf) [x, y'] → apply i [x, y] = apply i [x, y'] → y = y'

/-- What a run may assign to the values: operands have their types, operators compute their first
results, and a load gives what a store of the same bytes has put there. -/
structure OperatorSemantics.Models {f : Function} (m : OperatorSemantics f α)
    (table : IntrinsicTable) (oracle : AliasOracle) (σ : ValueId → α) : Prop where
  fits : ∀ i ∈ f.layoutInsts, List.Forall₂ m.fits ((f.args i).map f.typeOf) ((f.args i).map σ)
  operated : ∀ i ∈ f.layoutInsts, ∀ rule r, TaintRule.of f table i = .ok rule →
    rule.isOperator = true → f.firstResult? i = some r → σ r = m.apply i ((f.args i).map σ)
  reloaded : ∀ loaded stored, (TaintInput.ofFunction f table oracle).Reloads loaded stored →
    σ loaded = σ stored

/-- Two runs enter every block by the same destination: a parameter has the value of one argument
that is passed to it, the same argument in both. -/
def Function.EnteredAlike (f : Function) (σ τ : ValueId → α) : Prop :=
  ∀ p ∈ f.layoutParams, (∃ v, f.Passes v p) → ∃ v, f.Passes v p ∧ σ p = σ v ∧ τ p = τ v

namespace OperatorSemantics

variable {f : Function} {m : OperatorSemantics f α} {table : IntrinsicTable} {oracle : AliasOracle}
  {σ τ : ValueId → α}

theorem Models.apply_eq (hσ : m.Models table oracle σ) {i : InstId} (hi : i ∈ f.layoutInsts)
    {policy : InversePolicy} (hpolicy : (f.opcode i).inversePolicy = policy)
    (hne : policy ≠ .notInvertible) {r : ValueId} (hr : f.firstResult? i = some r) :
    σ r = m.apply i ((f.args i).map σ) :=
  hσ.operated i hi _ r (TaintRule.of_inversePolicy hpolicy hne) rfl hr

theorem closed_agree (hσ : m.Models table oracle σ) (hτ : m.Models table oracle τ)
    (henter : f.EnteredAlike σ τ) (hshown : ∀ v, f.Shows table v → σ v = τ v) :
    (TaintInput.ofFunction f table oracle).Closed fun v => σ v = τ v where
  shown := hshown
  param p hp hfed hpassed := by
    obtain ⟨v, hv, hσv, hτv⟩ := henter p hp hfed
    rw [hσv, hτv]
    exact hpassed v hv
  operated i hi rule r hrule hoperator hr _ hargs := by
    have hoperands : (f.args i).map σ = (f.args i).map τ := List.map_congr_left hargs
    rw [hσ.operated i hi rule r hrule hoperator hr, hτ.operated i hi rule r hrule hoperator hr,
      hoperands]
  inverted i hi r hpolicy hr hagree := by
    rw [hσ.apply_eq hi hpolicy (by decide) hr, hτ.apply_eq hi hpolicy (by decide) hr] at hagree
    exact List.map_inj_left.mp (m.inverted i hi hpolicy _ _ (hσ.fits i hi) (hτ.fits i hi) hagree)
  invertedGiven i hi r x y hpolicy hr hargs hagree := by
    have hσargs : (f.args i).map σ = [σ x, σ y] := congrArg (List.map σ) hargs
    have hτargs : (f.args i).map τ = [τ x, τ y] := congrArg (List.map τ) hargs
    have hσfits := hσargs ▸ hσ.fits i hi
    have hτfits := hτargs ▸ hτ.fits i hi
    rw [hσ.apply_eq hi hpolicy (by decide) hr, hτ.apply_eq hi hpolicy (by decide) hr, hσargs,
      hτargs] at hagree
    constructor
    · intro hx
      rw [hx] at hσfits hagree
      exact m.invertedRight i hi hpolicy _ _ _ hσfits hτfits hagree
    · intro hy
      rw [hy] at hσfits hagree
      exact m.invertedLeft i hi hpolicy _ _ _ hσfits hτfits hagree
  reloaded loaded stored hreloads := by
    rw [hσ.reloaded loaded stored hreloads, hτ.reloaded loaded stored hreloads]

end OperatorSemantics

namespace PublicValues

/-- Two runs of a function under one semantics that enter every block alike and agree on all shown
values agree on all public values. -/
theorem agree_of_compute (f : Function) (h : f.WellFormed) (hd : f.Defined)
    (table : IntrinsicTable) (oracle : AliasOracle) (found : PublicValues)
    (hok : compute (.ofFunction f table oracle) = .ok found) (m : OperatorSemantics f α)
    (σ τ : ValueId → α) (hσ : m.Models table oracle σ) (hτ : m.Models table oracle τ)
    (henter : f.EnteredAlike σ τ) (hshown : ∀ v, f.Shows table v → σ v = τ v) :
    ∀ v ∈ found.values, σ v = τ v :=
  (least_of_compute h hd hok).2 _ (OperatorSemantics.closed_agree hσ hτ henter hshown)

def negation : OperatorSemantics spilledParam (BitVec 64) where
  fits _ _ := True
  apply _ xs := xs.foldl (fun _ x => ~~~x) 0
  inverted i hi hpolicy xs ys hxs hys heq := by
    have hunary : ∀ i ∈ spilledParam.layoutInsts,
        (spilledParam.opcode i).inversePolicy = .invertible → (spilledParam.args i).length = 1 := by
      decide +kernel
    have hone := hunary i hi hpolicy
    have hxs : xs.length = 1 := by simpa [hone] using hxs.length_eq.symm
    have hys : ys.length = 1 := by simpa [hone] using hys.length_eq.symm
    obtain ⟨x, rfl⟩ := List.length_eq_one_iff.mp hxs
    obtain ⟨y, rfl⟩ := List.length_eq_one_iff.mp hys
    simpa using heq
  invertedLeft i hi hpolicy := absurd hpolicy ((by decide +kernel : ∀ i ∈ spilledParam.layoutInsts,
    (spilledParam.opcode i).inversePolicy ≠ .invertibleGivenOther) i hi)
  invertedRight i hi hpolicy := absurd hpolicy ((by decide +kernel : ∀ i ∈ spilledParam.layoutInsts,
    (spilledParam.opcode i).inversePolicy ≠ .invertibleGivenOther) i hi)

def spilledRun (last : BitVec 64) (v : ValueId) : BitVec 64 :=
  if v = 0 then 7 else if v = 1 then 64 else if v = 4 then last else ~~~7

theorem models_spilledRun (last : BitVec 64) :
    negation.Models .empty .conservative (spilledRun last) where
  fits i hi := by
    rw [List.forall₂_map_left_iff, List.forall₂_map_right_iff, List.forall₂_same]
    exact fun _ _ => trivial
  operated i hi rule r hrule hoperator hr := by
    have hnegated : ∀ i ∈ spilledParam.layoutInsts, ∀ r ∈ spilledParam.firstResult? i,
        (TaintRule.of spilledParam .empty i).toOption.any TaintRule.isOperator →
        r = 2 ∧ spilledParam.args i = [0] := by
      decide +kernel
    obtain ⟨rfl, hargs⟩ := hnegated i hi r hr (by simpa [hrule, Except.toOption] using hoperator)
    rw [hargs]
    rfl
  reloaded loaded stored hreloads := by
    obtain ⟨i, w, address, hi, hw, -, hloaded, hstored, hmust⟩ := hreloads
    have hsame : ∀ i ∈ spilledParam.layoutInsts, ∀ w ∈ spilledParam.layoutInsts,
        AliasOracle.conservative.loadStore spilledParam .empty i w = .must →
        spilledParam.firstResult? i = some 3 ∧
          spilledParam.storeOperands? w = some (2, some 1) := by
      decide +kernel
    obtain ⟨h3, h2⟩ := hsame i hi w hw hmust
    cases hloaded.symm.trans h3
    cases hstored.symm.trans h2
    rfl

theorem ne_of_shows_spilledParam {v : ValueId} (h : spilledParam.Shows .empty v) : v ≠ 4 := by
  cases h with
  | transmitted hi hoperands hv =>
    have hnot : ∀ i ∈ spilledParam.layoutInsts,
        ∀ x ∈ (spilledParam.transmitters .empty i).toOption.getD [], x.1 ≠ 4 := by decide +kernel
    exact hnot _ hi (v, .always) (by rwa [hoperands])
  | constant hi hrule hr =>
    have hnot : ∀ i ∈ spilledParam.layoutInsts,
        TaintRule.of spilledParam .empty i = .ok (.policy .constant) →
        ∀ r ∈ spilledParam.results i, r ≠ 4 := by decide +kernel
    exact hnot _ hi hrule v hr
  | returned hi hrule _ | handedOver hi hrule _ =>
    exact absurd hrule ((by decide +kernel : ∀ i ∈ spilledParam.layoutInsts,
      TaintRule.of spilledParam .empty i ≠ .ok (.policy .call)) _ hi)

/-- Whatever the last load gives, the parameter is the same. -/
theorem agree_spilledParam : ∃ found,
    compute (.ofFunction spilledParam .empty .conservative) = .ok found ∧
      (0 : ValueId) ∈ found.values ∧
      negation.Models .empty .conservative (spilledRun 5) ∧
      negation.Models .empty .conservative (spilledRun 6) ∧
      spilledRun 5 4 ≠ spilledRun 6 4 ∧ ∀ v ∈ found.values, spilledRun 5 v = spilledRun 6 v := by
  have hwf : spilledParam.WellFormed := Function.build_wellFormed (by decide)
  have hdef : spilledParam.Defined := Function.build_defined (by decide)
  have hok : compute (.ofFunction spilledParam .empty .conservative) =
      .ok ⟨.ofList [0, 1, 2, 3]⟩ := by decide +kernel
  have henter : spilledParam.EnteredAlike (spilledRun 5) (spilledRun 6) := by
    rintro p hp ⟨v, hv⟩
    have hunfed : ∀ p ∈ spilledParam.layoutParams,
        (DefUse.ofFunction spilledParam false).dependenciesOf p = [] := by decide +kernel
    have hmem := (Function.mem_dependenciesOf_param hwf hdef hp).mpr hv
    rw [hunfed p hp] at hmem
    cases hmem
  have hshown : ∀ v, spilledParam.Shows .empty v → spilledRun 5 v = spilledRun 6 v := by
    intro v hv
    simp [spilledRun, ne_of_shows_spilledParam hv]
  refine ⟨_, hok, by decide +kernel, models_spilledRun 5, models_spilledRun 6, by decide, ?_⟩
  exact agree_of_compute spilledParam hwf hdef .empty .conservative _ hok negation _ _
    (models_spilledRun 5) (models_spilledRun 6) henter hshown

end PublicValues

end SpecFence
