import SpecFence.Proofs.ByteRanges

/-!
# Accesses to different objects

A layout gives each stack slot and each symbol a region of memory of its own.  Accesses that stay
inside the regions of different objects are told apart, and they share no byte.  An object is known
by the number of its slot or of its global, so two globals that are declared for one symbol are taken
for different objects, although there is one region for both.
-/

set_option autoImplicit false

namespace SpecFence

inductive MemoryObject where
  | slot (slot : Nat)
  | symbol (name : String)
deriving DecidableEq

structure Region where
  start : BitVec 64
  size : Nat

def Region.Contains (r : Region) (byte : BitVec 64) : Prop := InRange r.start 0 r.size byte

/-- Each object has a region that shares no byte with any other. -/
structure MemoryLayout where
  region : MemoryObject → Region
  disjoint : ∀ o o', o ≠ o' → ∀ byte, (region o).Contains byte → ¬ (region o').Contains byte

def Function.objectOf? (f : Function) : AliasOracle.Base → Option MemoryObject
  | .slot s => some (.slot s)
  | .global g => f.globals[g]?.map .symbol
  | .value _ => none

def MemoryLayout.placement (layout : MemoryLayout) (f : Function) : Placement where
  slot s := (layout.region (.slot s)).start
  global g := ((f.objectOf? (.global g)).map fun o => (layout.region o).start).getD 0

namespace AliasOracle

/-- An access of so many bytes, as many as its size if that is known, stays inside the region of the
object that its address resolves to. -/
structure StaysInside (layout : MemoryLayout) (f : Function) (σ : ValueId → BitVec 64)
    (a : MemoryLocation) (taken : Nat) (base : Base) (o : MemoryObject) : Prop where
  resolved : ∃ offset, resolve? f a.address = some (base, offset)
  object : f.objectOf? base = some o
  sized : ∀ n ∈ a.size, n = taken
  inside : ∀ byte, InRange ((layout.placement f).ofAddress σ a.address) a.offset taken byte →
    (layout.region o).Contains byte

variable {layout : MemoryLayout} {f : Function} {σ : ValueId → BitVec 64} {a b : MemoryLocation}
  {baseA baseB : Base} {oA oB : MemoryObject} {takenA takenB : Nat}

theorem ofBase_placement {base : Base} {o : MemoryObject} (h : f.objectOf? base = some o) :
    (layout.placement f).ofBase σ base = (layout.region o).start := by
  cases base with
  | slot s =>
    cases h
    rfl
  | global g => simp [Placement.ofBase, MemoryLayout.placement, h]
  | value v => cases h

/-- A range inside a region of fewer than `2 ^ 63` bytes starts and ends within the size of the
region. -/
theorem range_within_region {x : BitVec 64} {s : Int} {n size : Nat} (hs : IsOffset s) (hn : 0 < n)
    (hsize : size ≤ 0x7FFFFFFFFFFFFFFF) (h : ∀ byte, InRange x s n byte → InRange x 0 size byte) :
    0 ≤ s ∧ s + n ≤ size := by
  have hplace : ∀ k < n, ∃ j < size, ∃ c : Int, s + k - (0 + j) = 0x10000000000000000 * c := by
    intro k hk
    obtain ⟨j, hj, hbyte⟩ := h _ ⟨k, hk, rfl⟩
    exact ⟨j, hj, place_eq_place_iff.mp hbyte⟩
  unfold IsOffset at hs
  obtain ⟨j, hj, c, hc⟩ := hplace 0 hn
  have hstart : 0 ≤ s ∧ s < size := by omega
  refine ⟨hstart.1, ?_⟩
  by_contra hbeyond
  -- The byte behind the region would be one of its bytes.
  obtain ⟨i, hi, d, hd⟩ := hplace (size - s).toNat (by omega)
  omega

theorem inRange_of_bounds {x byte : BitVec 64} {s : Int} {n size : Nat} (hlow : 0 ≤ s)
    (hhigh : s + n ≤ size) (h : InRange x s n byte) : InRange x 0 size byte := by
  obtain ⟨k, hk, rfl⟩ := h
  exact ⟨(s + k).toNat, by omega, place_eq_place_iff.mpr ⟨0, by omega⟩⟩

theorem staysInside_of_bounds {base : Base} {o : MemoryObject} {offset : Int} {taken : Nat}
    (hσ : (layout.placement f).Obeys σ f) (hresolve : resolve? f a.address = some (base, offset))
    (hobject : f.objectOf? base = some o) (hsized : ∀ n ∈ a.size, n = taken)
    (hlow : 0 ≤ wrap (offset + a.offset))
    (hhigh : wrap (offset + a.offset) + taken ≤ (layout.region o).size) :
    StaysInside layout f σ a taken base o := by
  refine ⟨⟨offset, hresolve⟩, hobject, hsized, fun byte hbyte => ?_⟩
  rw [inRange_ofAddress_iff hσ hresolve, ofBase_placement hobject] at hbyte
  exact inRange_of_bounds hlow hhigh hbyte

theorem basic_of_objects (ha : StaysInside layout f σ a takenA baseA oA)
    (hb : StaysInside layout f σ b takenB baseB oB) (hbase : baseA ≠ baseB) :
    basic f a b = .no := by
  obtain ⟨offA, hresolveA⟩ := ha.resolved
  obtain ⟨offB, hresolveB⟩ := hb.resolved
  have hobjectA := ha.object
  have hobjectB := hb.object
  simp only [basic, hresolveA, hresolveB, if_neg hbase]
  cases baseA with
  | value v => cases hobjectA
  | slot s =>
    cases baseB with
    | value v => cases hobjectB
    | slot s' => rfl
    | global g => rfl
  | global g =>
    cases baseB with
    | value v => cases hobjectB
    | slot s => rfl
    | global g' => rfl

theorem globals_of_object (hA : f.objectOf? baseA = some oA) (hB : f.objectOf? baseB = some oA)
    (hbase : baseA ≠ baseB) : ∃ name g g', baseA = .global g ∧ baseB = .global g' ∧
      f.globals[g]? = some name ∧ f.globals[g']? = some name := by
  cases baseA with
  | value v => cases hA
  | slot s =>
    cases hA
    cases baseB with
    | value v => cases hB
    | slot s' =>
      cases hB
      exact absurd rfl hbase
    | global g =>
      obtain ⟨name, -, hsame⟩ := Option.map_eq_some_iff.mp hB
      cases hsame
  | global g =>
    obtain ⟨name, hname, rfl⟩ := Option.map_eq_some_iff.mp hA
    cases baseB with
    | value v => cases hB
    | slot s => cases hB
    | global g' =>
      obtain ⟨name', hname', hsame⟩ := Option.map_eq_some_iff.mp hB
      cases hsame
      exact ⟨name, g, g', rfl, rfl, hname, hname'⟩

/-- Accesses to one base that are told apart share no byte when they stay inside a region that is not
half of the memory: neither of them comes to the largest offset. -/
theorem apart_of_one_base (hσ : (layout.placement f).Obeys σ f)
    (ha : StaysInside layout f σ a takenA baseA oA) (hb : StaysInside layout f σ b takenB baseA oB)
    (hsize : (layout.region oA).size ≤ 0x7FFFFFFFFFFFFFFF) (hno : basic f a b = .no) :
    ¬ ∃ byte, InRange ((layout.placement f).ofAddress σ a.address) a.offset takenA byte ∧
      InRange ((layout.placement f).ofAddress σ b.address) b.offset takenB byte := by
  obtain ⟨offA, hresolveA⟩ := ha.resolved
  obtain ⟨offB, hresolveB⟩ := hb.resolved
  cases ha.object.symm.trans hb.object
  rw [basic_of_one_base hresolveA hresolveB] at hno
  obtain ⟨m, n, hm, hn, hle, hle', hranges⟩ := sizes_of_ranges_eq_no hno
  cases ha.sized m hm
  cases hb.sized n hn
  simp only [inRange_ofAddress_iff hσ hresolveA, inRange_ofAddress_iff hσ hresolveB]
  rw [exists_common_iff_overruns (isOffset_wrap _) (isOffset_wrap _) hle hle' hranges]
  rintro ⟨hm, hn, hover⟩
  have hinside : ∀ {c : MemoryLocation} {taken : Nat} {off : Int}, 0 < taken →
      StaysInside layout f σ c taken baseA oA → resolve? f c.address = some (baseA, off) →
      0 ≤ wrap (off + c.offset) ∧ wrap (off + c.offset) + taken ≤ (layout.region oA).size := by
    intro c taken off hpos hc hresolve
    refine range_within_region (x := (layout.region oA).start) (isOffset_wrap _) hpos hsize ?_
    intro byte hbyte
    rw [← ofBase_placement hc.object, ← inRange_ofAddress_iff hσ hresolve] at hbyte
    exact hc.inside byte hbyte
  have hA := hinside hm ha hresolveA
  have hB := hinside hn hb hresolveB
  unfold Overruns at hover
  omega

/-- Accesses that stay inside the regions of different objects are told apart, and they share no
byte.  Accesses to one base that are told apart share none either, if the region is not half of the
memory or more.  What is left is an object with two bases: these are globals that are declared for
one symbol, and all accesses to the one are told apart from all accesses to the other. -/
theorem no_alias_between_objects (f : Function) (layout : MemoryLayout) (σ : ValueId → BitVec 64)
    (hσ : (layout.placement f).Obeys σ f) {a b : MemoryLocation} {takenA takenB : Nat}
    {baseA baseB : Base} {oA oB : MemoryObject} (ha : StaysInside layout f σ a takenA baseA oA)
    (hb : StaysInside layout f σ b takenB baseB oB) :
    (oA ≠ oB → basic f a b = .no ∧
      ¬ ∃ byte, InRange ((layout.placement f).ofAddress σ a.address) a.offset takenA byte ∧
        InRange ((layout.placement f).ofAddress σ b.address) b.offset takenB byte) ∧
    (baseA = baseB → (layout.region oA).size ≤ 0x7FFFFFFFFFFFFFFF → basic f a b = .no →
      ¬ ∃ byte, InRange ((layout.placement f).ofAddress σ a.address) a.offset takenA byte ∧
        InRange ((layout.placement f).ofAddress σ b.address) b.offset takenB byte) ∧
    (oA = oB → baseA ≠ baseB → basic f a b = .no ∧ ∃ name g g', baseA = .global g ∧
      baseB = .global g' ∧ f.globals[g]? = some name ∧ f.globals[g']? = some name) := by
  refine ⟨?_, ?_, ?_⟩
  · intro hobjects
    have hbase : baseA ≠ baseB := by
      rintro rfl
      exact hobjects (Option.some_inj.mp (ha.object.symm.trans hb.object))
    refine ⟨basic_of_objects ha hb hbase, ?_⟩
    rintro ⟨byte, hA, hB⟩
    exact layout.disjoint oA oB hobjects byte (ha.inside byte hA) (hb.inside byte hB)
  · rintro rfl hsize hno
    exact apart_of_one_base hσ ha hb hsize hno
  · rintro rfl hbase
    exact ⟨basic_of_objects ha hb hbase, globals_of_object ha.object hb.object hbase⟩

def symbolDeclaredTwice : Function := .build ⟨.numbered 0 0, [16], ["a", "a"],
  [⟨[], [⟨.symbolValue, [], .globalName 0, some ⟨.i64, 1⟩, [⟨.i64, 1⟩]⟩,
    ⟨.symbolValue, [], .globalName 1, some ⟨.i64, 1⟩, [⟨.i64, 1⟩]⟩,
    ⟨.stackAddr, [], .slot 0 8, some ⟨.i64, 1⟩, [⟨.i64, 1⟩]⟩,
    ⟨.load, [1], .offset 0, some ⟨.i64, 1⟩, [⟨.i64, 1⟩]⟩,
    ⟨.store, [2, 0], .offset 0, some ⟨.i64, 1⟩, []⟩, ⟨.ret, [], .none, none, []⟩]⟩], none⟩

def aroundZero : MemoryLayout where
  region o := if o = .slot 0 then ⟨-8, 16⟩ else if o = .symbol "a" then ⟨8, 16⟩ else ⟨0, 0⟩
  disjoint := by
    have hempty : ∀ byte, ¬ (⟨0, 0⟩ : Region).Contains byte := by
      rintro byte ⟨k, hk, -⟩
      exact absurd hk (Nat.not_lt_zero k)
    have hapart : ∀ byte, (⟨-8, 16⟩ : Region).Contains byte → ¬ (⟨8, 16⟩ : Region).Contains byte := by
      rintro byte ⟨k, hk, rfl⟩ ⟨l, hl, hbyte⟩
      simp only at hk hl hbyte
      bv_omega
    intro o o' hne byte h h'
    by_cases hslot : o = .slot 0
    · subst hslot
      rw [if_pos rfl] at h
      rw [if_neg hne.symm] at h'
      split at h'
      · exact hapart byte h h'
      · exact hempty byte h'
    · rw [if_neg hslot] at h
      split at h
      · rename_i hsymbol
        subst hsymbol
        by_cases hslot' : o' = .slot 0
        · rw [if_pos hslot'] at h'
          exact hapart byte h' h
        · rw [if_neg hslot', if_neg hne.symm] at h'
          exact hempty byte h'
      · exact hempty byte h

theorem region_slot : aroundZero.region (.slot 0) = ⟨-8, 16⟩ := by simp [aroundZero]

theorem region_symbol : aroundZero.region (.symbol "a") = ⟨8, 16⟩ := by simp [aroundZero]

def aroundZeroRun (v : ValueId) : BitVec 64 := ([8, 8, 0, 5].getD v 0)

theorem obeys_aroundZeroRun :
    (aroundZero.placement symbolDeclaredTwice).Obeys aroundZeroRun symbolDeclaredTwice := by
  decide +kernel

theorem staysInside_slot : StaysInside aroundZero symbolDeclaredTwice aroundZeroRun
    ⟨.value 2, 0, some 8⟩ 8 (.slot 0) (.slot 0) := by
  have hresolve : resolve? symbolDeclaredTwice (.value 2) = some (.slot 0, 8) := by
    decide +kernel
  have hstart : wrap 8 = 8 := by decide
  refine staysInside_of_bounds obeys_aroundZeroRun hresolve rfl (by simp) ?_ ?_
  · simp [hstart]
  · simp [hstart, region_slot]

theorem staysInside_half (offset : Int) {v g : Nat}
    (hresolve : resolve? symbolDeclaredTwice (.value v) = some (.global g, 0))
    (hobject : symbolDeclaredTwice.objectOf? (.global g) = some (.symbol "a"))
    (hoffset : offset = 0 ∨ offset = 8) :
    StaysInside aroundZero symbolDeclaredTwice aroundZeroRun ⟨.value v, offset, some 8⟩ 8
      (.global g) (.symbol "a") := by
  have hstart : wrap offset = offset := by
    obtain rfl | rfl := hoffset <;> decide
  refine staysInside_of_bounds obeys_aroundZeroRun hresolve hobject (by simp) ?_ ?_
  · rw [Int.zero_add, hstart]
    omega
  · rw [Int.zero_add, hstart, region_symbol]
    obtain rfl | rfl := hoffset <;> decide

theorem resolve_first : resolve? symbolDeclaredTwice (.value 0) = some (.global 0, 0) := by
  decide +kernel

theorem resolve_second : resolve? symbolDeclaredTwice (.value 1) = some (.global 1, 0) := by
  decide +kernel

/-- The slot and the symbol share no byte, nor do the halves of the symbol. -/
theorem no_alias_aroundZero :
    (¬ ∃ byte, InRange 0 0 8 byte ∧ InRange 8 0 8 byte) ∧
      basic symbolDeclaredTwice ⟨.value 0, 0, some 8⟩ ⟨.value 0, 8, some 8⟩ = .no ∧
      ¬ ∃ byte, InRange 8 0 8 byte ∧ InRange 8 8 8 byte := by
  have hfirst := staysInside_half 0 resolve_first rfl (.inl rfl)
  have hbehind := staysInside_half 8 resolve_first rfl (.inr rfl)
  obtain ⟨hobjects, -, -⟩ := no_alias_between_objects symbolDeclaredTwice aroundZero aroundZeroRun
    obeys_aroundZeroRun staysInside_slot hfirst
  obtain ⟨-, hhalves, -⟩ := no_alias_between_objects symbolDeclaredTwice aroundZero aroundZeroRun
    obeys_aroundZeroRun hfirst hbehind
  have hno : basic symbolDeclaredTwice ⟨.value 0, 0, some 8⟩ ⟨.value 0, 8, some 8⟩ = .no := by
    decide +kernel
  exact ⟨(hobjects (by decide)).2, hno, hhalves rfl (by simp [region_symbol]) hno⟩

/-- Accesses to one half of the symbol through the two globals are told apart, and both touch its
first byte. -/
theorem no_alias_symbolDeclaredTwice :
    (aroundZero.placement symbolDeclaredTwice).Obeys aroundZeroRun symbolDeclaredTwice ∧
      StaysInside aroundZero symbolDeclaredTwice aroundZeroRun ⟨.value 0, 0, some 8⟩ 8 (.global 0)
        (.symbol "a") ∧
      StaysInside aroundZero symbolDeclaredTwice aroundZeroRun ⟨.value 1, 0, some 8⟩ 8 (.global 1)
        (.symbol "a") ∧
      basic symbolDeclaredTwice ⟨.value 0, 0, some 8⟩ ⟨.value 1, 0, some 8⟩ = .no ∧
      (aroundZero.placement symbolDeclaredTwice).Covers aroundZeroRun ⟨.value 0, 0, some 8⟩ 8 ∧
      (aroundZero.placement symbolDeclaredTwice).Covers aroundZeroRun ⟨.value 1, 0, some 8⟩ 8 :=
  ⟨obeys_aroundZeroRun, staysInside_half 0 resolve_first rfl (.inl rfl),
    staysInside_half 0 resolve_second rfl (.inl rfl), by decide +kernel,
    ⟨8, rfl, 0, by decide, by decide +kernel⟩, 8, rfl, 0, by decide, by decide +kernel⟩

end AliasOracle

end SpecFence
