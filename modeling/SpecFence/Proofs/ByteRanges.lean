import SpecFence.Proofs.AddressValues

/-!
# Ranges of one object

Two accesses to one base are compared by where they start and end, as signed 64-bit numbers with the
ends held at the largest one.  Addresses go around instead.  So the answer that two ranges share no
byte is right unless one of them runs over the largest offset: its end is held there, and the bytes
behind it start over from the smallest offset.
-/

set_option autoImplicit false

namespace SpecFence

def InRange (base : BitVec 64) (start : Int) (size : Nat) (byte : BitVec 64) : Prop :=
  ∃ k < size, byte = base + .ofInt 64 start + .ofNat 64 k

/-- A range runs over the largest offset and on to a place: that offset itself, or one that it comes
to after it has started over from the smallest one. -/
def Overruns (start : Int) (size : Nat) (place : Int) : Prop :=
  0x7FFFFFFFFFFFFFFF < start + size ∧
    (place = 0x7FFFFFFFFFFFFFFF ∨ place + 0x10000000000000000 < start + size)

section Ranges

variable {base : BitVec 64} {s t : Int} {m n : Nat}

theorem ofInt_eq_ofInt_iff {x y : Int} :
    BitVec.ofInt 64 x = BitVec.ofInt 64 y ↔ ∃ c : Int, x - y = 0x10000000000000000 * c := by
  rw [← BitVec.toInt_inj, BitVec.toInt_ofInt, BitVec.toInt_ofInt,
    Int.bmod_eq_bmod_iff_bmod_sub_eq_zero]
  exact Int.dvd_iff_bmod_eq_zero.symm

theorem place_eq_place_iff {k l : Nat} :
    base + .ofInt 64 s + .ofNat 64 k = base + .ofInt 64 t + .ofNat 64 l ↔
      ∃ c : Int, s + k - (t + l) = 0x10000000000000000 * c := by
  rw [← BitVec.ofInt_natCast, ← BitVec.ofInt_natCast, BitVec.add_assoc, BitVec.add_assoc,
    ← BitVec.ofInt_add, ← BitVec.ofInt_add, BitVec.add_right_inj, ofInt_eq_ofInt_iff]

theorem exists_common_iff : (∃ byte, InRange base s m byte ∧ InRange base t n byte) ↔
    ∃ k < m, ∃ l < n, ∃ c : Int, s + k - (t + l) = 0x10000000000000000 * c := by
  constructor
  · rintro ⟨byte, ⟨k, hk, rfl⟩, l, hl, hbyte⟩
    exact ⟨k, hk, l, hl, place_eq_place_iff.mp hbyte⟩
  · rintro ⟨k, hk, l, hl, hturns⟩
    exact ⟨_, ⟨k, hk, rfl⟩, l, hl, place_eq_place_iff.mpr hturns⟩

/-- A start is a signed 64-bit number. -/
def IsOffset (s : Int) : Prop := -0x8000000000000000 ≤ s ∧ s ≤ 0x7FFFFFFFFFFFFFFF

theorem exists_common_iff_overlap (hs : IsOffset s) (ht : IsOffset t) (hm : m ≤ 0x7FFFFFFFFFFFFFFF)
    (hn : n ≤ 0x7FFFFFFFFFFFFFFF) : (∃ byte, InRange base s m byte ∧ InRange base t n byte) ↔
      0 < m ∧ 0 < n ∧ (s < t + n ∧ t < s + m ∨ t + 0x10000000000000000 < s + m ∨
        s + 0x10000000000000000 < t + n) := by
  unfold IsOffset at hs ht
  rw [exists_common_iff]
  constructor
  · rintro ⟨k, hk, l, hl, c, hc⟩
    have hturns : c = -1 ∨ c = 0 ∨ c = 1 := by omega
    obtain rfl | rfl | rfl := hturns <;> omega
  · rintro ⟨hm, hn, ⟨hst, hts⟩ | hturn | hturn⟩
    · rcases Int.le_total s t with hle | hle
      · exact ⟨(t - s).toNat, by omega, 0, hn, 0, by omega⟩
      · exact ⟨0, hm, (s - t).toNat, by omega, 0, by omega⟩
    · exact ⟨(t + 0x10000000000000000 - s).toNat, by omega, 0, hn, 1, by omega⟩
    · exact ⟨0, hm, (s + 0x10000000000000000 - t).toNat, by omega, -1, by omega⟩

end Ranges

namespace AliasOracle

variable {f : Function} {a b : MemoryLocation} {base : Base} {s t : Int} {m n : Nat}

theorem isOffset_wrap (x : Int) : IsOffset (wrap x) := by
  have hlow := Int.le_bmod (x := x) (m := 0x10000000000000000) (by decide)
  have hhigh := Int.bmod_lt (x := x) (m := 0x10000000000000000) (by decide)
  unfold IsOffset wrap
  omega

theorem knownSize?_eq_some_iff {x : Int} :
    knownSize? a = some x ↔ ∃ k : Nat, a.size = some k ∧ k ≤ 0x7FFFFFFFFFFFFFFF ∧ x = k := by
  unfold knownSize?
  rw [Option.bind_eq_some_iff]
  refine exists_congr fun k => and_congr_right fun _ => ?_
  rw [Option.ite_none_right_eq_some, Option.some_inj, eq_comm (a := x)]

theorem ranges_eq_no_iff : ranges s t (some m) (some n) = .no ↔
    ¬ (s = t ∧ m = n) ∧ (addHeld s m ≤ t ∨ addHeld t n ≤ s) := by
  unfold ranges
  grind

theorem exists_common_iff_overruns {x : BitVec 64} (hs : IsOffset s) (ht : IsOffset t)
    (hm : m ≤ 0x7FFFFFFFFFFFFFFF) (hn : n ≤ 0x7FFFFFFFFFFFFFFF)
    (hno : ranges s t (some m) (some n) = .no) :
    (∃ byte, InRange x s m byte ∧ InRange x t n byte) ↔
      0 < m ∧ 0 < n ∧ (Overruns s m t ∨ Overruns t n s) := by
  obtain ⟨-, hheld⟩ := ranges_eq_no_iff.mp hno
  rw [exists_common_iff_overlap hs ht hm hn]
  unfold IsOffset at hs ht
  unfold addHeld at hheld
  unfold Overruns
  refine and_congr_right fun hpos => and_congr_right fun hpos' => ?_
  omega

/-- Ranges that end at the largest offset at the latest are told apart exactly when they share no
byte. -/
theorem ranges_eq_no_iff_apart {x : BitVec 64} (hs : IsOffset s) (ht : IsOffset t) (hm : 0 < m)
    (hn : 0 < n) (hend : s + m ≤ 0x7FFFFFFFFFFFFFFF) (hend' : t + n ≤ 0x7FFFFFFFFFFFFFFF)
    (hsize : m ≤ 0x7FFFFFFFFFFFFFFF) (hsize' : n ≤ 0x7FFFFFFFFFFFFFFF) :
    ranges s t (some m) (some n) = .no ↔
      ¬ ∃ byte, InRange x s m byte ∧ InRange x t n byte := by
  rw [exists_common_iff_overlap hs ht hsize hsize', ranges_eq_no_iff]
  unfold IsOffset at hs ht
  unfold addHeld
  omega

/-- An access of known size lies at a base: so many bytes from a start on, which is an offset of 64
bits. -/
structure Spans (f : Function) (a : MemoryLocation) (base : Base) (start : Int) (size : Nat) :
    Prop where
  resolved : ∃ offset, resolve? f a.address = some (base, offset) ∧ wrap (offset + a.offset) = start
  size : a.size = some size

theorem Spans.isOffset (h : Spans f a base s m) : IsOffset s := by
  obtain ⟨offset, -, rfl⟩ := h.resolved
  exact isOffset_wrap _

theorem Spans.knownSize? (h : Spans f a base s m) (hm : m ≤ 0x7FFFFFFFFFFFFFFF) :
    knownSize? a = some (m : Int) :=
  knownSize?_eq_some_iff.mpr ⟨m, h.size, hm, rfl⟩

theorem inRange_ofAddress_iff {place : Placement} {σ : ValueId → BitVec 64} (hσ : place.Obeys σ f)
    {offset : Int} (h : resolve? f a.address = some (base, offset)) (taken : Nat)
    (byte : BitVec 64) :
    InRange (place.ofAddress σ a.address) a.offset taken byte ↔
      InRange (place.ofBase σ base) (wrap (offset + a.offset)) taken byte := by
  unfold InRange
  rw [← ofBase_add_resolve? hσ h, ofInt_wrap, BitVec.ofInt_add, BitVec.add_assoc]

theorem Spans.covers_iff {place : Placement} {σ : ValueId → BitVec 64} (hσ : place.Obeys σ f)
    (h : Spans f a base s m) (byte : BitVec 64) :
    place.Covers σ a byte ↔ InRange (place.ofBase σ base) s m byte := by
  obtain ⟨offset, hresolve, rfl⟩ := h.resolved
  rw [← inRange_ofAddress_iff hσ hresolve]
  unfold Placement.Covers
  rw [h.size]
  simp [InRange]

theorem basic_of_one_base {offA offB : Int} (ha : resolve? f a.address = some (base, offA))
    (hb : resolve? f b.address = some (base, offB)) :
    basic f a b =
      ranges (wrap (offA + a.offset)) (wrap (offB + b.offset)) (knownSize? a) (knownSize? b) := by
  unfold basic
  rw [ha, hb]
  exact if_pos rfl

theorem Spans.basic_eq (ha : Spans f a base s m) (hb : Spans f b base t n) :
    basic f a b = ranges s t (AliasOracle.knownSize? a) (AliasOracle.knownSize? b) := by
  obtain ⟨offA, hresolveA, rfl⟩ := ha.resolved
  obtain ⟨offB, hresolveB, rfl⟩ := hb.resolved
  exact basic_of_one_base hresolveA hresolveB

theorem sizes_of_ranges_eq_no (h : ranges s t (knownSize? a) (knownSize? b) = .no) :
    ∃ m n : Nat, a.size = some m ∧ b.size = some n ∧ m ≤ 0x7FFFFFFFFFFFFFFF ∧
      n ≤ 0x7FFFFFFFFFFFFFFF ∧ ranges s t (some m) (some n) = .no := by
  cases hknownA : knownSize? a with
  | none =>
    rw [hknownA] at h
    cases h
  | some x =>
    cases hknownB : knownSize? b with
    | none =>
      rw [hknownA, hknownB] at h
      cases h
    | some y =>
      obtain ⟨m, hm, hle, rfl⟩ := knownSize?_eq_some_iff.mp hknownA
      obtain ⟨n, hn, hle', rfl⟩ := knownSize?_eq_some_iff.mp hknownB
      rw [hknownA, hknownB] at h
      exact ⟨m, n, hm, hn, hle, hle', h⟩

/-- Two accesses to one base that are told apart share bytes exactly when neither is empty and one
overruns the other.  Accesses that are not empty and end at the largest offset at the latest are told
apart exactly when they share no byte.  All this is about the bytes that the accesses cover in any
run. -/
theorem no_alias_within_object (f : Function) {a b : MemoryLocation} {base : Base} {s t : Int}
    {m n : Nat} (ha : Spans f a base s m) (hb : Spans f b base t n) :
    (basic f a b = .no → ∀ x : BitVec 64, (∃ byte, InRange x s m byte ∧ InRange x t n byte) ↔
      0 < m ∧ 0 < n ∧ (Overruns s m t ∨ Overruns t n s)) ∧
    (0 < m → 0 < n → m ≤ 0x7FFFFFFFFFFFFFFF → n ≤ 0x7FFFFFFFFFFFFFFF →
      s + m ≤ 0x7FFFFFFFFFFFFFFF → t + n ≤ 0x7FFFFFFFFFFFFFFF → ∀ x : BitVec 64,
        basic f a b = .no ↔ ¬ ∃ byte, InRange x s m byte ∧ InRange x t n byte) ∧
    ∀ (place : Placement) (σ : ValueId → BitVec 64), place.Obeys σ f → ∀ byte,
      (place.Covers σ a byte ↔ InRange (place.ofBase σ base) s m byte) ∧
      (place.Covers σ b byte ↔ InRange (place.ofBase σ base) t n byte) := by
  refine ⟨?_, ?_, ?_⟩
  · intro hno x
    rw [ha.basic_eq hb] at hno
    obtain ⟨m', n', hm, hn, hle, hle', hranges⟩ := sizes_of_ranges_eq_no hno
    cases ha.size.symm.trans hm
    cases hb.size.symm.trans hn
    exact exists_common_iff_overruns ha.isOffset hb.isOffset hle hle' hranges
  · intro hm hn hsize hsize' hend hend' x
    rw [ha.basic_eq hb, ha.knownSize? hsize, hb.knownSize? hsize']
    exact ranges_eq_no_iff_apart ha.isOffset hb.isOffset hm hn hend hend' hsize hsize'
  · intro place σ hσ byte
    exact ⟨ha.covers_iff hσ byte, hb.covers_iff hσ byte⟩

/-- Eight bytes are written at the largest offsets from a pointer, and four are read at the
smallest. -/
def aroundTheEnd : Function := .build ⟨.numbered 0 0, [], [],
  [⟨[⟨.i64, 1⟩], [⟨.iaddImm, [0], .immediate 0x7FFFFFFFFFFFFFFC, some ⟨.i64, 1⟩, [⟨.i64, 1⟩]⟩,
    ⟨.iaddImm, [0], .immediate (-0x8000000000000000), some ⟨.i64, 1⟩, [⟨.i64, 1⟩]⟩,
    ⟨.load, [2], .offset 0, some ⟨.i32, 1⟩, [⟨.i32, 1⟩]⟩,
    ⟨.store, [0, 1], .offset 0, some ⟨.i64, 1⟩, []⟩, ⟨.ret, [], .none, none, []⟩]⟩], none⟩

theorem spans_low : Spans aroundTheEnd ⟨.value 2, 0, some 4⟩ (.value 0) (-0x8000000000000000) 4 :=
  ⟨⟨-0x8000000000000000, by decide +kernel, by decide⟩, rfl⟩

theorem spans_high (n : Nat) :
    Spans aroundTheEnd ⟨.value 1, 0, some n⟩ (.value 0) 0x7FFFFFFFFFFFFFFC n := by
  have hresolve : resolve? aroundTheEnd (.value 1) = some (.value 0, 0x7FFFFFFFFFFFFFFC) := by
    decide +kernel
  have hstart : wrap (0x7FFFFFFFFFFFFFFC + 0) = 0x7FFFFFFFFFFFFFFC := by decide
  exact ⟨⟨_, hresolve, hstart⟩, rfl⟩

/-- Three bytes at the largest offsets end there, and are rightly told apart from the smallest ones. -/
theorem no_alias_upToTheEnd :
    basic aroundTheEnd ⟨.value 1, 0, some 3⟩ ⟨.value 2, 0, some 4⟩ = .no ∧
      ∀ x : BitVec 64, ¬ ∃ byte, InRange x 0x7FFFFFFFFFFFFFFC 3 byte ∧
        InRange x (-0x8000000000000000) 4 byte := by
  obtain ⟨hshared, -, -⟩ := no_alias_within_object aroundTheEnd (spans_high 3) spans_low
  have hno : basic aroundTheEnd ⟨.value 1, 0, some 3⟩ ⟨.value 2, 0, some 4⟩ = .no := by
    decide +kernel
  refine ⟨hno, fun x hcommon => ?_⟩
  obtain ⟨-, -, hover⟩ := (hshared hno x).mp hcommon
  unfold Overruns at hover
  omega

/-- The eight bytes that are written go on to the four that are read, and half of them end at the
byte of the largest offset; all of these accesses are told apart. -/
theorem no_alias_aroundTheEnd :
    (Spans aroundTheEnd ⟨.value 1, 0, some 8⟩ (.value 0) 0x7FFFFFFFFFFFFFFC 8 ∧
      Spans aroundTheEnd ⟨.value 2, 0, some 4⟩ (.value 0) (-0x8000000000000000) 4 ∧
      basic aroundTheEnd ⟨.value 1, 0, some 8⟩ ⟨.value 2, 0, some 4⟩ = .no ∧
      ∀ x : BitVec 64, ∃ byte, InRange x 0x7FFFFFFFFFFFFFFC 8 byte ∧
        InRange x (-0x8000000000000000) 4 byte) ∧
    (Spans aroundTheEnd ⟨.value 1, 0, some 4⟩ (.value 0) 0x7FFFFFFFFFFFFFFC 4 ∧
      Spans aroundTheEnd ⟨.value 0, 0x7FFFFFFFFFFFFFFF, some 1⟩ (.value 0) 0x7FFFFFFFFFFFFFFF 1 ∧
      basic aroundTheEnd ⟨.value 1, 0, some 4⟩ ⟨.value 0, 0x7FFFFFFFFFFFFFFF, some 1⟩ = .no ∧
      ∀ x : BitVec 64, ∃ byte, InRange x 0x7FFFFFFFFFFFFFFC 4 byte ∧
        InRange x 0x7FFFFFFFFFFFFFFF 1 byte) := by
  refine ⟨⟨spans_high 8, spans_low, by decide +kernel, fun x => ?_⟩, spans_high 4,
    ⟨⟨0, by decide +kernel, by decide⟩, rfl⟩, by decide +kernel, fun x => ?_⟩
  · exact exists_common_iff.mpr ⟨4, by decide, 0, by decide, 1, by decide⟩
  · exact exists_common_iff.mpr ⟨3, by decide, 0, by decide, 0, by decide⟩

end AliasOracle

end SpecFence
