import SpecFence.Proofs.SettingCalls
import Mathlib.Data.List.Basic

/-!
# Listings read back

A listing has a line for each setting, and the line is a call that gives the setting the value it
has.  For the numbers this needs that the digits of a number are read as the number again.
-/

set_option autoImplicit false

namespace SpecFence

namespace SettingValue

theorem digits?_eq {cs : List Char} (hne : cs ≠ []) (h : ∀ c ∈ cs, c.isDigit) :
    digits? cs = some (Nat.ofDigitChars 10 cs 0) := by
  have hfold : ∀ (cs : List Char) (n : Nat), (∀ c ∈ cs, c.isDigit) →
      cs.foldl (fun n? c => n?.bind fun n =>
        if c.isDigit then some (n * 10 + (c.toNat - '0'.toNat)) else none) (some n) =
      some (Nat.ofDigitChars 10 cs n) := by
    intro cs
    induction cs with
    | nil => intro n _; rfl
    | cons c rest ih =>
      intro n h
      rw [List.foldl_cons, Option.bind_some, if_pos (h c List.mem_cons_self),
        ih _ fun d hd => h d (List.mem_cons_of_mem c hd), Nat.ofDigitChars_cons, Nat.mul_comm]
  cases cs with
  | nil => exact absurd rfl hne
  | cons c rest => exact hfold (c :: rest) 0 h

theorem isDigit_toString {n : Nat} {c : Char} (h : c ∈ (toString n).toList) : c.isDigit := by
  rw [Nat.toString_eq_ofList_toDigits, String.toList_ofList] at h
  exact Nat.isDigit_of_mem_toDigits (by decide) (by decide) h

theorem number_toString {n : Nat} (h : n ≤ Weight.limit) : number (toString n) = .ok n := by
  have hne : (toString n).toList ≠ [] := by
    rw [Nat.toString_eq_ofList_toDigits, String.toList_ofList]
    exact Nat.toDigits_ne_nil
  have hdigits : digits? (toString n).toList = some n := by
    rw [digits?_eq hne fun c => isDigit_toString, Nat.toString_eq_ofList_toDigits,
      String.toList_ofList, Nat.ofDigitChars_ten_toDigits]
  have hsign : ∀ rest, (toString n).toList ≠ '+' :: rest := by
    intro rest hrest
    have hplus : '+' ∈ (toString n).toList := hrest ▸ List.mem_cons_self
    exact absurd (isDigit_toString hplus) (by decide)
  unfold number
  split
  · rename_i hread
    exact absurd hread (hsign _)
  · simp only [hdigits, if_pos h]

theorem le_limit_of_number {text : String} {n : Nat} (h : number text = .ok n) :
    n ≤ Weight.limit := by
  unfold number at h
  simp only at h
  split at h
  · split at h
    · rename_i hle
      cases h
      exact hle
    · cases h
  · cases h

theorem bool_toString (b : Bool) : bool (toString b) = .ok b := by cases b <;> decide

theorem oneOf_name {α : Type} {all : List α} {name : α → String} {a : α} (ha : a ∈ all)
    (hinj : ∀ b ∈ all, name b = name a → b = a) : oneOf all name (name a) = .ok a := by
  unfold oneOf
  cases hfind : all.find? fun b => name b == name a with
  | none => exact absurd (List.find?_eq_none.mp hfind a ha) (by simp)
  | some b =>
    have hname := List.find?_some hfind
    exact congrArg Except.ok (hinj b (List.mem_of_find?_eq_some hfind) (beq_iff_eq.mp hname))

end SettingValue

theorem Mitigation.mem_all (m : Mitigation) : m ∈ all := by cases m <;> decide

theorem Mitigation.name_injective {m m' : Mitigation} (h : m.name = m'.name) : m = m' := by
  revert h
  cases m <;> cases m' <;> decide

theorem CutStrategy.mem_all (c : CutStrategy) : c ∈ all := by cases c <;> decide

theorem CutStrategy.name_injective {c c' : CutStrategy} (h : c.name = c'.name) : c = c' := by
  revert h
  cases c <;> cases c' <;> decide

namespace Setting

def Fits : (k : Setting) → k.Value → Prop
  | baseWeight | passLimit | searchBudget | solverTimeout => fun n : Nat => n ≤ Weight.limit
  | mitigation | cutStrategy | pseudoTransmitters | branchWaypoints | prunePublic => fun _ => True

theorem fits_of_given {k : Setting} {c : SettingCall} {v : k.Value} (h : c.given k = .ok v) :
    k.Fits v := by
  cases c with
  | set name text =>
    cases k with
    | baseWeight | passLimit | searchBudget | solverTimeout =>
      exact SettingValue.le_limit_of_number h
    | mitigation | cutStrategy | pseudoTransmitters | branchWaypoints | prunePublic => trivial
  | enable name =>
    cases k with
    | baseWeight | passLimit | searchBudget | solverTimeout => cases h
    | mitigation | cutStrategy | pseudoTransmitters | branchWaypoints | prunePublic => trivial

end Setting

namespace SettingCall

/-- The call that a line of a listing stands for: the name is what stands before the first blank,
and the text is what stands after the equals sign, without quotes. -/
def ofLine? (line : List Char) : Option SettingCall :=
  match line.dropWhile (· ≠ ' ') with
  | ' ' :: '=' :: ' ' :: text =>
    some (.set (String.ofList (line.takeWhile (· ≠ ' '))) (String.ofList (text.filter (· ≠ '"'))))
  | _ => none

/-- The calls that a listing stands for, line by line; a line of another form stands for none. -/
def ofListing (listing : String) : List SettingCall :=
  (listing.toList.splitOn '\n').filterMap ofLine?

end SettingCall

namespace Settings

def InRange (s : Settings) : Prop := ∀ k : Setting, k.Fits (s.get k)

def plainText (s : Settings) (k : Setting) : String :=
  String.ofList ((s.valueText k).toList.filter (· ≠ '"'))

variable {s t : Settings} {c : SettingCall} {k : Setting}

theorem inRange_default : default.InRange := by
  intro k
  cases k with
  | baseWeight | passLimit | searchBudget | solverTimeout =>
    exact Nat.le_of_ble_eq_true rfl
  | mitigation | cutStrategy | pseudoTransmitters | branchWaypoints | prunePublic => trivial

theorem InRange.after (h : s.InRange) (c : SettingCall) : (s.after c).InRange := by
  intro k
  rw [get_after]
  cases hv : c.value? k with
  | none => exact h k
  | some v => exact Setting.fits_of_given (SettingCall.value?_eq_some_iff.mp hv).2

theorem InRange.afterAll (h : s.InRange) (calls : List SettingCall) :
    (s.afterAll calls).InRange := by
  induction calls generalizing s with
  | nil => exact h
  | cons c rest ih => exact ih (h.after c)

theorem ofList_filter_quote {text : String} (h : '"' ∉ text.toList) :
    String.ofList (text.toList.filter (· ≠ '"')) = text := by
  have hkeep : text.toList.filter (· ≠ '"') = text.toList := by
    rw [List.filter_eq_self]
    intro c hc
    exact decide_eq_true fun hquote => h (hquote ▸ hc)
  rw [hkeep, String.ofList_toList]

theorem ofList_filter_quoted {text : String} (h : '"' ∉ text.toList) :
    String.ofList (("\"" ++ text ++ "\"").toList.filter (· ≠ '"')) = text := by
  have hquoted : ("\"" ++ text ++ "\"").toList.filter (· ≠ '"') = text.toList.filter (· ≠ '"') := by
    simp
  rw [hquoted, ofList_filter_quote h]

theorem read_plainText (h : s.InRange) (k : Setting) : k.read (s.plainText k) = .ok (s.get k) := by
  have hnumber : ∀ n : Nat, '"' ∉ (toString n).toList := fun n hquote =>
    absurd (SettingValue.isDigit_toString hquote) (by decide)
  have hbool : ∀ b : Bool, '"' ∉ (toString b).toList := by decide
  have hfits := h k
  unfold plainText
  cases k with
  | mitigation =>
    have hplain : '"' ∉ s.mitigation.name.toList := by cases s.mitigation <;> decide
    simp only [valueText, ofList_filter_quoted hplain]
    exact SettingValue.oneOf_name s.mitigation.mem_all fun m _ => Mitigation.name_injective
  | cutStrategy =>
    have hplain : '"' ∉ s.cutStrategy.name.toList := by cases s.cutStrategy <;> decide
    simp only [valueText, ofList_filter_quoted hplain]
    exact SettingValue.oneOf_name s.cutStrategy.mem_all fun m _ => CutStrategy.name_injective
  | pseudoTransmitters | branchWaypoints | prunePublic =>
    simp only [valueText, ofList_filter_quote (hbool _)]
    exact SettingValue.bool_toString _
  | baseWeight | passLimit | searchBudget | solverTimeout =>
    simp only [valueText, ofList_filter_quote (hnumber _)]
    exact SettingValue.number_toString hfits

theorem newline_not_mem_line (s : Settings) (k : Setting) : '\n' ∉ (s.line k).toList := by
  have hnumber : ∀ n : Nat, '\n' ∉ (toString n).toList := fun n hnewline =>
    absurd (SettingValue.isDigit_toString hnewline) (by decide)
  have hbool : ∀ b : Bool, '\n' ∉ (toString b).toList := by decide
  have hname : '\n' ∉ k.name.toList := by cases k <;> decide
  have hvalue : '\n' ∉ (s.valueText k).toList := by
    cases k with
    | mitigation =>
      simp only [valueText]
      cases s.mitigation <;> decide
    | cutStrategy =>
      simp only [valueText]
      cases s.cutStrategy <;> decide
    | pseudoTransmitters | branchWaypoints | prunePublic => exact hbool _
    | baseWeight | passLimit | searchBudget | solverTimeout => exact hnumber _
  simp [line, hname, hvalue]

theorem ofLine?_line (s : Settings) (k : Setting) :
    SettingCall.ofLine? (s.line k).toList = some (.set k.name (s.plainText k)) := by
  have hblank : ' ' ∉ k.name.toList := by cases k <;> decide
  have hname : ∀ c ∈ k.name.toList, decide (c ≠ ' ') = true := fun c hc =>
    decide_eq_true fun heq => hblank (heq ▸ hc)
  have hline : (s.line k).toList =
      k.name.toList ++ ' ' :: '=' :: ' ' :: (s.valueText k).toList := by
    simp [line]
  unfold SettingCall.ofLine?
  rw [hline, List.dropWhile_append_of_pos hname, List.takeWhile_append_of_pos hname]
  simp [plainText]

theorem ofListing_display (s : Settings) :
    SettingCall.ofListing s.display =
      Setting.all.map fun k => .set k.name (s.plainText k) := by
  have hlines : ∀ ks : List Setting,
      (((String.join (ks.map fun k => s.line k ++ "\n")).toList.splitOn '\n').filterMap
        SettingCall.ofLine?) = ks.map fun k => .set k.name (s.plainText k) := by
    intro ks
    induction ks with
    | nil => rfl
    | cons k rest ih =>
      have hfirst : (String.join ((k :: rest).map fun k => s.line k ++ "\n")).toList =
          (s.line k).toList ++
            '\n' :: (String.join (rest.map fun k => s.line k ++ "\n")).toList := by
        simp
      rw [hfirst, List.splitOn_append_cons_self_of_not_mem (s.newline_not_mem_line k),
        List.filterMap_cons, s.ofLine?_line, ih, List.map_cons]
  have hheading : s.display.toList = "[blade]".toList ++
      '\n' :: (String.join (Setting.all.map fun k => s.line k ++ "\n")).toList := by
    rw [display_eq]
    simp
  unfold SettingCall.ofListing
  rw [hheading, List.splitOn_append_cons_self_of_not_mem (by decide), List.filterMap_cons]
  exact hlines Setting.all

theorem call_plainText (h : s.InRange) (t : Settings) (k : Setting) :
    t.call (.set k.name (s.plainText k)) = .ok (t.put k (s.get k)) := by
  have hread : (SettingCall.set k.name (s.plainText k)).given k = .ok (s.get k) :=
    s.read_plainText h k
  rw [call_of_name t rfl, hread]
  rfl

theorem foldlM_call_plainText (h : s.InRange) (ks : List Setting) (t : Settings) :
    ∃ u, (ks.map fun k => SettingCall.set k.name (s.plainText k)).foldlM call t = .ok u ∧
      ∀ k, u.get k = if k ∈ ks then s.get k else t.get k := by
  induction ks generalizing t with
  | nil => exact ⟨t, rfl, fun k => rfl⟩
  | cons k rest ih =>
    obtain ⟨u, hrun, hget⟩ := ih (t.put k (s.get k))
    refine ⟨u, ?_, ?_⟩
    · rw [List.map_cons, List.foldlM_cons, call_plainText h]
      exact hrun
    · intro k'
      rw [hget k']
      by_cases hk : k' = k
      · subst hk
        simp
      · simp [hk, get_put_of_ne t (s.get k) hk]

theorem foldlM_call_display (h : s.InRange) (t : Settings) :
    (SettingCall.ofListing s.display).foldlM call t = .ok s := by
  obtain ⟨u, hrun, hget⟩ := foldlM_call_plainText h Setting.all t
  have hu : u = s := ext_get fun k => by rw [hget k, if_pos k.mem_all]
  rw [ofListing_display, hrun, hu]

/-- What is true of the settings after some calls on fresh ones.  Each setting has the value of the
last successful call for it, or its default; which calls succeed does not depend on those before.
A call that fails may be left out, and two calls for different settings may change places. -/
structure Follows (calls : List SettingCall) (s : Settings) : Prop where
  last : ∀ k, s.get k = (calls.filterMap (·.value? k)).getLast?.getD (default.get k)
  succeeds : ∀ before c rest, calls = before ++ c :: rest →
    ((∃ t, (default.afterAll before).call c = .ok t) ↔ ∃ k v, c.value? k = some v)
  failed : ∀ before c rest e, calls = before ++ c :: rest →
    (default.afterAll before).call c = .error e → default.afterAll (before ++ rest) = s
  commutes : ∀ before c c' rest, calls = before ++ c :: c' :: rest → c.name ≠ c'.name →
    default.afterAll (before ++ c' :: c :: rest) = s

/-- The listing of settings restores them: it has a line for each setting, and all lines, called on
fresh settings one after the other, succeed and yield the same settings. -/
structure Restorable (s : Settings) : Prop where
  lines : (SettingCall.ofListing s.display).map SettingCall.name = Setting.all.map Setting.name
  restores : (SettingCall.ofListing s.display).foldlM call default = .ok s

theorem follows_afterAll (calls : List SettingCall) : Follows calls (default.afterAll calls) where
  last := get_afterAll default calls
  succeeds := by
    rintro before c rest rfl
    constructor
    · rintro ⟨t, ht⟩
      obtain ⟨k, v, hv, -⟩ := call_eq_ok_iff.mp ht
      exact ⟨k, v, hv⟩
    · rintro ⟨k, v, hv⟩
      exact ⟨_, call_eq_ok_iff.mpr ⟨k, v, hv, rfl⟩⟩
  failed := by
    rintro before c rest e rfl herror
    rw [afterAll_append, afterAll_append, afterAll_cons, after_of_error herror]
  commutes := by
    rintro before c c' rest rfl hname
    rw [afterAll_append, afterAll_append]
    simp only [afterAll_cons]
    rw [after_comm _ hname]

theorem InRange.restorable (h : s.InRange) : s.Restorable where
  lines := by
    rw [ofListing_display, List.map_map]
    rfl
  restores := foldlM_call_display h default

theorem afterAll_of_foldlM {calls : List SettingCall} (h : calls.foldlM call s = .ok t) :
    s.afterAll calls = t := by
  induction calls generalizing s with
  | nil => exact Except.pure_eq_ok_iff.mp h
  | cons c rest ih =>
    rw [List.foldlM_cons] at h
    obtain ⟨u, hcall, hrest⟩ := Except.bind_eq_ok_iff.mp h
    rw [afterAll_cons, after_of_ok hcall]
    exact ih hrest

/-- Settings survive their listing, whatever calls they come from, and all settings with numbers in
range come from some calls. -/
theorem roundTrip :
    (∀ calls, Follows calls (default.afterAll calls)) ∧
      (∀ calls, Restorable (default.afterAll calls)) ∧
      ∀ s : Settings, s.InRange ↔ ∃ calls, default.afterAll calls = s := by
  refine ⟨follows_afterAll, fun calls => (inRange_default.afterAll calls).restorable, fun s => ?_⟩
  constructor
  · intro h
    exact ⟨_, afterAll_of_foldlM h.restorable.restores⟩
  · rintro ⟨calls, rfl⟩
    exact inRange_default.afterAll calls

/-- A number may be spelled in several ways, and a failed call does not count. -/
example : ((default.afterAll [.set "base_edge_weight" "+007", .set "base_edge_weight" "7x",
    .enable "base_edge_weight", .enable "branch_waypoints"]).line .baseWeight) =
      "base_edge_weight = 7" := by decide

end Settings

end SpecFence
