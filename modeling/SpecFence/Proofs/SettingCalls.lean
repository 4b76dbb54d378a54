import SpecFence.Settings
import SpecFence.Proofs.Result
import Mathlib.Data.List.Basic

/-!
# Calls that change settings

A call gives a value to the setting of its name or fails, and which of the two does not depend on
the settings it is made on.  So after any history of calls each setting has the value that the last
call gave to it, and calls for different settings may change places.
-/

set_option autoImplicit false

namespace SpecFence

inductive Setting where
  | mitigation
  | cutStrategy
  | pseudoTransmitters
  | branchWaypoints
  | prunePublic
  | baseWeight
  | passLimit
  | searchBudget
  | solverTimeout
deriving DecidableEq, Repr

namespace Setting

def all : List Setting :=
  [mitigation, cutStrategy, pseudoTransmitters, branchWaypoints, prunePublic, baseWeight, passLimit,
    searchBudget, solverTimeout]

def name : Setting → String
  | mitigation => "blade_type"
  | cutStrategy => "mincut_strategy"
  | pseudoTransmitters => "pseudo_transmitters"
  | branchWaypoints => "branch_waypoints"
  | prunePublic => "prune_public_transmissions"
  | baseWeight => "base_edge_weight"
  | passLimit => "max_mincut_passes"
  | searchBudget => "constraint_search_budget"
  | solverTimeout => "smt_timeout_ms"

def ofName? (name : String) : Option Setting := all.find? fun s => s.name == name

def Value : Setting → Type
  | mitigation => Mitigation
  | cutStrategy => CutStrategy
  | pseudoTransmitters | branchWaypoints | prunePublic => Bool
  | baseWeight | passLimit | searchBudget | solverTimeout => Nat

def read (text : String) : (k : Setting) → Except SettingError k.Value
  | mitigation => SettingValue.oneOf Mitigation.all Mitigation.name text
  | cutStrategy => SettingValue.oneOf CutStrategy.all CutStrategy.name text
  | pseudoTransmitters | branchWaypoints | prunePublic => SettingValue.bool text
  | baseWeight | passLimit | searchBudget | solverTimeout => SettingValue.number text

def switchedOn : (k : Setting) → Except SettingError k.Value
  | pseudoTransmitters | branchWaypoints | prunePublic => .ok true
  | mitigation | cutStrategy | baseWeight | passLimit | searchBudget | solverTimeout =>
    .error .wrongType

theorem mem_all (k : Setting) : k ∈ all := by cases k <;> decide

theorem name_injective {k k' : Setting} (h : k.name = k'.name) : k = k' := by
  revert h
  cases k <;> cases k' <;> decide

theorem ofName?_eq_some_iff {name : String} {k : Setting} :
    ofName? name = some k ↔ name = k.name := by
  unfold ofName?
  constructor
  · intro h
    have hname := List.find?_some h
    exact (beq_iff_eq.mp hname).symm
  · rintro rfl
    cases k <;> decide

end Setting

/-- A call that changes settings by name. -/
inductive SettingCall where
  | set (name text : String)
  | enable (name : String)
deriving DecidableEq, Repr

namespace SettingCall

def name : SettingCall → String
  | set name _ => name
  | enable name => name

def given (k : Setting) : SettingCall → Except SettingError k.Value
  | set _ text => k.read text
  | enable _ => k.switchedOn

def value? (k : Setting) (c : SettingCall) : Option k.Value :=
  if c.name = k.name then (c.given k).toOption else none

theorem value?_eq_some_iff {k : Setting} {c : SettingCall} {v : k.Value} :
    c.value? k = some v ↔ c.name = k.name ∧ c.given k = .ok v := by
  unfold value?
  split
  · rename_i hname
    cases c.given k <;> simp [Except.toOption, hname]
  · rename_i hname
    simp [hname]

end SettingCall

namespace Settings

def get (s : Settings) : (k : Setting) → k.Value
  | .mitigation => s.mitigation
  | .cutStrategy => s.cutStrategy
  | .pseudoTransmitters => s.pseudoTransmitters
  | .branchWaypoints => s.branchWaypoints
  | .prunePublic => s.prunePublic
  | .baseWeight => s.baseWeight
  | .passLimit => s.passLimit
  | .searchBudget => s.searchBudget
  | .solverTimeout => s.solverTimeout

def put (s : Settings) : (k : Setting) → k.Value → Settings
  | .mitigation, v => { s with mitigation := v }
  | .cutStrategy, v => { s with cutStrategy := v }
  | .pseudoTransmitters, v => { s with pseudoTransmitters := v }
  | .branchWaypoints, v => { s with branchWaypoints := v }
  | .prunePublic, v => { s with prunePublic := v }
  | .baseWeight, v => { s with baseWeight := v }
  | .passLimit, v => { s with passLimit := v }
  | .searchBudget, v => { s with searchBudget := v }
  | .solverTimeout, v => { s with solverTimeout := v }

def call (s : Settings) : SettingCall → Except SettingError Settings
  | .set name text => s.set name text
  | .enable name => s.enable name

/-- The settings after a call; one that fails leaves them as they are. -/
def after (s : Settings) (c : SettingCall) : Settings :=
  match s.call c with
  | .ok t => t
  | .error _ => s

def afterAll (s : Settings) (calls : List SettingCall) : Settings := calls.foldl after s

def valueText (s : Settings) : Setting → String
  | .mitigation => "\"" ++ s.mitigation.name ++ "\""
  | .cutStrategy => "\"" ++ s.cutStrategy.name ++ "\""
  | .pseudoTransmitters => toString s.pseudoTransmitters
  | .branchWaypoints => toString s.branchWaypoints
  | .prunePublic => toString s.prunePublic
  | .baseWeight => toString s.baseWeight
  | .passLimit => toString s.passLimit
  | .searchBudget => toString s.searchBudget
  | .solverTimeout => toString s.solverTimeout

def line (s : Settings) (setting : Setting) : String := setting.name ++ " = " ++ s.valueText setting

theorem display_eq (s : Settings) : s.display =
    "[blade]\n" ++ String.join (Setting.all.map fun setting => s.line setting ++ "\n") := by
  simp only [display, listed, Setting.all, List.map_cons, List.map_nil, line, valueText, Setting.name,
    String.join_cons, String.join_nil, String.append_assoc, String.append_empty]

variable {s t : Settings} {c c' : SettingCall} {k k' : Setting}

theorem ext_get (h : ∀ k, s.get k = t.get k) : s = t := by
  obtain ⟨_, _, _, _, _, _, _, _, _⟩ := s
  obtain ⟨_, _, _, _, _, _, _, _, _⟩ := t
  rw [Settings.mk.injEq]
  exact ⟨h .mitigation, h .cutStrategy, h .pseudoTransmitters, h .branchWaypoints, h .prunePublic,
    h .baseWeight, h .passLimit, h .searchBudget, h .solverTimeout⟩

@[simp] theorem get_put_self (s : Settings) (k : Setting) (v : k.Value) :
    (s.put k v).get k = v := by
  cases k <;> rfl

theorem get_put_of_ne (s : Settings) (v : k.Value) (h : k' ≠ k) :
    (s.put k v).get k' = s.get k' := by
  revert v h
  cases k <;> cases k' <;> intro v h <;> first | rfl | exact absurd rfl h

theorem set_name (s : Settings) (k : Setting) (text : String) :
    s.set k.name text = (k.read text).map (s.put k) := by
  cases k <;> rfl

theorem enable_name (s : Settings) (k : Setting) :
    s.enable k.name = k.switchedOn.map (s.put k) := by
  cases k <;> rfl

theorem unknown_name (s : Settings) {name : String} (h : Setting.ofName? name = none)
    (text : String) :
    s.set name text = .error (.unknownName name) ∧ s.enable name = .error (.unknownName name) := by
  unfold set enable
  constructor
  · split <;> first | rfl | exact absurd h (by decide)
  · split <;> first | rfl | exact absurd h (by decide)

theorem call_eq (s : Settings) (c : SettingCall) : s.call c =
    match Setting.ofName? c.name with
    | some k => (c.given k).map (s.put k)
    | none => .error (.unknownName c.name) := by
  cases hk : Setting.ofName? c.name with
  | none =>
    cases c with
    | set name text => exact (s.unknown_name hk text).1
    | enable name => exact (s.unknown_name hk name).2
  | some k =>
    have hname : c.name = k.name := Setting.ofName?_eq_some_iff.mp hk
    cases c with
    | set name text =>
      obtain rfl : name = k.name := hname
      exact s.set_name k text
    | enable name =>
      obtain rfl : name = k.name := hname
      exact s.enable_name k

theorem call_of_name (s : Settings) (h : c.name = k.name) :
    s.call c = (c.given k).map (s.put k) := by
  rw [call_eq]
  simp only [Setting.ofName?_eq_some_iff.mpr h]

theorem call_eq_ok_iff : s.call c = .ok t ↔ ∃ k v, c.value? k = some v ∧ t = s.put k v := by
  constructor
  · intro h
    cases hk : Setting.ofName? c.name with
    | none =>
      simp only [call_eq, hk] at h
      cases h
    | some k =>
      have hname : c.name = k.name := Setting.ofName?_eq_some_iff.mp hk
      rw [s.call_of_name hname] at h
      cases hv : c.given k with
      | error e =>
        rw [hv] at h
        cases h
      | ok v =>
        rw [hv] at h
        cases h
        exact ⟨k, v, SettingCall.value?_eq_some_iff.mpr ⟨hname, hv⟩, rfl⟩
  · rintro ⟨k, v, hv, rfl⟩
    obtain ⟨hname, hgiven⟩ := SettingCall.value?_eq_some_iff.mp hv
    rw [s.call_of_name hname, hgiven]
    rfl

theorem after_of_ok (h : s.call c = .ok t) : s.after c = t := by
  rw [after, h]

theorem after_of_error {e : SettingError} (h : s.call c = .error e) : s.after c = s := by
  rw [after, h]

theorem get_after (s : Settings) (c : SettingCall) (k : Setting) :
    (s.after c).get k = (c.value? k).getD (s.get k) := by
  cases hcall : s.call c with
  | error e =>
    rw [after_of_error hcall]
    cases hv : c.value? k with
    | none => rfl
    | some v =>
      rw [call_eq_ok_iff.mpr ⟨k, v, hv, rfl⟩] at hcall
      cases hcall
  | ok t =>
    rw [after_of_ok hcall]
    obtain ⟨k', v, hv, rfl⟩ := call_eq_ok_iff.mp hcall
    by_cases hk : k = k'
    · subst hk
      rw [hv]
      exact get_put_self s k v
    · have hnone : c.value? k = none := by
        rw [Option.eq_none_iff_forall_ne_some]
        intro w hw
        have hname := (SettingCall.value?_eq_some_iff.mp hw).1
        have hname' := (SettingCall.value?_eq_some_iff.mp hv).1
        exact hk (Setting.name_injective (hname.symm.trans hname'))
      rw [hnone]
      exact get_put_of_ne s v hk

@[simp] theorem afterAll_cons (s : Settings) (c : SettingCall) (rest : List SettingCall) :
    s.afterAll (c :: rest) = (s.after c).afterAll rest := rfl

theorem afterAll_append (s : Settings) (before rest : List SettingCall) :
    s.afterAll (before ++ rest) = (s.afterAll before).afterAll rest :=
  List.foldl_append

theorem get_afterAll (s : Settings) (calls : List SettingCall) (k : Setting) :
    (s.afterAll calls).get k = (calls.filterMap (·.value? k)).getLast?.getD (s.get k) := by
  induction calls generalizing s with
  | nil => rfl
  | cons c rest ih =>
    rw [afterAll_cons, ih, get_after, List.filterMap_cons]
    cases hv : c.value? k with
    | none => rfl
    | some v =>
      rw [List.getLast?_cons]
      rfl

theorem after_comm (s : Settings) (h : c.name ≠ c'.name) :
    (s.after c).after c' = (s.after c').after c := by
  apply ext_get
  intro k
  simp only [get_after]
  cases hv : c.value? k with
  | none => rfl
  | some v =>
    cases hv' : c'.value? k with
    | none => rfl
    | some v' =>
      have hname := (SettingCall.value?_eq_some_iff.mp hv).1
      exact absurd (hname.trans (SettingCall.value?_eq_some_iff.mp hv').1.symm) h

end Settings

end SpecFence
