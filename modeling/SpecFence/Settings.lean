import SpecFence.Weight

/-!
# Settings

The settings of the pass, the way to set them by name from text, and their listing, which can be
read back.  A text that does not suit a setting leaves all settings as they are.
-/

set_option autoImplicit false

namespace SpecFence

/-- What the pass does to a function. -/
inductive Mitigation where
  | none
  /-- A minimum cut, with a fence on every edge of it. -/
  | fencePerEdge
  /-- A minimum cut, with a fence at the top of the linear block of every edge's destination. -/
  | fencePerBlock
  /-- No cut: a fence right after every source. -/
  | fenceAfterSource
deriving DecidableEq, Repr

namespace Mitigation

def all : List Mitigation := [none, fencePerEdge, fencePerBlock, fenceAfterSource]

def name : Mitigation → String
  | none => "none"
  | fencePerEdge => "lfence"
  | fencePerBlock => "lfence_per_block"
  | fenceAfterSource => "baseline_fence"

end Mitigation

/-- How a cut is found. -/
inductive CutStrategy where
  | iterated
  | exact
deriving DecidableEq, Repr

namespace CutStrategy

def all : List CutStrategy := [iterated, exact]

def name : CutStrategy → String
  | iterated => "combinatorial"
  | exact => "constraint"

end CutStrategy

structure Settings where
  mitigation : Mitigation
  cutStrategy : CutStrategy
  /-- Are operands that transmit only under some circumstances guarded too? -/
  pseudoTransmitters : Bool
  branchWaypoints : Bool
  /-- Are transmissions of values left out that the program shows anyway? -/
  prunePublic : Bool
  baseWeight : Nat
  passLimit : Nat
  searchBudget : Nat
  solverTimeout : Nat
deriving DecidableEq, Repr

inductive SettingError where
  | unknownName (name : String)
  | wrongType
  | badValue (expected : String)
deriving DecidableEq, Repr

def SettingError.message : SettingError → String
  | unknownName name => s!"No existing setting named '{name}'"
  | wrongType => "Trying to set a setting with the wrong type"
  | badValue expected => s!"Unexpected value for a setting, expected {expected}"

namespace SettingValue

def bool (text : String) : Except SettingError Bool :=
  if text ∈ ["true", "on", "yes", "1"] then .ok true
  else if text ∈ ["false", "off", "no", "0"] then .ok false
  else .error (.badValue "bool")

/-- The number that a list of decimal digits stands for; none if there are no digits or something
else is among them. -/
def digits? : List Char → Option Nat
  | [] => none
  | cs =>
    cs.foldl (fun n? c => n?.bind fun n =>
      if c.isDigit then some (n * 10 + (c.toNat - '0'.toNat)) else none) (some 0)

/-- Reads a number: decimal digits, with one plus sign allowed before them, for a number that is no
larger than the largest weight. -/
def number (text : String) : Except SettingError Nat :=
  let digits := match text.toList with
    | '+' :: rest => rest
    | cs => cs
  match digits? digits with
  | some n => if n ≤ Weight.limit then .ok n else .error (.badValue "number")
  | none => .error (.badValue "number")

def oneOf {α : Type} (all : List α) (name : α → String) (text : String) : Except SettingError α :=
  match all.find? fun a => name a == text with
  | some a => .ok a
  | none => .error (.badValue ("one of " ++ " ".intercalate (all.map name)))

end SettingValue

namespace Settings

def default : Settings where
  mitigation := .fencePerEdge
  cutStrategy := .iterated
  pseudoTransmitters := true
  branchWaypoints := false
  prunePublic := false
  baseWeight := 1000
  passLimit := 64
  searchBudget := 100000
  solverTimeout := 0

instance : Inhabited Settings := ⟨default⟩

def set (s : Settings) (name text : String) : Except SettingError Settings :=
  match name with
  | "blade_type" => (SettingValue.oneOf Mitigation.all Mitigation.name text).map
      fun v => { s with mitigation := v }
  | "mincut_strategy" => (SettingValue.oneOf CutStrategy.all CutStrategy.name text).map
      fun v => { s with cutStrategy := v }
  | "pseudo_transmitters" => (SettingValue.bool text).map fun v =>
      { s with pseudoTransmitters := v }
  | "branch_waypoints" => (SettingValue.bool text).map fun v => { s with branchWaypoints := v }
  | "prune_public_transmissions" => (SettingValue.bool text).map fun v =>
      { s with prunePublic := v }
  | "base_edge_weight" => (SettingValue.number text).map fun v => { s with baseWeight := v }
  | "max_mincut_passes" => (SettingValue.number text).map fun v => { s with passLimit := v }
  | "constraint_search_budget" => (SettingValue.number text).map fun v =>
      { s with searchBudget := v }
  | "smt_timeout_ms" => (SettingValue.number text).map fun v => { s with solverTimeout := v }
  | _ => .error (.unknownName name)

def enable (s : Settings) (name : String) : Except SettingError Settings :=
  match name with
  | "pseudo_transmitters" => .ok { s with pseudoTransmitters := true }
  | "branch_waypoints" => .ok { s with branchWaypoints := true }
  | "prune_public_transmissions" => .ok { s with prunePublic := true }
  | "blade_type" | "mincut_strategy" | "base_edge_weight" | "max_mincut_passes"
  | "constraint_search_budget" | "smt_timeout_ms" => .error .wrongType
  | _ => .error (.unknownName name)

def listed (name value : String) : String := name ++ " = " ++ value ++ "\n"

/-- The listing: a heading and a line for each setting, in which names of values are quoted. -/
def display (s : Settings) : String :=
  "[blade]\n"
  ++ listed "blade_type" ("\"" ++ s.mitigation.name ++ "\"")
  ++ listed "mincut_strategy" ("\"" ++ s.cutStrategy.name ++ "\"")
  ++ listed "pseudo_transmitters" (toString s.pseudoTransmitters)
  ++ listed "branch_waypoints" (toString s.branchWaypoints)
  ++ listed "prune_public_transmissions" (toString s.prunePublic)
  ++ listed "base_edge_weight" (toString s.baseWeight)
  ++ listed "max_mincut_passes" (toString s.passLimit)
  ++ listed "constraint_search_budget" (toString s.searchBudget)
  ++ listed "smt_timeout_ms" (toString s.solverTimeout)

end Settings

end SpecFence
