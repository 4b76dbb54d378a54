/-!
# Value types

A value is one lane or a vector of equal lanes.
-/

set_option autoImplicit false

namespace SpecFence

inductive Lane where
  | i8
  | i16
  | i32
  | i64
  | i128
  | f32
  | f64
deriving DecidableEq, Repr, Inhabited

namespace Lane

def all : List Lane := [i8, i16, i32, i64, i128, f32, f64]

def bits : Lane → Nat
  | i8 => 8
  | i16 => 16
  | i32 => 32
  | i64 => 64
  | i128 => 128
  | f32 => 32
  | f64 => 64

def name : Lane → String
  | i8 => "i8"
  | i16 => "i16"
  | i32 => "i32"
  | i64 => "i64"
  | i128 => "i128"
  | f32 => "f32"
  | f64 => "f64"

end Lane

structure Ty where
  lane : Lane
  lanes : Nat
deriving DecidableEq, Repr, Inhabited

namespace Ty

def bytes (t : Ty) : Nat := t.lane.bits * t.lanes / 8

def display (t : Ty) : String :=
  if t.lanes = 1 then t.lane.name else t.lane.name ++ "x" ++ toString t.lanes

def ofName? (text : String) : Option Ty :=
  match text.splitOn "x" with
  | [lane] => (Lane.all.find? fun l => l.name == lane).map (⟨·, 1⟩)
  | [lane, lanes] => do
    let lane ← Lane.all.find? fun l => l.name == lane
    return ⟨lane, ← lanes.toNat?⟩
  | _ => none

end Ty

end SpecFence
