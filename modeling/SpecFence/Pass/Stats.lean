/-!
# Statistics of the pass

What the pass did to one function, and how that is written down.
-/

set_option autoImplicit false

namespace SpecFence

structure PassStats where
  fencesInserted : Nat
  edgesSplit : Nat
  sources : Nat
  sinks : Nat
  groups : Nat
  cutWeight : Nat
deriving DecidableEq, Repr

namespace PassStats

def zero : PassStats := ⟨0, 0, 0, 0, 0, 0⟩

def fields (s : PassStats) : List (String × Nat) :=
  [("static_fences_inserted", s.fencesInserted), ("edges_split", s.edgesSplit),
    ("num_sources", s.sources), ("num_sinks", s.sinks), ("num_groups", s.groups),
    ("cut_weight", s.cutWeight)]

def json (s : PassStats) : String :=
  let entries := s.fields.map fun (name, n) => "\"" ++ name ++ "\":" ++ toString n
  "\x7b" ++ ",".intercalate entries ++ "\x7d"

def filed (s : PassStats) : String :=
  let entries := s.fields.map fun (name, n) => "    \"" ++ name ++ "\": " ++ toString n
  "\x7b\n" ++ ",\n".intercalate entries ++ "\n\x7d\n"

/-- Can the statistics of a function of this name be filed?  The name with its ending must be a file
name: of at most 255 bytes, without a slash and without a zero character. -/
def canFile (name : String) : Bool :=
  (name ++ ".json").utf8ByteSize ≤ 255 && !name.toList.contains '/' && !name.toList.contains '\x00'

end PassStats

end SpecFence
