import SpecFence.Cut.Exact
import SpecFence.Settings

/-!
# Choosing a way to cut

The entry point for cutting a list of groups as the settings ask.
-/

set_option autoImplicit false

namespace SpecFence

def iteratedCutLogged (limit : Nat) (cancelled : Bool) (graph : Digraph)
    (groups : List WaypointGroup) : Logged CutError Cut := do
  let run := iteratedCut limit cancelled .initial graph groups
  let cut ← run.outcome
  let passes := run.progress.passes
  Logged.emitIf (!run.progress.converged) .debug
    s!"combinatorial cut repaired after {passes} passes"
  return cut

/-- A cut of a graph that separates all groups, found in the way that the settings ask for.  Without
groups there is nothing to do. -/
def separate (graph : Digraph) (groups : List WaypointGroup) (settings : Settings)
    (cancelled : Bool) : Logged CutError Cut := do
  if groups.isEmpty then
    return .empty
  let cut ← match settings.cutStrategy with
    | .iterated => iteratedCutLogged settings.passLimit cancelled graph groups
    | .exact => exactCut settings.passLimit settings.searchBudget cancelled graph groups
  let count := groups.length
  let size := cut.size
  let weight := cutWeight graph cut.toList
  Logged.emit .debug s!"{count} groups separated by {size} edges of total weight {weight}"
  return cut

end SpecFence
