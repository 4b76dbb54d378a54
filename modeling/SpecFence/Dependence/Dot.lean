import SpecFence.Dependence
import SpecFence.Ir.Printer

/-!
# Dependence graphs as drawings

The text of a dependence graph in the DOT language: sources are red, sinks are blue, control edges
carry their weights, edges of a cut are bold red, and data edges are dashed.
-/

set_option autoImplicit false

namespace SpecFence

structure DotMarks where
  sources : NodeSet
  sinks : NodeSet
  cut : AscSet Edge

namespace DependenceGraph

def escapeQuotes (text : String) : String :=
  String.ofList (text.toList.flatMap fun c => if c = '"' then ['\\', '"'] else [c])

def pointLabel (f : Function) : ProgramPoint → String
  | .inst i => escapeQuotes (f.displayInst i)
  | .param v => escapeQuotes (f.displayParam v)

def nodeLine (f : Function) (marks : DotMarks) (n : Node) (p : ProgramPoint) : String :=
  let style :=
    if n ∈ marks.sources then ", style=filled, fillcolor=\"#ffaaaa\""
    else if n ∈ marks.sinks then ", style=filled, fillcolor=\"#aaccff\""
    else ""
  "    " ++ n.display ++ " [label=\"" ++ pointLabel f p ++ "\"" ++ style ++ "];"

def controlLine (marks : DotMarks) (e : Edge) (w : Nat) : String :=
  let style := if e ∈ marks.cut then ", color=red, penwidth=2" else ""
  "    " ++ e.display ++ s!" [label=\"{w}\"" ++ style ++ "];"

def dataLine (e : Edge) : String := "    " ++ e.display ++ " [style=dashed, color=gray];"

def dotLines (g : DependenceGraph) (f : Function) (marks : DotMarks) : List String :=
  ["digraph \"" ++ f.name.display ++ "\" \x7b",
    "    node [shape=box, fontname=monospace, fontsize=10];"]
  ++ g.points.toList.zipIdx.map (fun (p, n) => nodeLine f marks n p)
  ++ g.control.digraph.edges.map (fun (e, w) => controlLine marks e w)
  ++ g.data.digraph.edges.map (fun (e, _) => dataLine e)
  ++ ["\x7d"]

def dotText (g : DependenceGraph) (f : Function) (marks : DotMarks) : String :=
  String.join ((g.dotLines f marks).map (· ++ "\n"))

end DependenceGraph

end SpecFence
