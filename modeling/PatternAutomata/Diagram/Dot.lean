import PatternAutomata.Diagram.Basic

/-!
# Dot text

A diagram in the dot language of graph layout. What stands between double quotes is escaped, so no
label or attribute value ends its quotes early. An epsilon is written as the letter itself, which no
escaped character is.
-/

namespace PatternAutomata

/-- The text of a value between double quotes. -/
def Text.dotValue (text : List Char) : List Char := text.flatMap escapeForeign

namespace Bundle

/-- The parts of a label: the ranges, and then the epsilon if there is one. -/
def labelParts (b : Bundle) : List (List Char) :=
  b.ranges.map (fun r => Text.dotValue r.display) ++ if b.epsilon then [['ε']] else []

def label (b : Bundle) : List Char := [','].intercalate b.labelParts

def dotLine (b : Bundle) : String :=
  s!"\t{b.source} -> {b.target} [label = \"{String.ofList b.label}\"];"

end Bundle

namespace NodeView

/-- The number, and below it the parenthesis and the group that a marker stands for. -/
def label (n : NodeView) : String :=
  match n.marker with
  | none => s!"{n.id}"
  | some ⟨.groupStart, group⟩ => s!"{n.id}\\n({group}"
  | some ⟨.groupEnd, group⟩ => s!"{n.id}\\n{group})"

def dotLine (n : NodeView) : String :=
  let style := if n.isFinal then ", style = bold" else ""
  s!"\t{n.id} [label = \"{n.label}\"{style}];"

end NodeView

/-- A line that sets an attribute of the whole drawing. -/
def attributeLine (key value : String) : String :=
  s!"\t{key} = \"{String.ofList (Text.dotValue value.toList)}\";"

namespace Diagram

/-- The drawing of a diagram under a name: attributes, nodes, edges. -/
def dot (d : Diagram) (name : String) (attributes : List (String × String)) : String :=
  let head :=
    [s!"digraph {name} \x7b", "\trankdir = LR;", "\tnode [shape = circle];",
      "\tstart [shape = point];", s!"\tstart -> {d.start};"]
  let body :=
    attributes.map (fun (key, value) => attributeLine key value)
      ++ d.nodes.map NodeView.dotLine ++ d.bundles.map Bundle.dotLine
  "\n".intercalate (head ++ body ++ ["\x7d"])

end Diagram

end PatternAutomata
