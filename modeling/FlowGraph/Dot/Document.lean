import FlowGraph.Dot.Quoted
/-!
# DOT documents

A directed graph in the DOT language, as a heading and a list of statements,
each on a line of its own.
-/

namespace FlowGraph.Dot

/-- A property of a node or an edge and the value it is set to. -/
structure Attribute where
  key : String
  value : String

def Attribute.text (a : Attribute) : String := a.key ++ "=" ++ a.value

/-- Attributes in brackets. -/
def attributeList (attrs : List Attribute) : String :=
  "[" ++ ", ".intercalate (attrs.map Attribute.text) ++ "]"

/-- What may stand on a line after the heading: a node with its label, an edge, or
nothing. -/
inductive Statement where
  | node (name label : String) (attrs : List Attribute)
  | edge (source target : String) (attrs : List Attribute)
  | blank

/-- The line of a statement, indented. An edge without attributes has no brackets. -/
def Statement.line : Statement → String
  | node name label attrs =>
    "    " ++ name ++ " " ++ attributeList (⟨"label", quoted label⟩ :: attrs) ++ ";\n"
  | edge source target [] => "    " ++ source ++ " -> " ++ target ++ ";\n"
  | edge source target attrs =>
    "    " ++ source ++ " -> " ++ target ++ " " ++ attributeList attrs ++ ";\n"
  | blank => "\n"

/-- A directed graph, as it is drawn. -/
structure Document where
  name : String
  title : Option String
  statements : List Statement

namespace Document

/-- The line of the title, if there is one. -/
def titleLine (d : Document) : String :=
  match d.title with
  | none => ""
  | some title => "    label=" ++ quoted title ++ ";\n"

/-- The title stands on top, nodes are boxes and all text is set in one font. A
blank line follows. -/
def styleLines : List String := [
  "    labelloc=t;",
  "    node [shape=box, fontname=\"Courier\", fontsize=10];",
  "    edge [fontname=\"Courier\", fontsize=9];",
  ""]

/-- What stands before the statements. -/
def heading (d : Document) : String :=
  "digraph " ++ d.name ++ " \x7b\n" ++ d.titleLine ++ String.join (styleLines.map (· ++ "\n"))

/-- The text of a document, which ends in a line feed. -/
def render (d : Document) : String :=
  d.heading ++ String.join (d.statements.map Statement.line) ++ "\x7d\n"

end Document

end FlowGraph.Dot
