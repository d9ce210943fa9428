import Dominance.Address
import Dominance.Dot.Escape

namespace Dominance.Dot

/-!
# Pictures in the DOT language

A picture is a directed graph whose vertices are blocks.  Its text is a list of
lines: a header with the optional title, one line per vertex, one line per
edge, with an empty line between these parts.
-/

/-- A drawn block. -/
structure Vertex where
  address : Address
  label : String
  highlighted : Bool

/-- A directed graph to be drawn. -/
structure Picture where
  /-- The name of the graph in the file. -/
  name : String
  /-- What the graph shows, written before its title. -/
  subject : String
  title : Option String
  vertices : List Vertex
  edges : List (Address × Address)

/-- The line of one vertex. -/
def Vertex.line (vertex : Vertex) : String :=
  let style :=
    if vertex.highlighted then ", style=filled, fillcolor=lightgreen" else ""
  s!"    \"{vertex.address}\" [label=\"{vertex.label}\"{style}];"

/-- The line of one edge. -/
def edgeLine (edge : Address × Address) : String :=
  s!"    \"{edge.1}\" -> \"{edge.2}\";"

namespace Picture

/-- The line of the title, if there is one. -/
def titleLines (picture : Picture) : List String :=
  match picture.title with
  | none => []
  | some title => [s!"    label=\"{picture.subject}: {escape title}\";"]

/-- The lines of a picture. -/
def lines (picture : Picture) : List String :=
  [s!"digraph {picture.name} \x7b"] ++
    picture.titleLines ++
    [ "    labelloc=t;"
    , "    node [shape=box, fontname=\"Courier\", fontsize=10];"
    , "" ] ++
    picture.vertices.map Vertex.line ++
    [""] ++
    picture.edges.map edgeLine ++
    ["\x7d"]

/-- The text of a picture: each line is followed by a line feed. -/
def text (picture : Picture) : String :=
  String.join (picture.lines.map (· ++ "\n"))

end Picture

end Dominance.Dot
