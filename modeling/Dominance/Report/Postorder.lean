import Dominance.Graph.Numbering
import Dominance.Report.Json
import Dominance.Report.Table

namespace Dominance.Report

/-!
# Report on a postorder numbering

One row for every numbered block, in the order of the indices.  Blocks that the
entry does not reach have the lowest indices, so a block is reached exactly if
its index is not below their number.
-/

/-- What is reported about one block. -/
structure PostorderRow where
  address : Address
  postorder : Nat
  reachable : Bool
  isEntry : Bool
  successors : List Address

/-- What is reported about a numbering. -/
structure PostorderReport where
  file : String
  entry : Address
  blockCount : Nat
  edgeCount : Nat
  unreachable : Nat
  rows : List PostorderRow

/-- The numbered blocks of a graph, in the order of their indices. -/
def numberedBlocks (graph : FlowGraph) : List (Nat × Address) :=
  let numbered :=
    graph.nodes.filterMap fun node =>
      node.postorder.map fun index => (index, node.address)
  numbered.mergeSort fun first second =>
    first.1 < second.1 || (first.1 == second.1 && first.2 ≤ second.2)

namespace PostorderRow

/-- The fields of a row. -/
def json (row : PostorderRow) : Json :=
  .object
    [ ("address", .string row.address.text)
    , ("postorder", .number row.postorder)
    , ("reachable", .bool row.reachable) ]

/-- The remark about a block. -/
def note (row : PostorderRow) : String :=
  if row.reachable then
    if row.isEntry then "entry" else ""
  else
    "unreachable"

/-- The cells of a row. -/
def cells (row : PostorderRow) : List String :=
  [ toString row.postorder
  , row.address.text
  , listCell "(exit)" (row.successors.map Address.text)
  , row.note ]

end PostorderRow

namespace PostorderReport

/-- The report on the graph of a file. -/
def ofGraph (file : String) (graph : FlowGraph) : PostorderReport :=
  let unreachable := graph.size - graph.reversePostorder.length
  { file := file
    entry := graph.entry
    blockCount := graph.size
    edgeCount := graph.edgeCount
    unreachable := unreachable
    rows :=
      (numberedBlocks graph).map fun numbered =>
        { address := numbered.2
          postorder := numbered.1
          reachable := unreachable ≤ numbered.1
          isEntry := numbered.2 = graph.entry
          successors := graph.successors numbered.2 } }

/-- The object that is written in JSON. -/
def json (report : PostorderReport) : Json :=
  .object
    [ ("file", .string report.file)
    , ("entry", .string report.entry.text)
    , ("block_count", .number report.blockCount)
    , ("unreachable", .number report.unreachable)
    , ("blocks", .list (report.rows.map PostorderRow.json)) ]

/-- The report in JSON. -/
def jsonText (report : PostorderReport) : String :=
  report.json.text

/-- The line that names the file. -/
def title (report : PostorderReport) : String :=
  s!"Postorder numbering for {report.file}"

/-- The line of the counts. -/
def summary (report : PostorderReport) : String :=
  s!"Blocks: {report.blockCount}, Edges: {report.edgeCount}, " ++
    s!"Entry: {report.entry}, Unreachable: {report.unreachable}"

/-- The table of the rows. -/
def table (report : PostorderReport) : Table where
  columns :=
    [ ⟨"PO", .right⟩
    , ⟨"Block", .left⟩
    , ⟨"Successors", .left⟩
    , ⟨"Note", .left⟩ ]
  rows := report.rows.map PostorderRow.cells

/-- The report as text: two lines, an empty line and the table. -/
def plainText (report : PostorderReport) : String :=
  report.title ++ "\n" ++ report.summary ++ "\n\n" ++ report.table.text

end PostorderReport

end Dominance.Report
