import Dominance.Report.Json
import Dominance.Report.Table
import Dominance.Tree.Query

namespace Dominance.Report

/-!
# Report on a dominator tree

One row for every block, from the highest postorder index down, with its
immediate dominator, its depth and the blocks it dominates immediately.
-/

/-- What is reported about one block. -/
structure TreeRow where
  address : Address
  postorder : Nat
  dominator : Option Address
  depth : Nat
  children : List Address

/-- What is reported about a dominator tree. -/
structure TreeReport where
  file : String
  entry : Address
  blockCount : Nat
  passes : Nat
  rows : List TreeRow

namespace TreeRow

/-- The row of the block at an index. -/
def ofTree
    (tree : DominatorTree)
    (postorder : Nat) :
    Except DanglingLink TreeRow := do
  let address ← tree.addressAt postorder
  let dominator ← tree.immediateDominator address
  let depth ← tree.depth address
  return {
    address := address
    postorder := postorder
    dominator := dominator
    depth := depth.getD 0
    children := tree.children address
  }

/-- The fields of a row. -/
def json (row : TreeRow) : Json :=
  .object
    [ ("address", .string row.address.text)
    , ("postorder", .number row.postorder)
    , ("idom",
        match row.dominator with
        | none => .null
        | some dominator => .string dominator.text)
    , ("depth", .number row.depth)
    , ("children", .list (row.children.map fun child => .string child.text)) ]

/-- The cells of a row. -/
def cells (row : TreeRow) : List String :=
  [ row.address.text
  , toString row.postorder
  , (row.dominator.map Address.text).getD "-"
  , toString row.depth
  , listCell "-" (row.children.map Address.text) ]

end TreeRow

namespace TreeReport

/-- The report on the tree of a file. -/
def ofTree
    (file : String)
    (tree : DominatorTree) :
    Except DanglingLink TreeReport := do
  let rows ← (List.range tree.size).reverse.mapM (TreeRow.ofTree tree)
  return {
    file := file
    entry := tree.entry
    blockCount := tree.size
    passes := tree.passes
    rows := rows
  }

/-- The object that is written in JSON. -/
def json (report : TreeReport) : Json :=
  .object
    [ ("file", .string report.file)
    , ("entry", .string report.entry.text)
    , ("block_count", .number report.blockCount)
    , ("passes", .number report.passes)
    , ("nodes", .list (report.rows.map TreeRow.json)) ]

/-- The report in JSON. -/
def jsonText (report : TreeReport) : String :=
  report.json.text

/-- The line that names the file. -/
def title (report : TreeReport) : String :=
  s!"Dominator tree for {report.file}"

/-- The line of the counts. -/
def summary (report : TreeReport) : String :=
  s!"Blocks: {report.blockCount}, Entry: {report.entry}, Passes: {report.passes}"

/-- The table of the rows. -/
def table (report : TreeReport) : Table where
  columns :=
    [ ⟨"Block", .left⟩
    , ⟨"PO", .right⟩
    , ⟨"IDom", .left⟩
    , ⟨"Depth", .right⟩
    , ⟨"Children", .left⟩ ]
  rows := report.rows.map TreeRow.cells

/-- The report as text: two lines, an empty line and the table. -/
def plainText (report : TreeReport) : String :=
  report.title ++ "\n" ++ report.summary ++ "\n\n" ++ report.table.text

end TreeReport

end Dominance.Report
