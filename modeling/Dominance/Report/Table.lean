import Dominance.Text.Blank

namespace Dominance.Report

/-!
# Text tables

A column is as wide as its widest cell, the heading included.  Two blanks stand
between columns, and blanks at the end of a line are left out.
-/

/-- The side of a column on which its cells stand. -/
inductive Alignment where
  | left
  | right
  deriving DecidableEq, Repr

/-- The heading of a column. -/
structure Column where
  heading : String
  alignment : Alignment

/-- Columns and rows of cells. -/
structure Table where
  columns : List Column
  rows : List (List String)

namespace Table

/-- The cells at the position of a column, the heading first. -/
def columnCells (table : Table) (position : Nat) (column : Column) : List String :=
  column.heading :: table.rows.filterMap fun row => row[position]?

/-- The width of each column. -/
def widths (table : Table) : List Nat :=
  table.columns.zipIdx.map fun column =>
    (table.columnCells column.2 column.1).foldl
      (fun width cell => max width cell.length) 0

/-- A cell filled up with blanks to a width. -/
def padCell (alignment : Alignment) (width : Nat) (cell : String) : List Char :=
  let blanks := List.replicate (width - cell.length) ' '
  match alignment with
  | .left => cell.toList ++ blanks
  | .right => blanks ++ cell.toList

/-- The line of a row. -/
def line (table : Table) (row : List String) : String :=
  let cells :=
    ((table.columns.zip table.widths).zip row).map fun entry =>
      padCell entry.1.1.alignment entry.1.2 entry.2
  String.ofList (Text.trimEnd ([' ', ' '].intercalate cells))

/-- The lines of a table: the headings and the rows. -/
def lines (table : Table) : List String :=
  table.line (table.columns.map fun column => column.heading) ::
    table.rows.map table.line

/-- The text of a table: each line is followed by a line feed. -/
def text (table : Table) : String :=
  String.join (table.lines.map (· ++ "\n"))

end Table

/-- Some addresses or other items in one cell, or a mark if there are none. -/
def listCell (mark : String) (items : List String) : String :=
  if items.isEmpty then mark else ", ".intercalate items

end Dominance.Report
