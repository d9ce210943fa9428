import Dominance.Graph.Basic

namespace Dominance.EdgeList

/-!
# Statements of an edge list

An edge list describes a flow graph by statements, one in a line: it names the
entry, a block, or a block with the blocks that its edges lead to.  Every
address that a statement mentions is a block.  The entry is the address of the
entry statement, or else the first address mentioned.
-/

/-- One statement. -/
inductive Statement where
  | entry (address : Address)
  | block (address : Address)
  | edges (source : Address) (targets : List Address)
  deriving DecidableEq, Repr

namespace Statement

/-- The addresses that a statement mentions, in order. -/
def mentions : Statement → List Address
  | .entry address => [address]
  | .block address => [address]
  | .edges source targets => source :: targets

/-- The edges that a statement describes, in order. -/
def edgePairs : Statement → List (Address × Address)
  | .entry _ => []
  | .block _ => []
  | .edges source targets => targets.map fun target => (source, target)

/-- The entry that a statement names. -/
def entryAddress? : Statement → Option Address
  | .entry address => some address
  | .block _ => none
  | .edges .. => none

/-- The line of a statement. -/
def text : Statement → String
  | .entry address => s!"entry {address}"
  | .block address => s!"block {address}"
  | .edges source targets =>
      s!"{source} ->" ++ String.join (targets.map fun target => s!" {target}")

end Statement

/-- The text of an edge list: each statement is followed by a line feed. -/
def print (statements : List Statement) : String :=
  String.join (statements.map fun statement => statement.text ++ "\n")

/-- The statements that describe an entry, further blocks and edges. -/
def describe
    (entry : Address)
    (blocks : List Address)
    (edges : List (Address × Address)) :
    List Statement :=
  .entry entry ::
    (blocks.map .block ++ edges.map fun edge => .edges edge.1 [edge.2])

/-- The addresses that statements mention, in order. -/
def mentions (statements : List Statement) : List Address :=
  statements.flatMap Statement.mentions

/-- The edges that statements describe, in order. -/
def edgePairs (statements : List Statement) : List (Address × Address) :=
  statements.flatMap Statement.edgePairs

/-- The entry that statements name first. -/
def entryAddress? (statements : List Statement) : Option Address :=
  statements.findSome? Statement.entryAddress?

end Dominance.EdgeList
