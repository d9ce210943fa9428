import Dominance.Dot.Picture
import Dominance.Graph.Basic

namespace Dominance.FlowGraph

/-!
# Picture of a flow graph

Every block is labelled with its address and, on a second line, its postorder
index if it has one.  The entry is highlighted.  Edges follow the order of the
blocks they leave and, at one block, the order in which they were added.
-/

/-- The label of a block. -/
def label (node : Node) : String :=
  match node.postorder with
  | none => node.address.text
  | some index => s!"{node.address}\\npo={index}"

/-- The drawn block at a position. -/
def vertex (block : Block) (position : Nat) : Dot.Vertex where
  address := block.address
  label := label block.toNode
  highlighted := position == 0

/-- All edges by the position of their source. -/
def edges (graph : FlowGraph) : List (Address × Address) :=
  graph.blocks.toList.flatMap fun block =>
    (graph.addressesAt block.successors).map fun target =>
      (block.address, target)

/-- The picture of a flow graph. -/
def picture (graph : FlowGraph) (title : Option String) : Dot.Picture where
  name := "CFG"
  subject := "CFG"
  title := title
  vertices := graph.blocks.toList.zipIdx.map fun entry => vertex entry.1 entry.2
  edges := graph.edges

/-- The picture of a flow graph in the DOT language. -/
def dotText (graph : FlowGraph) (title : Option String) : String :=
  (graph.picture title).text

end Dominance.FlowGraph
