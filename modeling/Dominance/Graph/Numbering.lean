import Dominance.Graph.Basic
import Dominance.Log

namespace Dominance.FlowGraph

/-!
# Postorder numbering

Blocks that the entry reaches are numbered in the order in which a depth-first
walk from the entry leaves them, so the entry has the highest index.  Blocks
that it does not reach come before them, in the order in which they were added.
-/

/-- The positions of the blocks that the entry reaches, in walk order. -/
def reached (graph : FlowGraph) : List Nat :=
  graph.digraph.postorder 0

/-- The positions of the blocks that the entry does not reach, in order. -/
def unreached (graph : FlowGraph) : List Nat :=
  let reached := graph.reached
  (List.range graph.size).filter fun position => !reached.contains position

/-- The positions of all blocks in the order of their postorder indices. -/
def numbering (graph : FlowGraph) : List Nat :=
  graph.unreached ++ graph.reached

/-- Give every block its postorder index. -/
def numbered (graph : FlowGraph) : FlowGraph where
  blocks :=
    let order := graph.numbering
    graph.blocks.mapIdx fun position block =>
      { block with postorder := order.idxOf? position }
  edgeCount := graph.edgeCount
  nonempty := by simpa using graph.nonempty

/-- The number of blocks that the entry does not reach. -/
def unreachableCount (graph : FlowGraph) : Nat :=
  graph.unreached.length

/-- Number the graph and report blocks that the entry does not reach. -/
def number (graph : FlowGraph) : Logged FlowGraph where
  value := graph.numbered
  log :=
    if 0 < graph.unreachableCount then
      [.unreachable graph.unreachableCount graph.size graph.entry]
    else
      []

/-- The addresses of the blocks that the entry reaches, the entry first. -/
def reversePostorder (graph : FlowGraph) : List Address :=
  graph.addressesAt graph.reached.reverse

end Dominance.FlowGraph
