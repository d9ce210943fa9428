import Dominance.Node
import Dominance.Walk

namespace Dominance

/-!
# Flow graphs

A flow graph is a list of blocks, the entry first, in the order in which they
were added.  Each block holds the positions of its successors and of its
predecessors, both in the order in which the edges were added.  The operations
give an address to one block at most and enter an edge once.

Adding a block or an edge discards the postorder numbering of the whole graph,
because it may no longer fit.
-/

/-- A block with its edges. -/
structure Block extends Node where
  /-- Positions of the blocks that edges from here lead to. -/
  successors : List Nat := []
  /-- Positions of the blocks that edges to here come from. -/
  predecessors : List Nat := []
  deriving DecidableEq, Repr

/-- Blocks and edges; the entry is the first block. -/
structure FlowGraph where
  blocks : Array Block
  edgeCount : Nat
  nonempty : 0 < blocks.size
  deriving DecidableEq

/-- An address that no block of the graph has. -/
structure UnknownBlock where
  address : Address
  deriving DecidableEq, Repr

/-- The wording for an unknown block. -/
def UnknownBlock.message (error : UnknownBlock) : String :=
  s!"Block {error.address} does not exist in the graph"

/-- Forget the postorder index of a block. -/
def Block.unnumbered (block : Block) : Block :=
  { block with postorder := none }

namespace FlowGraph

/-- The graph that holds the entry block only. -/
def new (entry : Address) : FlowGraph where
  blocks := #[{ address := entry }]
  edgeCount := 0
  nonempty := by simp

/-- The number of blocks. -/
def size (graph : FlowGraph) : Nat :=
  graph.blocks.size

/-- The address of the entry block. -/
def entry (graph : FlowGraph) : Address :=
  have := graph.nonempty
  graph.blocks[0].address

/-- The blocks with their postorder indices, in the order in which they were added. -/
def nodes (graph : FlowGraph) : List Node :=
  graph.blocks.toList.map Block.toNode

/-- The position of the block with an address. -/
def position? (graph : FlowGraph) (address : Address) : Option Nat :=
  graph.blocks.findIdx? fun block => block.address = address

/-- The block with an address. -/
def block? (graph : FlowGraph) (address : Address) : Option Block :=
  graph.blocks.find? fun block => block.address = address

/-- Whether a block has the address. -/
def contains (graph : FlowGraph) (address : Address) : Bool :=
  (graph.position? address).isSome

/-- The address of the block at a position. -/
def addressAt? (graph : FlowGraph) (position : Nat) : Option Address :=
  graph.blocks[position]?.map fun block => block.address

/-- The addresses of the blocks at some positions. -/
def addressesAt (graph : FlowGraph) (positions : List Nat) : List Address :=
  positions.filterMap graph.addressAt?

/-- The addresses that edges from a block lead to; an unknown block has none. -/
def successors (graph : FlowGraph) (address : Address) : List Address :=
  match graph.block? address with
  | none => []
  | some block => graph.addressesAt block.successors

/-- The addresses that edges to a block come from; an unknown block has none. -/
def predecessors (graph : FlowGraph) (address : Address) : List Address :=
  match graph.block? address with
  | none => []
  | some block => graph.addressesAt block.predecessors

/--
Add a block, or find the block that has the address already.

The result is the graph and the position of the block.
-/
def addBlock (graph : FlowGraph) (address : Address) : FlowGraph × BlockId :=
  match graph.position? address with
  | some position => (graph, ⟨position⟩)
  | none =>
      ({ blocks := (graph.blocks.map Block.unnumbered).push { address := address }
         edgeCount := graph.edgeCount
         nonempty := by simp },
        ⟨graph.size⟩)

/-- Whether there is an edge between the blocks at two positions. -/
def hasEdge (graph : FlowGraph) (source target : Nat) : Bool :=
  match graph.blocks[source]? with
  | none => false
  | some block => block.successors.contains target

/-- Enter an edge into the lists of both its ends. -/
def connect (graph : FlowGraph) (source target : Nat) : FlowGraph where
  blocks :=
    ((graph.blocks.modify source fun block =>
        { block with successors := block.successors ++ [target] }).modify target fun block =>
        { block with predecessors := block.predecessors ++ [source] }).map
      Block.unnumbered
  edgeCount := graph.edgeCount + 1
  nonempty := by simpa using graph.nonempty

/--
Add an edge between two blocks.

The result is the graph and whether the edge is new.  If both blocks are
unknown, the error names the source.
-/
def addEdge
    (graph : FlowGraph)
    (source target : Address) :
    Except UnknownBlock (FlowGraph × Bool) :=
  match graph.position? source with
  | none => .error ⟨source⟩
  | some sourcePosition =>
      match graph.position? target with
      | none => .error ⟨target⟩
      | some targetPosition =>
          if graph.hasEdge sourcePosition targetPosition then
            .ok (graph, false)
          else
            .ok (graph.connect sourcePosition targetPosition, true)

/-- Give one block a postorder index. -/
def setPostorder
    (graph : FlowGraph)
    (address : Address)
    (index : Nat) :
    Except UnknownBlock FlowGraph :=
  match graph.position? address with
  | none => .error ⟨address⟩
  | some position =>
      .ok
        { blocks :=
            graph.blocks.modify position fun block =>
              { block with postorder := some index }
          edgeCount := graph.edgeCount
          nonempty := by simpa using graph.nonempty }

/-- Add edges one after the other, up to the first that has an unknown end. -/
def addEdges
    (graph : FlowGraph) :
    List (Address × Address) → Except UnknownBlock FlowGraph
  | [] => .ok graph
  | edge :: rest =>
      match graph.addEdge edge.1 edge.2 with
      | .error unknown => .error unknown
      | .ok (extended, _) => extended.addEdges rest

/-- The graph with the given entry, blocks and edges, added in this order. -/
def assemble
    (entry : Address)
    (blocks : List Address)
    (edges : List (Address × Address)) :
    Except UnknownBlock FlowGraph :=
  (blocks.foldl (fun graph address => (graph.addBlock address).1) (new entry)).addEdges
    edges

/-- The positions of the blocks with their successors. -/
def digraph (graph : FlowGraph) : Digraph :=
  ⟨graph.blocks.map fun block => block.successors⟩

end FlowGraph

end Dominance
