import Mathlib.Data.List.Nodup
import Dominance.Proofs.Numbering

namespace Dominance

/-!
# Tables behind a flow graph

The blocks of a flow graph can be kept in tables that are indexed by position: one for the
blocks with their postorder indices, one for the positions that edges lead to and one for
those that they come from.  A further table has the position of every address, so that no
block has to be searched for, and the edges are counted.

Each call changes several tables.  They stay in step: after every call they hold what the
blocks of the flow graph hold, every answer is that of the flow graph, and no position in a
table is outside the tables.

Numbering marks the positions of the walk.  One counter runs through two loops: the first goes
over all positions and leaves out those with a mark, the second goes along the walk.
-/

instance : Hashable Address := ⟨fun address => hash address.value⟩

/-- The tables of a flow graph. -/
structure Arena where
  nodes : Array Node
  positions : Std.HashMap Address Nat
  outgoing : Array (List Nat)
  incoming : Array (List Nat)
  entry : Nat
  edgeCount : Nat

/-! ## One counter in two loops -/

/-- Blocks that are being numbered, with the index that is given next. -/
structure Counting where
  nodes : Array Node
  next : Nat

namespace Counting

/-- Give the next index to the block at a position. -/
def give (counting : Counting) (position : Nat) : Counting where
  nodes :=
    counting.nodes.modify position fun node => { node with postorder := some counting.next }
  next := counting.next + 1

/-- The block at each of some positions has the index that its place among them tells. -/
theorem getElem?_nodes_foldl_give
    {positions : List Nat}
    (nodup : positions.Nodup)
    (counting : Counting)
    (position : Nat) :
    (positions.foldl give counting).nodes[position]? =
      counting.nodes[position]?.map fun node =>
        (positions.idxOf? position).elim node fun place =>
          { node with postorder := some (counting.next + place) } := by
  induction positions generalizing counting with
  | nil => simp
  | cons first rest inductionHypothesis =>
      obtain ⟨notAgain, restNodup⟩ := List.nodup_cons.mp nodup
      rw [List.foldl_cons, inductionHypothesis restNodup, List.idxOf?_cons]
      simp only [give, Array.getElem?_modify]
      by_cases isFirst : first = position
      · subst isFirst
        rw [List.idxOf?_eq_none_iff.mpr notAgain]
        simp [Function.comp_def]
      · simp only [isFirst, if_false, beq_iff_eq]
        cases rest.idxOf? position with
        | none => rfl
        | some place => simp [Nat.add_assoc, Nat.add_comm 1]

/-- The counter counts the indices that were given. -/
theorem next_foldl_give
    (positions : List Nat)
    (counting : Counting) :
    (positions.foldl give counting).next = counting.next + positions.length := by
  induction positions generalizing counting with
  | nil => rfl
  | cons first rest inductionHypothesis =>
      rw [List.foldl_cons, inductionHypothesis, List.length_cons]
      simp only [give]
      omega

end Counting

/-- Marking some positions marks these and leaves all others alone. -/
theorem Digraph.isMarked_foldl_mark
    (marked : Array Bool)
    (positions : List Nat)
    (position : Nat) :
    isMarked (positions.foldl mark marked) position =
      (isMarked marked position || positions.contains position) := by
  induction positions generalizing marked with
  | nil => simp
  | cons first rest inductionHypothesis =>
      rw [List.foldl_cons, inductionHypothesis, isMarked_mark, List.contains_cons,
        Bool.or_assoc]
      rfl

/-- Positions are found by the addresses at them. -/
theorem FlowGraph.position?_congr
    {first second : FlowGraph}
    (same : first.addressAt? = second.addressAt?) :
    first.position? = second.position? := by
  have found (graph : FlowGraph) (address : Address) :
      graph.position? address =
        (graph.blocks.map fun block => block.address).findIdx? (· = address) := by
    rw [position?, Array.findIdx?_map]
    rfl
  have sameAddresses :
      first.blocks.map (fun block => block.address) =
        second.blocks.map fun block => block.address := by
    apply Array.ext_getElem?
    intro position
    rw [Array.getElem?_map, Array.getElem?_map]
    exact congrFun same position
  funext address
  rw [found, found, sameAddresses]

/-- What can be said of blocks without their postorder indices. -/
theorem FlowGraph.map_blocks_congr
    {Part : Type}
    {part : Block → Part}
    {first second : FlowGraph}
    (blind : ∀ block : Block, part block.unnumbered = part block)
    (same : first.bare = second.bare) :
    first.blocks.map part = second.blocks.map part := by
  have mapped (graph : FlowGraph) : graph.bare.blocks.map part = graph.blocks.map part := by
    rw [bare, Array.map_map]
    exact congrArg (graph.blocks.map ·) (funext blind)
  rw [← mapped, same, mapped]

namespace Arena

/-! ## Calls -/

/-- Tables for the entry block only. -/
def new (entry : Address) : Arena where
  nodes := #[{ address := entry }]
  positions := (∅ : Std.HashMap Address Nat).insert entry 0
  outgoing := #[[]]
  incoming := #[[]]
  entry := 0
  edgeCount := 0

/-- Remove all postorder indices. -/
def clear (arena : Arena) : Arena :=
  { arena with nodes := arena.nodes.map fun node => { node with postorder := none } }

/-- Add a block, or find the block that has the address already. -/
def addBlock (arena : Arena) (address : Address) : Arena × BlockId :=
  match arena.positions[address]? with
  | some position => (arena, ⟨position⟩)
  | none =>
      (clear
        { arena with
          nodes := arena.nodes.push { address := address }
          positions := arena.positions.insert address arena.nodes.size
          outgoing := arena.outgoing.push []
          incoming := arena.incoming.push [] },
        ⟨arena.nodes.size⟩)

/-- The position of a block, or an error that names it. -/
def find (arena : Arena) (address : Address) : Except UnknownBlock Nat :=
  (arena.positions[address]?).elim (.error ⟨address⟩) .ok

/-- Add an edge between two blocks; the result tells also whether it is new. -/
def addEdge
    (arena : Arena)
    (source target : Address) :
    Except UnknownBlock (Arena × Bool) :=
  (arena.find source).bind fun first =>
    (arena.find target).bind fun second =>
      if (arena.outgoing.getD first []).contains second then
        .ok (arena, false)
      else
        .ok
          (clear
            { arena with
              outgoing := arena.outgoing.modify first (· ++ [second])
              incoming := arena.incoming.modify second (· ++ [first])
              edgeCount := arena.edgeCount + 1 },
            true)

/-- Give one block a postorder index. -/
def setPostorder
    (arena : Arena)
    (address : Address)
    (index : Nat) :
    Except UnknownBlock Arena :=
  (arena.find address).bind fun position =>
    .ok
      { arena with
        nodes := arena.nodes.modify position fun node => { node with postorder := some index } }

/-- The positions with those that edges lead to. -/
def digraph (arena : Arena) : Digraph :=
  ⟨arena.outgoing⟩

/-- The indices of the blocks that the walk leaves out. -/
def countUnmarked (arena : Arena) (marked : Array Bool) : Counting :=
  (List.range arena.nodes.size).foldl
    (fun counting position =>
      if Digraph.isMarked marked position then counting else counting.give position)
    ⟨arena.nodes, 0⟩

/-- Number all blocks.  The result tells also how many the walk leaves out. -/
def number (arena : Arena) : Arena × Nat :=
  let order := arena.digraph.postorder arena.entry
  let marked := order.foldl Digraph.mark (Array.replicate arena.nodes.size false)
  let counting := arena.countUnmarked marked
  ({ arena with nodes := (order.foldl Counting.give counting).nodes }, counting.next)

/-! ## Questions -/

/-- The address of the entry block. -/
def entryAddress? (arena : Arena) : Option Address :=
  arena.nodes[arena.entry]?.map Node.address

/-- The block with an address. -/
def node? (arena : Arena) (address : Address) : Option Node :=
  (arena.positions[address]?).bind fun position => arena.nodes[position]?

/-- The addresses at the positions that a table lists for a block. -/
def adjacent
    (arena : Arena)
    (lists : Array (List Nat))
    (address : Address) :
    List Address :=
  (arena.positions[address]?).elim [] fun position =>
    (lists.getD position []).filterMap fun other => arena.nodes[other]?.map Node.address

/-- The addresses of the blocks of the walk, the entry first. -/
def reversePostorder (arena : Arena) : List Address :=
  (arena.digraph.postorder arena.entry).reverse.filterMap fun position =>
    arena.nodes[position]?.map Node.address

/-! ## Tables in step with a graph -/

/-- The tables hold what the blocks of a graph hold. -/
structure Shows (arena : Arena) (graph : FlowGraph) : Prop where
  nodes_eq : arena.nodes = graph.blocks.map Block.toNode
  positions_eq : ∀ address : Address, arena.positions[address]? = graph.position? address
  outgoing_eq : arena.outgoing = graph.blocks.map Block.successors
  incoming_eq : arena.incoming = graph.blocks.map Block.predecessors
  entry_eq : arena.entry = 0
  edgeCount_eq : arena.edgeCount = graph.edgeCount

/-- Tables for the entry block show the graph that holds this block only. -/
theorem shows_new (entry : Address) : (new entry).Shows (FlowGraph.new entry) where
  nodes_eq := by simp [new, FlowGraph.new]
  positions_eq := by
    intro address
    rw [new, Std.HashMap.getElem?_insert, FlowGraph.new, FlowGraph.position?]
    by_cases same : entry = address <;> simp [same]
  outgoing_eq := by simp [new, FlowGraph.new]
  incoming_eq := by simp [new, FlowGraph.new]
  entry_eq := rfl
  edgeCount_eq := rfl

namespace Shows

variable {arena : Arena} {graph : FlowGraph}

theorem size_nodes (shows : arena.Shows graph) : arena.nodes.size = graph.size := by
  rw [shows.nodes_eq, Array.size_map, FlowGraph.size]

/-- A new block has the position after all others. -/
theorem getElem?_positions_insert
    (shows : arena.Shows graph)
    {address : Address}
    (isNew : graph.position? address = none)
    (other : Address) :
    (arena.positions.insert address arena.nodes.size)[other]? =
      (graph.addBlock address).1.position? other := by
  have pushed :
      (graph.addBlock address).1.position? other =
        (graph.position? other).or (if address = other then some graph.size else none) := by
    have blocks_eq :
        (graph.addBlock address).1.blocks =
          (graph.blocks.map Block.unnumbered).push { address := address } := by
      simp only [FlowGraph.addBlock, isNew]
    have bare_eq :
        (graph.blocks.map Block.unnumbered).findIdx? (fun block => block.address = other) =
          graph.position? other :=
      congrFun graph.position?_bare other
    rw [FlowGraph.position?, blocks_eq, Array.findIdx?_push, bare_eq, Array.size_map,
      FlowGraph.size]
    simp only [decide_eq_true_eq]
  rw [pushed, Std.HashMap.getElem?_insert, shows.size_nodes, shows.positions_eq]
  by_cases same : address = other
  · subst same
    simp [isNew]
  · simp [same]

/-- A block is added to the tables as to the graph, and it is found at the same position. -/
theorem addBlock
    (shows : arena.Shows graph)
    (address : Address) :
    (arena.addBlock address).1.Shows (graph.addBlock address).1 ∧
      (arena.addBlock address).2 = (graph.addBlock address).2 := by
  rw [Arena.addBlock, shows.positions_eq address]
  cases isNew : graph.position? address with
  | some position =>
      simp only [FlowGraph.addBlock, isNew, and_true]
      exact shows
  | none =>
      have positions_eq := shows.getElem?_positions_insert isNew
      simp only [FlowGraph.addBlock, isNew] at positions_eq ⊢
      refine ⟨?_, by rw [shows.size_nodes]⟩
      exact
        { nodes_eq := by
            simp [Arena.clear, shows.nodes_eq, Function.comp_def, Block.unnumbered]
          positions_eq := positions_eq
          outgoing_eq := by
            simp [Arena.clear, shows.outgoing_eq, Function.comp_def, Block.unnumbered]
          incoming_eq := by
            simp [Arena.clear, shows.incoming_eq, Function.comp_def, Block.unnumbered]
          entry_eq := shows.entry_eq
          edgeCount_eq := shows.edgeCount_eq }

/-- An edge is entered into both tables as into the blocks at its ends. -/
theorem connect
    (shows : arena.Shows graph)
    (first second : Nat) :
    Shows
      (Arena.clear
        { arena with
          outgoing := arena.outgoing.modify first (· ++ [second])
          incoming := arena.incoming.modify second (· ++ [first])
          edgeCount := arena.edgeCount + 1 })
      (graph.connect first second) where
  nodes_eq := by
    apply Array.ext_getElem?
    intro position
    simp [Arena.clear, shows.nodes_eq, FlowGraph.getElem?_blocks_connect, Function.comp_def]
  positions_eq := by
    intro address
    rw [FlowGraph.position?_congr (graph.addressAt?_connect first second)]
    exact shows.positions_eq address
  outgoing_eq := by
    apply Array.ext_getElem?
    intro position
    simp only [Arena.clear, shows.outgoing_eq, Array.getElem?_modify, Array.getElem?_map,
      FlowGraph.getElem?_blocks_connect, Option.map_map]
    split <;> simp [*, Function.comp_def]
  incoming_eq := by
    apply Array.ext_getElem?
    intro position
    simp only [Arena.clear, shows.incoming_eq, Array.getElem?_modify, Array.getElem?_map,
      FlowGraph.getElem?_blocks_connect, Option.map_map]
    split <;> simp [*, Function.comp_def]
  entry_eq := shows.entry_eq
  edgeCount_eq := congrArg (· + 1) shows.edgeCount_eq

/-- An edge is added to the tables as to the graph, or the same block is unknown. -/
theorem addEdge
    (shows : arena.Shows graph)
    (source target : Address) :
    (∃ unknown,
      arena.addEdge source target = .error unknown ∧
        graph.addEdge source target = .error unknown) ∨
      ∃ tables changed isNew,
        arena.addEdge source target = .ok (tables, isNew) ∧
          graph.addEdge source target = .ok (changed, isNew) ∧ tables.Shows changed := by
  rw [Arena.addEdge, FlowGraph.addEdge, find, shows.positions_eq, find, shows.positions_eq]
  cases graph.position? source with
  | none => exact .inl ⟨⟨source⟩, rfl, rfl⟩
  | some first =>
      cases graph.position? target with
      | none => exact .inl ⟨⟨target⟩, rfl, rfl⟩
      | some second =>
          have isOld_eq :
              (arena.outgoing.getD first []).contains second = graph.hasEdge first second := by
            rw [shows.outgoing_eq, FlowGraph.hasEdge, Array.getD_eq_getD_getElem?,
              Array.getElem?_map]
            cases graph.blocks[first]? <;> rfl
          simp only [Option.elim_some, Except.bind, isOld_eq]
          cases graph.hasEdge first second with
          | true => exact .inr ⟨arena, graph, false, rfl, rfl, shows⟩
          | false => exact .inr ⟨_, _, true, rfl, rfl, shows.connect first second⟩

/-- Tables with other postorder indices show the graph that has these. -/
theorem renumber
    (shows : arena.Shows graph)
    {nodes : Array Node}
    {renumbered : FlowGraph}
    (sameBlocks : renumbered.bare = graph.bare)
    (nodes_eq : nodes = renumbered.blocks.map Block.toNode) :
    Shows { arena with nodes := nodes } renumbered where
  nodes_eq := nodes_eq
  positions_eq := by
    intro address
    rw [← FlowGraph.position?_bare, sameBlocks, FlowGraph.position?_bare]
    exact shows.positions_eq address
  outgoing_eq :=
    shows.outgoing_eq.trans (FlowGraph.map_blocks_congr (fun _ => rfl) sameBlocks.symm)
  incoming_eq :=
    shows.incoming_eq.trans (FlowGraph.map_blocks_congr (fun _ => rfl) sameBlocks.symm)
  entry_eq := shows.entry_eq
  edgeCount_eq := by
    have sameCount : renumbered.bare.edgeCount = graph.bare.edgeCount := by rw [sameBlocks]
    exact shows.edgeCount_eq.trans sameCount.symm

/-- A postorder index is given in the tables as in the graph, or the block is unknown. -/
theorem setPostorder
    (shows : arena.Shows graph)
    (address : Address)
    (index : Nat) :
    (∃ unknown,
      arena.setPostorder address index = .error unknown ∧
        graph.setPostorder address index = .error unknown) ∨
      ∃ tables changed,
        arena.setPostorder address index = .ok tables ∧
          graph.setPostorder address index = .ok changed ∧ tables.Shows changed := by
  rw [Arena.setPostorder, find, shows.positions_eq]
  cases found : graph.position? address with
  | none =>
      refine .inl ⟨⟨address⟩, rfl, ?_⟩
      rw [FlowGraph.setPostorder, found]
  | some position =>
      obtain ⟨changed, isChanged, blocks_eq⟩ :
          ∃ changed,
            graph.setPostorder address index = .ok changed ∧
              changed.blocks =
                graph.blocks.modify position fun block => { block with postorder := some index } := by
        rw [FlowGraph.setPostorder, found]
        exact ⟨_, rfl, rfl⟩
      refine .inr ⟨_, changed, rfl, isChanged,
        shows.renumber (FlowGraph.bare_setPostorder isChanged) ?_⟩
      apply Array.ext_getElem?
      intro other
      simp only [shows.nodes_eq, blocks_eq, Array.getElem?_modify, Array.getElem?_map]
      split <;> simp [Function.comp_def]

theorem digraph_eq (shows : arena.Shows graph) : arena.digraph = graph.digraph := by
  rw [Arena.digraph, FlowGraph.digraph, shows.outgoing_eq]

/-- The walk along the table of edges is the walk in the graph. -/
theorem postorder_eq (shows : arena.Shows graph) :
    arena.digraph.postorder arena.entry = graph.reached := by
  rw [shows.digraph_eq, shows.entry_eq, FlowGraph.reached]

/-- The positions without a mark are those that the walk leaves out. -/
theorem countUnmarked_eq (shows : arena.Shows graph) :
    arena.countUnmarked
        (graph.reached.foldl Digraph.mark (Array.replicate arena.nodes.size false)) =
      graph.unreached.foldl Counting.give ⟨arena.nodes, 0⟩ := by
  have unmarked :
      graph.unreached =
        (List.range arena.nodes.size).filter fun position =>
          !Digraph.isMarked
            (graph.reached.foldl Digraph.mark (Array.replicate arena.nodes.size false)) position := by
    rw [FlowGraph.unreached, shows.size_nodes]
    refine List.filter_congr fun position isPosition => ?_
    have notYet :
        Digraph.isMarked (Array.replicate graph.size false) position = false := by
      simp [Digraph.isMarked, List.mem_range.mp isPosition]
    rw [Digraph.isMarked_foldl_mark, notYet, Bool.false_or]
  rw [countUnmarked, unmarked, List.foldl_filter]
  refine List.foldl_ext _ _ _ fun counting position _ => ?_
  cases Digraph.isMarked
    (graph.reached.foldl Digraph.mark (Array.replicate arena.nodes.size false)) position <;> rfl

/-- The two loops give the indices of the numbering, and the first counts what the walk leaves out. -/
theorem number (shows : arena.Shows graph) :
    arena.number.1.Shows graph.numbered ∧ arena.number.2 = graph.unreachableCount := by
  rw [Arena.number, shows.postorder_eq, shows.countUnmarked_eq, ← List.foldl_append]
  refine ⟨shows.renumber graph.bare_numbered ?_, ?_⟩
  · apply Array.ext_getElem?
    intro position
    rw [← FlowGraph.numbering, Counting.getElem?_nodes_foldl_give graph.nodup_numbering]
    simp only [shows.nodes_eq, FlowGraph.numbered, Array.getElem?_map, Array.getElem?_mapIdx,
      Option.map_map]
    cases stands : graph.blocks[position]? with
    | none => rfl
    | some block =>
        have inside : position < graph.size := (Array.getElem?_eq_some_iff.mp stands).1
        obtain ⟨index, isIndex⟩ :=
          List.mem_iff_getElem?.mp (FlowGraph.mem_numbering_iff.mpr inside)
        rw [FlowGraph.idxOf?_numbering_eq_some_iff.mpr isIndex]
        simp
  · rw [Counting.next_foldl_give, Nat.zero_add]
    rfl

theorem addressAt?_eq (shows : arena.Shows graph) :
    (fun position : Nat => arena.nodes[position]?.map Node.address) = graph.addressAt? := by
  funext position
  rw [shows.nodes_eq, Array.getElem?_map, Option.map_map]
  rfl

/-- What a table lists for a block, if it lists what the graph lists. -/
theorem adjacent_eq
    (shows : arena.Shows graph)
    (part : Block → List Nat)
    (address : Address) :
    arena.adjacent (graph.blocks.map part) address =
      ((graph.block? address).map part).elim [] graph.addressesAt := by
  rw [adjacent, shows.positions_eq, shows.addressAt?_eq, FlowGraph.block?,
    Array.find?_eq_bind_findIdx?_getElem?, ← FlowGraph.position?]
  cases found : graph.position? address with
  | none => rfl
  | some position =>
      obtain ⟨inside, _⟩ := Array.findIdx?_eq_some_iff_getElem.mp found
      simp [inside, FlowGraph.addressesAt]

end Shows

/-- The tables give the answers of a graph, and no position in them leads out of them. -/
structure Answers (arena : Arena) (graph : FlowGraph) : Prop where
  nodes_eq : arena.nodes.toList = graph.nodes
  edgeCount_eq : arena.edgeCount = graph.edgeCount
  entry_eq : arena.entryAddress? = some graph.entry
  contains_eq : ∀ address, arena.positions.contains address = graph.contains address
  node?_eq : ∀ address, arena.node? address = (graph.block? address).map Block.toNode
  successors_eq : ∀ address, arena.adjacent arena.outgoing address = graph.successors address
  predecessors_eq : ∀ address, arena.adjacent arena.incoming address = graph.predecessors address
  reversePostorder_eq : arena.reversePostorder = graph.reversePostorder
  sizes : arena.outgoing.size = arena.nodes.size ∧ arena.incoming.size = arena.nodes.size
  positions_inside :
    ∀ (address : Address) (position : Nat),
      arena.positions[address]? = some position → position < arena.nodes.size
  edges_inside :
    ∀ positions ∈ arena.outgoing.toList ++ arena.incoming.toList,
      ∀ position ∈ positions, position < arena.nodes.size

/-- Tables that are in step with a graph give its answers. -/
theorem Shows.answers
    {arena : Arena}
    {graph : FlowGraph}
    {edges : List (Nat × Nat)}
    (shows : arena.Shows graph)
    (records : graph.Records edges) :
    arena.Answers graph where
  nodes_eq := by
    rw [shows.nodes_eq, Array.toList_map, FlowGraph.nodes]
  edgeCount_eq := shows.edgeCount_eq
  entry_eq := by
    rw [entryAddress?, shows.entry_eq, ← graph.addressAt?_zero, ← shows.addressAt?_eq]
  contains_eq := by
    intro address
    rw [Std.HashMap.contains_eq_isSome_getElem?, shows.positions_eq, FlowGraph.contains]
  node?_eq := by
    intro address
    rw [node?, shows.positions_eq, shows.nodes_eq, FlowGraph.block?,
      Array.find?_eq_bind_findIdx?_getElem?, ← FlowGraph.position?, Option.map_bind]
    simp [Function.comp_def]
  successors_eq := by
    intro address
    rw [shows.outgoing_eq, shows.adjacent_eq, FlowGraph.successors]
    cases graph.block? address <;> rfl
  predecessors_eq := by
    intro address
    rw [shows.incoming_eq, shows.adjacent_eq, FlowGraph.predecessors]
    cases graph.block? address <;> rfl
  reversePostorder_eq := by
    rw [reversePostorder, shows.postorder_eq, shows.addressAt?_eq]
    rfl
  sizes := by
    simp [shows.outgoing_eq, shows.incoming_eq, shows.nodes_eq]
  positions_inside := by
    intro address position found
    rw [shows.positions_eq] at found
    rw [shows.size_nodes]
    exact FlowGraph.exists_addressAt?_iff.mp ⟨_, FlowGraph.addressAt?_of_position? found⟩
  edges_inside := by
    intro positions listed position member
    rw [shows.size_nodes]
    rw [shows.outgoing_eq, shows.incoming_eq, Array.toList_map, Array.toList_map] at listed
    rcases List.mem_append.mp listed with isOutgoing | isIncoming
    · obtain ⟨block, isBlock, rfl⟩ := List.mem_map.mp isOutgoing
      obtain ⟨source, stands⟩ := List.mem_iff_getElem?.mp isBlock
      rw [Array.getElem?_toList] at stands
      rw [(records.lists_eq source block stands).1, FlowGraph.mem_targetsOf] at member
      exact (records.inside _ member).2
    · obtain ⟨block, isBlock, rfl⟩ := List.mem_map.mp isIncoming
      obtain ⟨target, stands⟩ := List.mem_iff_getElem?.mp isBlock
      rw [Array.getElem?_toList] at stands
      rw [(records.lists_eq target block stands).2, FlowGraph.mem_sourcesOf] at member
      exact (records.inside _ member).1

/-! ## Runs -/

/-- The tables after a call.  A call that fails leaves them alone. -/
def perform (arena : Arena) : FlowGraph.Call → Arena
  | .addBlock address => (arena.addBlock address).1
  | .addEdge source target =>
      ((arena.addEdge source target).map Prod.fst).toOption.getD arena
  | .setPostorder address index => (arena.setPostorder address index).toOption.getD arena
  | .number => arena.number.1

/-- Each call keeps the tables in step with the graph. -/
theorem Shows.perform
    {arena : Arena}
    {graph : FlowGraph}
    (shows : arena.Shows graph)
    (call : FlowGraph.Call) :
    (arena.perform call).Shows (graph.perform call) := by
  cases call with
  | addBlock address => exact (shows.addBlock address).1
  | addEdge source target =>
      rw [Arena.perform, FlowGraph.perform]
      rcases shows.addEdge source target with
          ⟨_, failed, failedToo⟩ | ⟨_, _, _, added, addedToo, showsChanged⟩
      · rw [failed, failedToo]
        exact shows
      · rw [added, addedToo]
        exact showsChanged
  | setPostorder address index =>
      rw [Arena.perform, FlowGraph.perform]
      rcases shows.setPostorder address index with
          ⟨_, failed, failedToo⟩ | ⟨_, _, given, givenToo, showsChanged⟩
      · rw [failed, failedToo]
        exact shows
      · rw [given, givenToo]
        exact showsChanged
  | number => exact shows.number.1

/-- The tables that some calls make of an entry block. -/
def after (entry : Address) (calls : List FlowGraph.Call) : Arena :=
  calls.foldl perform (new entry)

/-- Whatever the calls, the tables are in step with the graph and give its answers. -/
theorem answers_after (entry : Address) (calls : List FlowGraph.Call) :
    (after entry calls).Shows (FlowGraph.after entry calls) ∧
      (after entry calls).Answers (FlowGraph.after entry calls) := by
  have keeps
      (calls : List FlowGraph.Call)
      {arena : Arena}
      {graph : FlowGraph}
      (shows : arena.Shows graph) :
      (calls.foldl perform arena).Shows (calls.foldl FlowGraph.perform graph) := by
    induction calls generalizing arena graph with
    | nil => exact shows
    | cons call rest inductionHypothesis => exact inductionHypothesis (shows.perform call)
  have shows := keeps calls (shows_new entry)
  obtain ⟨edges, records⟩ : ∃ edges, (FlowGraph.after entry calls).Records edges :=
    FlowGraph.Constructible.exists_records ⟨entry, calls, rfl⟩
  exact ⟨shows, shows.answers records⟩

end Arena

end Dominance
