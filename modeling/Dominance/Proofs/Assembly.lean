import Dominance.Proofs.Freshness
import Dominance.Proofs.Outline

namespace Dominance

/-!
# Assembled graphs

A graph is assembled from an entry, a list of addresses and a list of edges between
them.  Neither list has to be free of repetition: a block or an edge that is there
already changes nothing.  So the blocks and edges of the graph are what is left of the
lists if only the first of several equal elements is kept.
-/

/-- The first occurrences do not change if an element is kept only where it is new. -/
theorem eraseDups_append_cons
    {α : Type}
    [BEq α]
    [LawfulBEq α]
    (known : List α)
    (element : α)
    (rest : List α) :
    (known ++ element :: rest).eraseDups =
      ((if element ∈ known then known else known ++ [element]) ++ rest).eraseDups := by
  split
  · rename_i isKnown
    rw [List.eraseDups_append, List.eraseDups_append, List.cons_removeAll]
    simp [isKnown]
  · rw [List.append_assoc, List.singleton_append]

theorem eraseDups_of_nodup
    {α : Type}
    [BEq α]
    [LawfulBEq α]
    {elements : List α}
    (nodup : elements.Nodup) :
    elements.eraseDups = elements := by
  induction elements with
  | nil => rfl
  | cons element rest inductionHypothesis =>
      obtain ⟨isNew, restNodup⟩ := List.nodup_cons.mp nodup
      have othersStay : rest.filter (fun other => !other == element) = rest := by
        refine List.filter_eq_self.mpr fun other member => ?_
        simp only [Bool.not_eq_true', beq_eq_false_iff_ne]
        rintro rfl
        exact isNew member
      rw [List.eraseDups_cons, othersStay, inductionHypothesis restNodup]

namespace FlowGraph

/-- Both ends of every edge are the entry or one of the blocks. -/
def EdgesWithin
    (entry : Address)
    (blocks : List Address)
    (edges : List (Address × Address)) : Prop :=
  ∀ edge ∈ edges, edge.1 ∈ entry :: blocks ∧ edge.2 ∈ entry :: blocks

instance (entry : Address) (blocks : List Address) (edges : List (Address × Address)) :
    Decidable (EdgesWithin entry blocks edges) :=
  inferInstanceAs
    (Decidable (∀ edge ∈ edges, edge.1 ∈ entry :: blocks ∧ edge.2 ∈ entry :: blocks))

/-- The calls that add some blocks and then some edges. -/
def assembly (blocks : List Address) (edges : List (Address × Address)) : List Call :=
  blocks.map .addBlock ++ edges.map fun edge => .addEdge edge.1 edge.2

end FlowGraph

namespace Outline

variable {outline : Outline}

theorem eq_of_lists
    {other : Outline}
    (sameBlocks : outline.blocks = other.blocks)
    (sameEdges : outline.edges = other.edges) :
    outline = other := by
  cases outline
  cases other
  cases sameBlocks
  cases sameEdges
  rfl

/-- The edges of an outline join its blocks. -/
theorem edgesWithin
    (outline : Outline)
    (entry : Address) :
    FlowGraph.EdgesWithin entry outline.blocks outline.edges := by
  intro edge member
  obtain ⟨sourceInside, targetInside⟩ := outline.inside edge member
  exact ⟨List.mem_cons_of_mem entry sourceInside, List.mem_cons_of_mem entry targetInside⟩

/-! ## Blocks and edges in the outline -/

/-- Adding blocks one by one appends those that are new. -/
theorem blocks_addBlocks (outline : Outline) (addresses : List Address) :
    ((addresses.map .addBlock).foldl perform outline).blocks =
      (outline.blocks ++ addresses).eraseDups := by
  induction addresses generalizing outline with
  | nil => simp [eraseDups_of_nodup outline.blocks_nodup]
  | cons address rest inductionHypothesis =>
      rw [eraseDups_append_cons, ← blocks_addBlock]
      exact inductionHypothesis (outline.addBlock address)

theorem edges_addBlocks (outline : Outline) (addresses : List Address) :
    ((addresses.map .addBlock).foldl perform outline).edges = outline.edges := by
  induction addresses generalizing outline with
  | nil => rfl
  | cons address rest inductionHypothesis =>
      rw [← outline.edges_addBlock address]
      exact inductionHypothesis (outline.addBlock address)

theorem blocks_addEdges (outline : Outline) (edges : List (Address × Address)) :
    ((edges.map fun edge => .addEdge edge.1 edge.2).foldl perform outline).blocks =
      outline.blocks := by
  induction edges generalizing outline with
  | nil => rfl
  | cons edge rest inductionHypothesis =>
      rw [← outline.blocks_addEdge edge.1 edge.2]
      exact inductionHypothesis (outline.addEdge edge.1 edge.2)

/-- Adding edges between blocks one by one appends those that are new. -/
theorem edges_addEdges
    {edges : List (Address × Address)}
    (inside : ∀ edge ∈ edges, edge.1 ∈ outline.blocks ∧ edge.2 ∈ outline.blocks) :
    ((edges.map fun edge => .addEdge edge.1 edge.2).foldl perform outline).edges =
      (outline.edges ++ edges).eraseDups := by
  induction edges generalizing outline with
  | nil => simp [eraseDups_of_nodup outline.edges_nodup]
  | cons edge rest inductionHypothesis =>
      obtain ⟨endsKnown, restInside⟩ := List.forall_mem_cons.mp inside
      have edges_eq :
          (outline.addEdge edge.1 edge.2).edges =
            if edge ∈ outline.edges then outline.edges else outline.edges ++ [edge] := by
        simp [edges_addEdge, Lacks, endsKnown]
      rw [← outline.blocks_addEdge edge.1 edge.2] at restInside
      rw [eraseDups_append_cons, ← edges_eq]
      exact inductionHypothesis restInside

/-- A graph that is put together has the entry and the blocks, each once. -/
theorem blocks_assembly
    (entry : Address)
    (blocks : List Address)
    (edges : List (Address × Address)) :
    (after entry (FlowGraph.assembly blocks edges)).blocks = (entry :: blocks).eraseDups := by
  rw [after, FlowGraph.assembly, List.foldl_append, blocks_addEdges, blocks_addBlocks]
  rfl

/-- A graph that is put together has the edges, each once. -/
theorem edges_assembly
    {entry : Address}
    {blocks : List Address}
    {edges : List (Address × Address)}
    (within : FlowGraph.EdgesWithin entry blocks edges) :
    (after entry (FlowGraph.assembly blocks edges)).edges = edges.eraseDups := by
  rw [after, FlowGraph.assembly, List.foldl_append, edges_addEdges, edges_addBlocks]
  · rfl
  · simp only [blocks_addBlocks, List.mem_eraseDups]
    exact within

/-- Assembling the blocks and edges of an outline makes the outline again. -/
theorem after_assembly
    {entry : Address}
    (isFirst : outline.blocks.head? = some entry) :
    after entry (FlowGraph.assembly outline.blocks outline.edges) = outline := by
  obtain ⟨rest, blocks_eq⟩ := List.head?_eq_some_iff.mp isFirst
  have sameBlocks : (entry :: outline.blocks).eraseDups = outline.blocks := by
    calc
      (entry :: outline.blocks).eraseDups = ([entry] ++ entry :: rest).eraseDups := by
        rw [blocks_eq, List.singleton_append]
      _ = ([entry] ++ rest).eraseDups := by
        rw [eraseDups_append_cons, if_pos (List.mem_singleton.mpr rfl)]
      _ = outline.blocks := by
        rw [List.singleton_append, ← blocks_eq, eraseDups_of_nodup outline.blocks_nodup]
  refine eq_of_lists ?_ ?_
  · rw [blocks_assembly, sameBlocks]
  · rw [edges_assembly (outline.edgesWithin entry), eraseDups_of_nodup outline.edges_nodup]

end Outline

namespace FlowGraph

variable {graph : FlowGraph}

/-! ## Assembled graphs exist -/

/-- A graph knows the addresses that stand at its positions. -/
theorem contains_iff {address : Address} :
    graph.contains address = true ↔ ∃ position, graph.addressAt? position = some address := by
  rw [contains, Option.isSome_iff_ne_none, Ne, position?_eq_none_iff]
  simp only [ne_eq, Classical.not_forall, Classical.not_not]

/-- A known block stays known, whatever is called for. -/
theorem contains_perform
    {address : Address}
    (known : graph.contains address = true)
    (call : Call) :
    (graph.perform call).contains address = true := by
  obtain ⟨position, stands⟩ := contains_iff.mp known
  exact contains_iff.mpr ⟨position, addressAt?_perform stands call⟩

/-- Adding a block that is there changes nothing. -/
theorem addBlock_of_contains
    {address : Address}
    (known : graph.contains address = true) :
    (graph.addBlock address).1 = graph := by
  obtain ⟨position, found⟩ := Option.isSome_iff_exists.mp known
  simp only [addBlock, found]

theorem contains_addBlock (graph : FlowGraph) (address : Address) :
    (graph.addBlock address).1.contains address = true := by
  cases isNew : graph.position? address with
  | some position =>
      have known : graph.contains address = true := by rw [contains, isNew, Option.isSome_some]
      rw [addBlock_of_contains known, known]
  | none => exact contains_iff.mpr ⟨graph.size, by rw [addressAt?_addBlock isNew, if_pos rfl]⟩

/-- Adding blocks that are there already changes nothing. -/
theorem addBlocks_of_contains
    {addresses : List Address}
    (known : ∀ address ∈ addresses, graph.contains address = true) :
    addresses.foldl (fun graph address => (graph.addBlock address).1) graph = graph := by
  induction addresses with
  | nil => rfl
  | cons address rest inductionHypothesis =>
      obtain ⟨isKnown, restKnown⟩ := List.forall_mem_cons.mp known
      rw [List.foldl_cons, addBlock_of_contains isKnown, inductionHypothesis restKnown]

/-- Adding an edge between known blocks succeeds. -/
theorem exists_addEdge_eq_ok
    {source target : Address}
    (sourceKnown : graph.contains source = true)
    (targetKnown : graph.contains target = true) :
    ∃ isNew, graph.addEdge source target = .ok (graph.perform (.addEdge source target), isNew) := by
  obtain ⟨first, sourceFound⟩ := Option.isSome_iff_exists.mp sourceKnown
  obtain ⟨second, targetFound⟩ := Option.isSome_iff_exists.mp targetKnown
  simp only [perform, addEdge, sourceFound, targetFound]
  cases graph.hasEdge first second with
  | true => exact ⟨false, rfl⟩
  | false => exact ⟨true, rfl⟩

/-- Adding edges between known blocks succeeds. -/
theorem addEdges_eq_ok
    {edges : List (Address × Address)}
    (inside : ∀ edge ∈ edges, graph.contains edge.1 = true ∧ graph.contains edge.2 = true) :
    graph.addEdges edges =
      .ok ((edges.map fun edge => .addEdge edge.1 edge.2).foldl perform graph) := by
  induction edges generalizing graph with
  | nil => rfl
  | cons edge rest inductionHypothesis =>
      obtain ⟨⟨sourceKnown, targetKnown⟩, restInside⟩ := List.forall_mem_cons.mp inside
      obtain ⟨isNew, added⟩ := exists_addEdge_eq_ok sourceKnown targetKnown
      simp only [addEdges, added]
      refine inductionHypothesis fun other member => ?_
      exact ⟨contains_perform (restInside other member).1 _,
        contains_perform (restInside other member).2 _⟩

theorem foldl_addBlock_eq (entry : Address) (blocks : List Address) :
    blocks.foldl (fun graph address => (graph.addBlock address).1) (new entry) =
      after entry (assembly blocks []) := by
  rw [after, assembly, List.map_nil, List.append_nil, List.foldl_map]
  rfl

/-- A graph that is put together knows the entry and the blocks. -/
theorem contains_assembly_iff
    {entry address : Address}
    {blocks : List Address}
    {edges : List (Address × Address)} :
    (after entry (assembly blocks edges)).contains address = true ↔ address ∈ entry :: blocks := by
  obtain ⟨_, same⟩ := exists_matches entry (assembly blocks edges)
  rw [same.contains_iff, Outline.blocks_assembly, List.mem_eraseDups]

/-- Edges between given blocks can be assembled. -/
theorem assemble_eq_ok
    {entry : Address}
    {blocks : List Address}
    {edges : List (Address × Address)}
    (within : EdgesWithin entry blocks edges) :
    assemble entry blocks edges = .ok (after entry (assembly blocks edges)) := by
  rw [assemble, foldl_addBlock_eq, addEdges_eq_ok]
  · rw [after, after, ← List.foldl_append, assembly, assembly, List.map_nil, List.append_nil]
  · intro edge member
    simp only [contains_assembly_iff]
    exact within edge member

/-- Blocks that are given once more make no difference. -/
theorem assemble_append
    {entry : Address}
    {blocks others : List Address}
    (known : ∀ address ∈ others, address ∈ entry :: blocks)
    (edges : List (Address × Address)) :
    assemble entry (entry :: blocks ++ others) edges = assemble entry blocks edges := by
  have entryKnown : (new entry).contains entry = true :=
    contains_iff.mpr ⟨0, (new entry).addressAt?_zero⟩
  rw [assemble, List.foldl_append, List.foldl_cons, addBlock_of_contains entryKnown,
    addBlocks_of_contains, ← assemble]
  intro address member
  rw [foldl_addBlock_eq, contains_assembly_iff]
  exact known address member

theorem unnumbered_assembly
    (entry : Address)
    (blocks : List Address)
    (edges : List (Address × Address)) :
    (after entry (assembly blocks edges)).Unnumbered := by
  refine unnumbered_foldl ?_ ?_ (unnumbered_new entry)
  · intro call member
    rcases List.mem_append.mp member with isBlock | isEdge
    · obtain ⟨_, _, rfl⟩ := List.mem_map.mp isBlock
      exact id
    · obtain ⟨_, _, rfl⟩ := List.mem_map.mp isEdge
      exact id
  · simp [assembly]

/-- The blocks of a graph without indices are known by their addresses. -/
theorem Unnumbered.nodes_eq
    (unnumbered : graph.Unnumbered) :
    graph.nodes = (graph.nodes.map Node.address).map fun address => ⟨address, none⟩ := by
  calc
    graph.nodes = graph.nodes.map id := (List.map_id _).symm
    _ = graph.nodes.map fun node => ⟨node.address, none⟩ :=
      List.map_congr_left fun node member => by rw [← unnumbered node member]; rfl
    _ = (graph.nodes.map Node.address).map fun address => ⟨address, none⟩ := by
      rw [List.map_map]
      rfl

/-! ## Graphs with the same outline -/

namespace Matches

variable {other : FlowGraph} {edges others : List (Nat × Nat)} {outline : Outline}

/-- Graphs with one outline have the same addresses at the same positions. -/
theorem addressAt?_eq
    (same : graph.Matches edges outline)
    (alike : other.Matches others outline) :
    other.addressAt? = graph.addressAt? := by
  funext position
  rw [← getElem?_addresses, ← getElem?_addresses, same.blocks_eq, alike.blocks_eq]

/-- The ends of an edge stand where the outline has their addresses. -/
theorem edges_eq
    (same : graph.Matches edges outline)
    (alike : other.Matches others outline) :
    others = edges := by
  have joined := alike.joins
  rw [joins_congr (same.addressAt?_eq alike)] at joined
  have samePositions : Relator.LeftUnique graph.Joins := by
    intro first edge second firstJoins secondJoins
    exact Prod.ext (same.records.distinct _ _ _ firstJoins.1 secondJoins.1)
      (same.records.distinct _ _ _ firstJoins.2 secondJoins.2)
  exact List.left_unique_forall₂' samePositions joined same.joins

/-- All of a graph but the indices is known from its outline. -/
theorem bare_eq
    (same : graph.Matches edges outline)
    (alike : other.Matches others outline) :
    other.bare = graph.bare := by
  obtain rfl := same.edges_eq alike
  have sameBlocks : other.blocks.map Block.unnumbered = graph.blocks.map Block.unnumbered := by
    apply Array.ext_getElem?
    intro position
    have sameAddress := congrFun (same.addressAt?_eq alike) position
    simp only [addressAt?] at sameAddress
    rw [Array.getElem?_map, Array.getElem?_map]
    cases stands : graph.blocks[position]? with
    | none =>
        rw [stands, Option.map_none, Option.map_eq_none_iff] at sameAddress
        rw [sameAddress]
    | some block =>
        rw [stands, Option.map_some, Option.map_eq_some_iff] at sameAddress
        obtain ⟨twin, twinStands, isTwin⟩ := sameAddress
        obtain ⟨successors_eq, predecessors_eq⟩ := same.records.lists_eq position block stands
        obtain ⟨twinSuccessors_eq, twinPredecessors_eq⟩ :=
          alike.records.lists_eq position twin twinStands
        simp [twinStands, Block.unnumbered, isTwin, successors_eq, predecessors_eq,
          twinSuccessors_eq, twinPredecessors_eq]
  have sameCount : other.edgeCount = graph.edgeCount := by
    rw [same.edgeCount_eq, alike.edgeCount_eq]
  simp only [bare, sameBlocks, sameCount]

end Matches

theorem Unnumbered.bare_eq (unnumbered : graph.Unnumbered) : graph.bare = graph := by
  have unchanged : graph.blocks.map Block.unnumbered = graph.blocks.map id := by
    refine Array.map_congr_left fun block member => ?_
    have noIndex : block.postorder = none :=
      unnumbered block.toNode (List.mem_map_of_mem (Array.mem_toList_iff.mpr member))
    simp [Block.unnumbered, ← noIndex]
  rw [Array.map_id] at unchanged
  simp only [bare, unchanged]

/-- Every graph can be assembled, whatever the calls that it comes from. -/
theorem exists_assemble_eq_ok
    (entry : Address)
    (calls : List Call) :
    ∃ blocks edges,
      EdgesWithin entry blocks edges ∧
        assemble entry blocks edges = .ok (after entry calls).bare := by
  obtain ⟨_, same⟩ := exists_matches entry calls
  generalize Outline.after entry calls = outline at same
  refine ⟨outline.blocks, outline.edges, outline.edgesWithin entry, ?_⟩
  have isFirst := same.entry_eq
  rw [entry_after] at isFirst
  obtain ⟨_, alike⟩ := exists_matches entry (assembly outline.blocks outline.edges)
  rw [Outline.after_assembly isFirst] at alike
  rw [assemble_eq_ok (outline.edgesWithin entry), ← same.bare_eq alike,
    (unnumbered_assembly _ _ _).bare_eq]

end FlowGraph

end Dominance
