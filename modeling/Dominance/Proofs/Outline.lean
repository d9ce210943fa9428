import Mathlib.Data.List.Forall2
import Dominance.Proofs.Calls

namespace Dominance

/-!
# Flow graphs as lists of blocks and edges

The outline of a flow graph is a list of different addresses, the entry first, and a
list of different edges between them, both in the order in which they were added.
Postorder indices are no part of it.

A graph keeps more than that: two lists at every block, positions in place of
addresses, and a count of the edges.  All of it stays in step with the outline
through every sequence of calls, also of calls that fail, so every question about
blocks and edges has the answer that the outline gives.
-/

/-- Different addresses and different edges between them, both in order. -/
structure Outline where
  blocks : List Address
  edges : List (Address × Address)
  blocks_nodup : blocks.Nodup
  edges_nodup : edges.Nodup
  inside : ∀ edge ∈ edges, edge.1 ∈ blocks ∧ edge.2 ∈ blocks

namespace Outline

/-- The entry alone. -/
def new (entry : Address) : Outline where
  blocks := [entry]
  edges := []
  blocks_nodup := List.nodup_singleton entry
  edges_nodup := List.nodup_nil
  inside := by simp

/-- Append an address, unless it is there already. -/
def addBlock (outline : Outline) (address : Address) : Outline :=
  if known : address ∈ outline.blocks then
    outline
  else
    { blocks := outline.blocks ++ [address]
      edges := outline.edges
      blocks_nodup :=
        outline.blocks_nodup.append (List.nodup_singleton address) (by simpa using known)
      edges_nodup := outline.edges_nodup
      inside := fun edge member =>
        ⟨List.mem_append_left _ (outline.inside edge member).1,
          List.mem_append_left _ (outline.inside edge member).2⟩ }

/-- An edge between known addresses is missing. -/
def Lacks (outline : Outline) (source target : Address) : Prop :=
  source ∈ outline.blocks ∧ target ∈ outline.blocks ∧ (source, target) ∉ outline.edges

instance (outline : Outline) (source target : Address) :
    Decidable (outline.Lacks source target) :=
  inferInstanceAs (Decidable (_ ∧ _ ∧ _))

/-- Append an edge between known addresses, unless it is there already. -/
def addEdge (outline : Outline) (source target : Address) : Outline :=
  if missing : outline.Lacks source target then
    { blocks := outline.blocks
      edges := outline.edges ++ [(source, target)]
      blocks_nodup := outline.blocks_nodup
      edges_nodup :=
        outline.edges_nodup.append (List.nodup_singleton _) (by simpa using missing.2.2)
      inside := by
        intro edge member
        rcases List.mem_append.mp member with isOld | isNew
        · exact outline.inside edge isOld
        · rw [List.mem_singleton.mp isNew]
          exact ⟨missing.1, missing.2.1⟩ }
  else
    outline

/-- A block is appended unless it is there. -/
theorem blocks_addBlock
    (outline : Outline)
    (address : Address) :
    (outline.addBlock address).blocks =
      if address ∈ outline.blocks then outline.blocks else outline.blocks ++ [address] := by
  rw [addBlock]
  split <;> rfl

@[simp] theorem edges_addBlock
    (outline : Outline)
    (address : Address) :
    (outline.addBlock address).edges = outline.edges := by
  rw [addBlock]
  split <;> rfl

@[simp] theorem blocks_addEdge
    (outline : Outline)
    (source target : Address) :
    (outline.addEdge source target).blocks = outline.blocks := by
  rw [addEdge]
  split <;> rfl

/-- An edge is appended if it is missing between two blocks. -/
theorem edges_addEdge
    (outline : Outline)
    (source target : Address) :
    (outline.addEdge source target).edges =
      if outline.Lacks source target then
        outline.edges ++ [(source, target)]
      else
        outline.edges := by
  rw [addEdge]
  split <;> rfl

/-- The addresses that edges from an address lead to, in the order of the edges. -/
def targets (outline : Outline) (source : Address) : List Address :=
  (outline.edges.filter fun edge => edge.1 = source).map Prod.snd

/-- The addresses that edges to an address come from, in the order of the edges. -/
def sources (outline : Outline) (target : Address) : List Address :=
  (outline.edges.filter fun edge => edge.2 = target).map Prod.fst

theorem targets_eq_nil
    {outline : Outline}
    {address : Address}
    (unknown : address ∉ outline.blocks) :
    outline.targets address = [] := by
  simp only [targets, List.map_eq_nil_iff, List.filter_eq_nil_iff, decide_eq_true_eq]
  rintro edge member rfl
  exact unknown (outline.inside edge member).1

theorem sources_eq_nil
    {outline : Outline}
    {address : Address}
    (unknown : address ∉ outline.blocks) :
    outline.sources address = [] := by
  simp only [sources, List.map_eq_nil_iff, List.filter_eq_nil_iff, decide_eq_true_eq]
  rintro edge member rfl
  exact unknown (outline.inside edge member).2

/-- The outline after a call; postorder indices do not matter. -/
def perform (outline : Outline) : FlowGraph.Call → Outline
  | .addBlock address => outline.addBlock address
  | .addEdge source target => outline.addEdge source target
  | .setPostorder _ _ => outline
  | .number => outline

/-- The outline that some calls make of an entry. -/
def after (entry : Address) (calls : List FlowGraph.Call) : Outline :=
  calls.foldl perform (new entry)

end Outline

namespace FlowGraph

variable {graph : FlowGraph} {edges : List (Nat × Nat)} {outline : Outline} {address : Address}

theorem getElem?_addresses
    (graph : FlowGraph)
    (position : Nat) :
    (graph.nodes.map Node.address)[position]? = graph.addressAt? position := by
  simp [nodes, addressAt?, Function.comp_def]

/-! ## Positions and addresses -/

/-- The edge between two positions is the edge between the addresses there. -/
def Joins
    (graph : FlowGraph)
    (positions : Nat × Nat)
    (edge : Address × Address) : Prop :=
  graph.addressAt? positions.1 = some edge.1 ∧ graph.addressAt? positions.2 = some edge.2

theorem addresses_congr
    {other : FlowGraph}
    (same : other.addressAt? = graph.addressAt?) :
    other.nodes.map Node.address = graph.nodes.map Node.address := by
  refine List.ext_getElem? fun position => ?_
  rw [getElem?_addresses, getElem?_addresses, same]

/-- Which addresses an edge joins depends on where they stand only. -/
theorem joins_congr
    {other : FlowGraph}
    (same : other.addressAt? = graph.addressAt?) :
    other.Joins = graph.Joins := by
  funext positions edge
  rw [Joins, same, Joins]

theorem Joins.swap
    {positions : Nat × Nat}
    {edge : Address × Address}
    (joins : graph.Joins positions edge) :
    graph.Joins positions.swap edge.swap :=
  ⟨joins.2, joins.1⟩

namespace Records

/-- An edge starts at a position exactly if it starts at the address there. -/
theorem fst_eq_iff
    (records : graph.Records edges)
    {positions : Nat × Nat}
    {edge : Address × Address}
    {position : Nat}
    (joined : graph.Joins positions edge)
    (stands : graph.addressAt? position = some address) :
    positions.1 = position ↔ edge.1 = address := by
  constructor
  · intro same
    rw [← same, joined.1] at stands
    exact Option.some.inj stands
  · intro same
    exact records.distinct _ _ _ joined.1 (same ▸ stands)

/-- An edge between two positions is an edge between the addresses there. -/
theorem mem_iff_of_joins
    (records : graph.Records edges)
    {recorded : List (Nat × Nat)}
    {named : List (Address × Address)}
    (joins : List.Forall₂ graph.Joins recorded named)
    {first second : Nat}
    {source target : Address}
    (firstStands : graph.addressAt? first = some source)
    (secondStands : graph.addressAt? second = some target) :
    (first, second) ∈ recorded ↔ (source, target) ∈ named := by
  induction joins with
  | nil => simp
  | cons joined _ inductionHypothesis =>
      rw [List.mem_cons, List.mem_cons, inductionHypothesis]
      refine or_congr_left ?_
      simp only [Prod.ext_iff, eq_comm (a := first), eq_comm (a := second),
        eq_comm (a := source), eq_comm (a := target)]
      exact and_congr (records.fst_eq_iff joined firstStands)
        (records.fst_eq_iff joined.swap secondStands)

/-- The targets of the edges from a position are the targets of those from its address. -/
theorem addressesAt_targetsOf
    (records : graph.Records edges)
    {recorded : List (Nat × Nat)}
    {named : List (Address × Address)}
    (joins : List.Forall₂ graph.Joins recorded named)
    {position : Nat}
    (stands : graph.addressAt? position = some address) :
    graph.addressesAt (targetsOf recorded position) =
      (named.filter fun edge => edge.1 = address).map Prod.snd := by
  induction joins with
  | nil => rfl
  | @cons positions edge _ _ joined _ inductionHypothesis =>
      have sameStart := records.fst_eq_iff joined stands
      simp only [targetsOf, addressesAt] at inductionHypothesis ⊢
      by_cases isSource : positions.1 = position
      · simp [isSource, sameStart.mp isSource, joined.2, inductionHypothesis]
      · have notSource : edge.1 ≠ address := fun same => isSource (sameStart.mpr same)
        simp [isSource, notSource, inductionHypothesis]

/-- The sources of the edges to a position are the sources of those to its address. -/
theorem addressesAt_sourcesOf
    (records : graph.Records edges)
    {recorded : List (Nat × Nat)}
    {named : List (Address × Address)}
    (joins : List.Forall₂ graph.Joins recorded named)
    {position : Nat}
    (stands : graph.addressAt? position = some address) :
    graph.addressesAt (sourcesOf recorded position) =
      (named.filter fun edge => edge.2 = address).map Prod.fst := by
  -- Edges to a position are edges from it once all edges are turned round.
  have turned : List.Forall₂ graph.Joins (recorded.map Prod.swap) (named.map Prod.swap) := by
    rw [List.forall₂_map_left_iff, List.forall₂_map_right_iff]
    exact joins.imp fun _ _ joined => joined.swap
  have targets_eq := records.addressesAt_targetsOf turned stands
  simpa [targetsOf, sourcesOf, List.filter_map, Function.comp_def] using targets_eq

end Records

/-- A graph records the edges of an outline between the same blocks. -/
structure Matches
    (graph : FlowGraph)
    (edges : List (Nat × Nat))
    (outline : Outline) : Prop where
  records : graph.Records edges
  blocks_eq : graph.nodes.map Node.address = outline.blocks
  joins : List.Forall₂ graph.Joins edges outline.edges

theorem matches_new (entry : Address) : (new entry).Matches [] (Outline.new entry) where
  records := records_new entry
  blocks_eq := rfl
  joins := .nil

namespace Matches

/-- The blocks of the outline are those of the graph. -/
theorem mem_blocks_iff
    (same : graph.Matches edges outline) :
    address ∈ outline.blocks ↔ ∃ position, graph.addressAt? position = some address := by
  simp only [← same.blocks_eq, List.mem_iff_getElem?, getElem?_addresses]

theorem position?_of_not_mem
    (same : graph.Matches edges outline)
    (unknown : address ∉ outline.blocks) :
    graph.position? address = none :=
  position?_eq_none_iff.mpr fun position stands =>
    unknown (same.mem_blocks_iff.mpr ⟨position, stands⟩)

/-- A known address stands at its place in the outline. -/
theorem position?_of_mem
    (same : graph.Matches edges outline)
    (known : address ∈ outline.blocks) :
    graph.position? address = some (outline.blocks.idxOf address) := by
  rw [same.records.position?_eq_some_iff, ← getElem?_addresses, same.blocks_eq]
  exact List.getElem?_idxOf known

theorem size_eq
    (same : graph.Matches edges outline) :
    graph.size = outline.blocks.length := by
  simp [← same.blocks_eq, nodes, size]

/-! ## Calls and outlines -/

/-- What adding a block does, according to the outline. -/
theorem addBlock_eq
    (same : graph.Matches edges outline)
    (address : Address) :
    graph.addBlock address =
      if address ∈ outline.blocks then
        (graph, ⟨outline.blocks.idxOf address⟩)
      else
        (graph.perform (.addBlock address), ⟨outline.blocks.length⟩) := by
  split
  · rename_i known
    simp only [FlowGraph.addBlock, same.position?_of_mem known]
  · rename_i unknown
    simp only [perform, FlowGraph.addBlock, same.position?_of_not_mem unknown, same.size_eq]

/-- What adding an edge does, according to the outline. -/
theorem addEdge_eq
    (same : graph.Matches edges outline)
    (source target : Address) :
    graph.addEdge source target =
      if source ∉ outline.blocks then
        .error ⟨source⟩
      else if target ∉ outline.blocks then
        .error ⟨target⟩
      else if (source, target) ∈ outline.edges then
        .ok (graph, false)
      else
        .ok (graph.connect (outline.blocks.idxOf source) (outline.blocks.idxOf target), true) := by
  by_cases sourceKnown : source ∈ outline.blocks
  · have sourceFound := same.position?_of_mem sourceKnown
    by_cases targetKnown : target ∈ outline.blocks
    · have targetFound := same.position?_of_mem targetKnown
      have hasEdge_iff :
          graph.hasEdge (outline.blocks.idxOf source) (outline.blocks.idxOf target) = true ↔
            (source, target) ∈ outline.edges := by
        rw [same.records.hasEdge_eq_true_iff]
        exact same.records.mem_iff_of_joins same.joins
          (addressAt?_of_position? sourceFound) (addressAt?_of_position? targetFound)
      simp [FlowGraph.addEdge, sourceFound, targetFound, sourceKnown, targetKnown, hasEdge_iff]
    · simp [FlowGraph.addEdge, sourceFound, sourceKnown, targetKnown,
        same.position?_of_not_mem targetKnown]
  · simp [FlowGraph.addEdge, sourceKnown, same.position?_of_not_mem sourceKnown]

/-- Postorder indices are not seen in an outline. -/
theorem of_bare_eq
    (same : graph.Matches edges outline)
    {other : FlowGraph}
    (sameBare : other.bare = graph.bare) :
    other.Matches edges outline := by
  have sameAddresses : other.addressAt? = graph.addressAt? := by
    rw [← addressAt?_bare, sameBare, addressAt?_bare]
  exact
    { records := same.records.of_bare_eq sameBare
      blocks_eq := (addresses_congr sameAddresses).trans same.blocks_eq
      joins := joins_congr sameAddresses ▸ same.joins }

/-- Adding a block keeps a graph in step with its outline. -/
theorem addBlock
    (same : graph.Matches edges outline)
    (address : Address) :
    (graph.addBlock address).1.Matches edges (outline.addBlock address) := by
  refine ⟨same.records.addBlock address, ?_, ?_⟩
  · rw [Outline.blocks_addBlock, ← same.blocks_eq]
    split
    · rename_i known
      rw [same.addBlock_eq, if_pos (same.blocks_eq ▸ known)]
    · rename_i unknown
      have isNew := same.position?_of_not_mem (same.blocks_eq ▸ unknown)
      simp [FlowGraph.addBlock, isNew, nodes, Block.unnumbered, Function.comp_def]
  · rw [Outline.edges_addBlock]
    refine same.joins.imp fun positions edge joined => ?_
    exact ⟨addressAt?_addBlock_of_some address joined.1,
      addressAt?_addBlock_of_some address joined.2⟩

/-- An edge that the outline lacks connects the places of its ends. -/
theorem perform_addEdge_of_lacks
    (same : graph.Matches edges outline)
    {source target : Address}
    (missing : outline.Lacks source target) :
    graph.perform (.addEdge source target) =
      graph.connect (outline.blocks.idxOf source) (outline.blocks.idxOf target) := by
  obtain ⟨sourceKnown, targetKnown, isNew⟩ := missing
  simp [FlowGraph.perform, same.addEdge_eq, sourceKnown, targetKnown, isNew]

/-- Unless an edge is missing, adding it leaves all of the graph alone. -/
theorem perform_addEdge_of_not_lacks
    (same : graph.Matches edges outline)
    {source target : Address}
    (notMissing : ¬ outline.Lacks source target) :
    graph.perform (.addEdge source target) = graph := by
  rw [FlowGraph.perform, same.addEdge_eq]
  split_ifs with sourceKnown targetKnown isOld
  · rfl
  · exact absurd ⟨sourceKnown, targetKnown, isOld⟩ notMissing
  · rfl
  · rfl

/-- Adding an edge keeps a graph in step with its outline. -/
theorem addEdge
    (same : graph.Matches edges outline)
    (source target : Address) :
    ∃ recorded,
      (graph.perform (.addEdge source target)).Matches recorded
        (outline.addEdge source target) := by
  by_cases missing : outline.Lacks source target
  · have sourceStands := addressAt?_of_position? (same.position?_of_mem missing.1)
    have targetStands := addressAt?_of_position? (same.position?_of_mem missing.2.1)
    have notYet : (outline.blocks.idxOf source, outline.blocks.idxOf target) ∉ edges := by
      rw [same.records.mem_iff_of_joins same.joins sourceStands targetStands]
      exact missing.2.2
    have sameAddresses := graph.addressAt?_connect
      (outline.blocks.idxOf source) (outline.blocks.idxOf target)
    refine ⟨edges ++ [(outline.blocks.idxOf source, outline.blocks.idxOf target)], ?_⟩
    rw [same.perform_addEdge_of_lacks missing]
    refine ⟨same.records.connect (exists_addressAt?_iff.mp ⟨_, sourceStands⟩)
      (exists_addressAt?_iff.mp ⟨_, targetStands⟩) notYet, ?_, ?_⟩
    · rw [Outline.blocks_addEdge, addresses_congr sameAddresses]
      exact same.blocks_eq
    · rw [Outline.edges_addEdge, if_pos missing, joins_congr sameAddresses]
      exact List.rel_append same.joins (.cons ⟨sourceStands, targetStands⟩ .nil)
  · refine ⟨edges, ?_⟩
    rw [same.perform_addEdge_of_not_lacks missing, Outline.addEdge, dif_neg missing]
    exact same

/-- Every call keeps a graph in step with its outline. -/
theorem perform
    (same : graph.Matches edges outline)
    (call : Call) :
    ∃ recorded, (graph.perform call).Matches recorded (outline.perform call) := by
  cases call with
  | addBlock address => exact ⟨edges, same.addBlock address⟩
  | addEdge source target => exact same.addEdge source target
  | setPostorder address index =>
      rw [FlowGraph.perform]
      split
      · rename_i isChanged
        exact ⟨edges, same.of_bare_eq (bare_setPostorder isChanged)⟩
      · exact ⟨edges, same⟩
  | number => exact ⟨edges, same.of_bare_eq (bare_numbered graph)⟩

/-! ## Questions and outlines -/

theorem entry_eq
    (same : graph.Matches edges outline) :
    outline.blocks.head? = some graph.entry := by
  rw [← same.blocks_eq, List.head?_eq_getElem?, getElem?_addresses, addressAt?_zero]

/-- The edges of the graph are counted as those of the outline. -/
theorem edgeCount_eq
    (same : graph.Matches edges outline) :
    graph.edgeCount = outline.edges.length := by
  rw [same.records.edgeCount_eq, same.joins.length_eq]

theorem contains_iff
    (same : graph.Matches edges outline) :
    graph.contains address = true ↔ address ∈ outline.blocks := by
  by_cases known : address ∈ outline.blocks
  · simp [contains, same.position?_of_mem known, known]
  · simp [contains, same.position?_of_not_mem known, known]

theorem block?_of_not_mem
    (same : graph.Matches edges outline)
    (unknown : address ∉ outline.blocks) :
    graph.block? address = none := by
  refine Option.eq_none_iff_forall_ne_some.mpr fun block found => unknown ?_
  obtain ⟨position, stands, _⟩ := same.records.block?_eq_some_iff.mp found
  exact same.mem_blocks_iff.mpr ⟨position, stands⟩

/-- A known block is found where it stands. -/
theorem exists_block?
    (same : graph.Matches edges outline)
    (known : address ∈ outline.blocks) :
    ∃ position block,
      graph.block? address = some block ∧
        graph.addressAt? position = some address ∧
          graph.blocks[position]? = some block := by
  obtain ⟨position, stands⟩ := same.mem_blocks_iff.mp known
  obtain ⟨block, blockStands, _⟩ := Option.map_eq_some_iff.mp stands
  exact ⟨position, block,
    same.records.block?_eq_some_iff.mpr ⟨position, stands, blockStands⟩, stands, blockStands⟩

theorem isSome_block?_iff
    (same : graph.Matches edges outline) :
    (graph.block? address).isSome = true ↔ address ∈ outline.blocks := by
  by_cases known : address ∈ outline.blocks
  · obtain ⟨_, block, found, _⟩ := same.exists_block? known
    simp [found, known]
  · simp [same.block?_of_not_mem known, known]

/-- The successors of a block are the targets of its edges, in their order. -/
theorem successors_eq
    (same : graph.Matches edges outline)
    (address : Address) :
    graph.successors address = outline.targets address := by
  by_cases known : address ∈ outline.blocks
  · obtain ⟨position, block, found, stands, blockStands⟩ := same.exists_block? known
    have listed := (same.records.lists_eq position block blockStands).1
    simp only [successors, found, listed]
    exact same.records.addressesAt_targetsOf same.joins stands
  · simp only [successors, same.block?_of_not_mem known, Outline.targets_eq_nil known]

/-- The predecessors of a block are the sources of its edges, in their order. -/
theorem predecessors_eq
    (same : graph.Matches edges outline)
    (address : Address) :
    graph.predecessors address = outline.sources address := by
  by_cases known : address ∈ outline.blocks
  · obtain ⟨position, block, found, stands, blockStands⟩ := same.exists_block? known
    have listed := (same.records.lists_eq position block blockStands).2
    simp only [predecessors, found, listed]
    exact same.records.addressesAt_sourcesOf same.joins stands
  · simp only [predecessors, same.block?_of_not_mem known, Outline.sources_eq_nil known]

/-- A postorder index can be given to the blocks of the outline. -/
theorem setPostorder_eq
    (same : graph.Matches edges outline)
    (address : Address)
    (index : Nat) :
    graph.setPostorder address index =
      if address ∈ outline.blocks then
        .ok (graph.perform (.setPostorder address index))
      else
        .error ⟨address⟩ := by
  split
  · rename_i known
    simp only [FlowGraph.perform, setPostorder, same.position?_of_mem known]
  · rename_i unknown
    simp only [setPostorder, same.position?_of_not_mem unknown]

end Matches

/-! ## Sequences of calls -/

/-- Whatever the calls, the graph is in step with the outline that they make. -/
theorem exists_matches
    (entry : Address)
    (calls : List Call) :
    ∃ edges, (after entry calls).Matches edges (Outline.after entry calls) := by
  have keeps
      (calls : List Call)
      {graph : FlowGraph}
      {outline : Outline}
      (inStep : ∃ edges, graph.Matches edges outline) :
      ∃ edges,
        (calls.foldl FlowGraph.perform graph).Matches edges
          (calls.foldl Outline.perform outline) := by
    induction calls generalizing graph outline with
    | nil => exact inStep
    | cons call rest inductionHypothesis =>
        obtain ⟨edges, same⟩ := inStep
        exact inductionHypothesis (same.perform call)
  exact keeps calls ⟨[], matches_new entry⟩

/--
A graph is seen as an outline from outside.

The answers to all questions about blocks and edges are those of the outline, and so
is what the next call returns.
-/
structure Refines (graph : FlowGraph) (outline : Outline) : Prop where
  size_eq : graph.size = outline.blocks.length
  edgeCount_eq : graph.edgeCount = outline.edges.length
  entry_eq : outline.blocks.head? = some graph.entry
  nodes_eq : graph.nodes.map Node.address = outline.blocks
  contains_iff : ∀ address, graph.contains address = true ↔ address ∈ outline.blocks
  isSome_block?_iff :
    ∀ address, (graph.block? address).isSome = true ↔ address ∈ outline.blocks
  block?_mem :
    ∀ address block,
      graph.block? address = some block →
      block.address = address ∧ block.toNode ∈ graph.nodes
  successors_eq : ∀ address, graph.successors address = outline.targets address
  predecessors_eq : ∀ address, graph.predecessors address = outline.sources address
  unknown :
    ∀ address,
      address ∉ outline.blocks →
      graph.successors address = [] ∧ graph.predecessors address = []
  addBlock_eq :
    ∀ address,
      graph.addBlock address =
        if address ∈ outline.blocks then
          (graph, ⟨outline.blocks.idxOf address⟩)
        else
          (graph.perform (.addBlock address), ⟨outline.blocks.length⟩)
  addEdge_eq :
    ∀ source target,
      graph.addEdge source target =
        if source ∉ outline.blocks then
          .error ⟨source⟩
        else if target ∉ outline.blocks then
          .error ⟨target⟩
        else if (source, target) ∈ outline.edges then
          .ok (graph, false)
        else
          .ok (graph.perform (.addEdge source target), true)
  addEdge_unchanged :
    ∀ source target,
      ¬ outline.Lacks source target →
      graph.perform (.addEdge source target) = graph
  setPostorder_eq :
    ∀ address index,
      graph.setPostorder address index =
        if address ∈ outline.blocks then
          .ok (graph.perform (.setPostorder address index))
        else
          .error ⟨address⟩

/--
Every sequence of calls makes a graph that is seen as an outline, and the outline is
the one that the same calls make of the entry.

The next call leads to the graph and the outline of a longer sequence, so what it
returns and what it changes are both settled here.
-/
theorem after_refines_outline
    (entry : Address)
    (calls : List Call) :
    (after entry calls).Refines (Outline.after entry calls) := by
  obtain ⟨edges, same⟩ := exists_matches entry calls
  refine
    { size_eq := same.size_eq
      edgeCount_eq := same.edgeCount_eq
      entry_eq := same.entry_eq
      nodes_eq := same.blocks_eq
      contains_iff := fun _ => same.contains_iff
      isSome_block?_iff := fun _ => same.isSome_block?_iff
      block?_mem := ?_
      successors_eq := same.successors_eq
      predecessors_eq := same.predecessors_eq
      unknown := ?_
      addBlock_eq := same.addBlock_eq
      addEdge_eq := ?_
      addEdge_unchanged := fun _ _ => same.perform_addEdge_of_not_lacks
      setPostorder_eq := same.setPostorder_eq }
  · intro address block found
    refine ⟨by simpa using Array.find?_some found, ?_⟩
    exact List.mem_map_of_mem (Array.mem_toList_iff.mpr (Array.mem_of_find?_eq_some found))
  · intro address unknown
    rw [same.successors_eq, same.predecessors_eq]
    exact ⟨Outline.targets_eq_nil unknown, Outline.sources_eq_nil unknown⟩
  · intro source target
    rw [same.addEdge_eq]
    split_ifs with sourceKnown targetKnown isOld
    · rfl
    · rw [same.perform_addEdge_of_lacks ⟨sourceKnown, targetKnown, isOld⟩]
    · rfl
    · rfl

end FlowGraph

end Dominance
