import Mathlib.Data.List.Nodup
import Dominance.Graph.Numbering

namespace Dominance.FlowGraph

/-!
# Flow graphs that operations lead to

A flow graph changes only through a few calls.  Whatever the calls, its blocks have
different addresses, and the lists at its blocks record one list of edges: the
successors of a block are the targets of the edges from it, the predecessors the
sources of the edges to it, both in the order of the list.

A postorder index says nothing about blocks and edges, so all questions about these
have the same answer once the indices are removed.
-/

variable {graph : FlowGraph} {address : Address} {position : Nat}

/-- A block is found at the position where its address stands. -/
theorem addressAt?_of_position?
    (found : graph.position? address = some position) :
    graph.addressAt? position = some address := by
  obtain ⟨inside, isFound, _⟩ := Array.findIdx?_eq_some_iff_getElem.mp found
  rw [addressAt?, Array.getElem?_eq_getElem inside]
  simpa using isFound

/-- No block is found for an address that no block has. -/
theorem position?_eq_none_iff :
    graph.position? address = none ↔
      ∀ position, graph.addressAt? position ≠ some address := by
  rw [position?, Array.findIdx?_eq_none_iff]
  constructor
  · intro noneFound position isAddress
    obtain ⟨block, stands, isBlock⟩ := Option.map_eq_some_iff.mp isAddress
    have := noneFound block (Array.mem_of_getElem? stands)
    simp [isBlock] at this
  · intro noneHas block member
    obtain ⟨position, inside, stands⟩ := Array.mem_iff_getElem.mp member
    have := noneHas position
    rw [addressAt?, Array.getElem?_eq_getElem inside, stands] at this
    simpa using this

/-- Addresses stand at the positions below the size. -/
theorem exists_addressAt?_iff :
    (∃ address, graph.addressAt? position = some address) ↔ position < graph.size := by
  simp only [addressAt?, Option.map_eq_some_iff]
  constructor
  · rintro ⟨_, block, stands, _⟩
    exact (Array.getElem?_eq_some_iff.mp stands).1
  · intro inside
    exact ⟨_, graph.blocks[position], Array.getElem?_eq_getElem inside, rfl⟩

/-- The entry stands at the first position. -/
theorem addressAt?_zero (graph : FlowGraph) :
    graph.addressAt? 0 = some graph.entry := by
  rw [addressAt?, Array.getElem?_eq_getElem graph.nonempty]
  rfl

/-! ## Graphs without postorder indices -/

/-- The same blocks and edges without postorder indices. -/
def bare (graph : FlowGraph) : FlowGraph where
  blocks := graph.blocks.map Block.unnumbered
  edgeCount := graph.edgeCount
  nonempty := by simpa using graph.nonempty

@[simp] theorem size_bare (graph : FlowGraph) : graph.bare.size = graph.size := by
  simp [bare, size]

@[simp] theorem addressAt?_bare (graph : FlowGraph) :
    graph.bare.addressAt? = graph.addressAt? := by
  funext position
  simp [bare, addressAt?, Option.map_map, Function.comp_def, Block.unnumbered]

@[simp] theorem entry_bare (graph : FlowGraph) : graph.bare.entry = graph.entry := by
  have := graph.bare.addressAt?_zero
  rw [addressAt?_bare, addressAt?_zero] at this
  exact (Option.some.inj this).symm

@[simp] theorem position?_bare (graph : FlowGraph) :
    graph.bare.position? = graph.position? := by
  funext address
  rw [position?, bare, Array.findIdx?_map]
  rfl

@[simp] theorem contains_bare (graph : FlowGraph) :
    graph.bare.contains = graph.contains := by
  funext address
  simp [contains]

@[simp] theorem block?_bare (graph : FlowGraph) (address : Address) :
    graph.bare.block? address = (graph.block? address).map Block.unnumbered := by
  rw [block?, bare, Array.find?_map]
  rfl

@[simp] theorem successors_bare (graph : FlowGraph) :
    graph.bare.successors = graph.successors := by
  funext address
  rw [successors, successors, block?_bare]
  cases graph.block? address <;> simp [addressesAt, Block.unnumbered]

@[simp] theorem predecessors_bare (graph : FlowGraph) :
    graph.bare.predecessors = graph.predecessors := by
  funext address
  rw [predecessors, predecessors, block?_bare]
  cases graph.block? address <;> simp [addressesAt, Block.unnumbered]

@[simp] theorem digraph_bare (graph : FlowGraph) : graph.bare.digraph = graph.digraph := by
  simp [bare, digraph, Function.comp_def, Block.unnumbered]

/-- Numbering changes nothing but postorder indices. -/
@[simp] theorem bare_numbered (graph : FlowGraph) : graph.numbered.bare = graph.bare := by
  simp only [bare, numbered, mk.injEq, and_true]
  apply Array.ext_getElem?
  intro position
  rw [Array.getElem?_map, Array.getElem?_map, Array.getElem?_mapIdx, Option.map_map]
  rfl

@[simp] theorem size_numbered (graph : FlowGraph) : graph.numbered.size = graph.size := by
  rw [← size_bare, bare_numbered, size_bare]

@[simp] theorem entry_numbered (graph : FlowGraph) : graph.numbered.entry = graph.entry := by
  rw [← entry_bare, bare_numbered, entry_bare]

@[simp] theorem contains_numbered (graph : FlowGraph) :
    graph.numbered.contains = graph.contains := by
  rw [← contains_bare, bare_numbered, contains_bare]

@[simp] theorem successors_numbered (graph : FlowGraph) :
    graph.numbered.successors = graph.successors := by
  rw [← successors_bare, bare_numbered, successors_bare]

@[simp] theorem predecessors_numbered (graph : FlowGraph) :
    graph.numbered.predecessors = graph.predecessors := by
  rw [← predecessors_bare, bare_numbered, predecessors_bare]

/-- Giving one block a postorder index changes nothing else. -/
theorem bare_setPostorder
    {index : Nat}
    {changed : FlowGraph}
    (isChanged : graph.setPostorder address index = .ok changed) :
    changed.bare = graph.bare := by
  rw [setPostorder] at isChanged
  split at isChanged
  · cases isChanged
  · obtain rfl := Except.ok.inj isChanged
    simp only [bare, mk.injEq, and_true]
    apply Array.ext_getElem?
    intro position
    rw [Array.getElem?_map, Array.getElem?_map, Array.getElem?_modify]
    split
    · rw [Option.map_map]
      rfl
    · rfl

/-! ## New blocks -/

/-- A new block comes after all others, which lose their postorder indices. -/
theorem getElem?_blocks_addBlock
    (isNew : graph.position? address = none)
    (position : Nat) :
    (graph.addBlock address).1.blocks[position]? =
      if position = graph.size then some { address := address }
      else graph.bare.blocks[position]? := by
  simp only [addBlock, isNew]
  rw [Array.getElem?_push, Array.size_map]
  rfl

/-- The address of a new block stands after all others. -/
theorem addressAt?_addBlock
    (isNew : graph.position? address = none)
    (position : Nat) :
    (graph.addBlock address).1.addressAt? position =
      if position = graph.size then some address else graph.addressAt? position := by
  rw [addressAt?, getElem?_blocks_addBlock isNew, ← addressAt?_bare]
  split <;> rfl

/-- Blocks stay where they are when a block is added. -/
theorem addressAt?_addBlock_of_some
    {other : Address}
    (address : Address)
    (stands : graph.addressAt? position = some other) :
    (graph.addBlock address).1.addressAt? position = some other := by
  cases isNew : graph.position? address with
  | some found =>
      simp only [addBlock, isNew]
      exact stands
  | none =>
      have inside := exists_addressAt?_iff.mp ⟨other, stands⟩
      rw [addressAt?_addBlock isNew, if_neg (Nat.ne_of_lt inside)]
      exact stands

theorem size_addBlock (isNew : graph.position? address = none) :
    (graph.addBlock address).1.size = graph.size + 1 := by
  simp [addBlock, isNew, size]

/-! ## New edges -/

/-- Connecting two blocks adds one successor and one predecessor and removes all indices. -/
theorem getElem?_blocks_connect
    (graph : FlowGraph)
    (source target position : Nat) :
    (graph.connect source target).blocks[position]? =
      (graph.blocks[position]?).map fun block =>
        { address := block.address
          postorder := none
          successors := block.successors ++ if source = position then [target] else []
          predecessors :=
            block.predecessors ++ if target = position then [source] else [] } := by
  simp only [connect, Array.getElem?_map, Array.getElem?_modify]
  cases graph.blocks[position]? <;> by_cases isSource : source = position <;>
    by_cases isTarget : target = position <;> simp [isSource, isTarget, Block.unnumbered]

/-- Connecting two blocks moves no block. -/
theorem addressAt?_connect
    (graph : FlowGraph)
    (source target : Nat) :
    (graph.connect source target).addressAt? = graph.addressAt? := by
  funext position
  rw [addressAt?, getElem?_blocks_connect, Option.map_map]
  rfl

theorem size_connect
    (graph : FlowGraph)
    (source target : Nat) :
    (graph.connect source target).size = graph.size := by
  simp [size, connect]

/-! ## Recorded edges -/

/-- The positions that edges lead to from a position. -/
def targetsOf (edges : List (Nat × Nat)) (source : Nat) : List Nat :=
  (edges.filter fun edge => edge.1 = source).map Prod.snd

/-- The positions from which edges lead to a position. -/
def sourcesOf (edges : List (Nat × Nat)) (target : Nat) : List Nat :=
  (edges.filter fun edge => edge.2 = target).map Prod.fst

@[simp] theorem mem_targetsOf
    {edges : List (Nat × Nat)}
    {source target : Nat} :
    target ∈ targetsOf edges source ↔ (source, target) ∈ edges := by
  simp [targetsOf]

@[simp] theorem mem_sourcesOf
    {edges : List (Nat × Nat)}
    {source target : Nat} :
    source ∈ sourcesOf edges target ↔ (source, target) ∈ edges := by
  simp [sourcesOf]

theorem targetsOf_append
    (edges : List (Nat × Nat))
    (source target position : Nat) :
    targetsOf (edges ++ [(source, target)]) position =
      targetsOf edges position ++ if source = position then [target] else [] := by
  by_cases same : source = position <;> simp [targetsOf, same]

theorem sourcesOf_append
    (edges : List (Nat × Nat))
    (source target position : Nat) :
    sourcesOf (edges ++ [(source, target)]) position =
      sourcesOf edges position ++ if target = position then [source] else [] := by
  by_cases same : target = position <;> simp [sourcesOf, same]

/-- The blocks of a graph have different addresses and list the same edges at both ends. -/
structure Records (graph : FlowGraph) (edges : List (Nat × Nat)) : Prop where
  distinct :
    ∀ first second address,
      graph.addressAt? first = some address →
      graph.addressAt? second = some address →
      first = second
  nodup : edges.Nodup
  inside : ∀ edge ∈ edges, edge.1 < graph.size ∧ edge.2 < graph.size
  edgeCount_eq : graph.edgeCount = edges.length
  lists_eq :
    ∀ position block,
      graph.blocks[position]? = some block →
      block.successors = targetsOf edges position ∧
        block.predecessors = sourcesOf edges position

/-- The entry alone has no edges. -/
theorem records_new (entry : Address) : (new entry).Records [] where
  distinct := by
    intro first second address firstStands secondStands
    have firstInside := exists_addressAt?_iff.mp ⟨_, firstStands⟩
    have secondInside := exists_addressAt?_iff.mp ⟨_, secondStands⟩
    simp only [size, new, List.size_toArray, List.length_singleton] at firstInside secondInside
    omega
  nodup := List.nodup_nil
  inside := by simp
  edgeCount_eq := rfl
  lists_eq := by
    intro position block stands
    have member := Array.mem_of_getElem? stands
    simp only [new, List.mem_toArray, List.mem_singleton] at member
    subst member
    exact ⟨rfl, rfl⟩

/-- The edges of a graph do not depend on its postorder indices. -/
theorem records_bare_iff
    {edges : List (Nat × Nat)} :
    graph.bare.Records edges ↔ graph.Records edges := by
  have bareBlock (position : Nat) :
      graph.bare.blocks[position]? = (graph.blocks[position]?).map Block.unnumbered :=
    Array.getElem?_map
  constructor
  · intro records
    refine ⟨?_, records.nodup, ?_, records.edgeCount_eq, ?_⟩
    · simpa using records.distinct
    · simpa using records.inside
    · intro position block stands
      exact records.lists_eq position block.unnumbered (by simp [bareBlock, stands])
  · intro records
    refine ⟨?_, records.nodup, ?_, records.edgeCount_eq, ?_⟩
    · simpa using records.distinct
    · simpa using records.inside
    · intro position bareOne stands
      rw [bareBlock, Option.map_eq_some_iff] at stands
      obtain ⟨block, stands, rfl⟩ := stands
      exact records.lists_eq position block stands

namespace Records

variable {edges : List (Nat × Nat)}

/-- Graphs that differ in postorder indices only record the same edges. -/
theorem of_bare_eq
    (records : graph.Records edges)
    {other : FlowGraph}
    (same : other.bare = graph.bare) :
    other.Records edges := by
  rw [← records_bare_iff, same, records_bare_iff]
  exact records

/-- In a graph that records edges an address stands at one position. -/
theorem position?_eq_some_iff
    (records : graph.Records edges) :
    graph.position? address = some position ↔
      graph.addressAt? position = some address := by
  constructor
  · exact addressAt?_of_position?
  · intro stands
    cases found : graph.position? address with
    | none => exact (position?_eq_none_iff.mp found position stands).elim
    | some other =>
        rw [records.distinct other position address (addressAt?_of_position? found) stands]

/-- No edge can leave or enter a position outside the graph. -/
theorem lists_eq_nil
    (records : graph.Records edges)
    (outside : graph.size ≤ position) :
    targetsOf edges position = [] ∧ sourcesOf edges position = [] := by
  constructor <;> rw [List.eq_nil_iff_forall_not_mem]
  · intro target isTarget
    have := records.inside _ (mem_targetsOf.mp isTarget)
    omega
  · intro source isSource
    have := records.inside _ (mem_sourcesOf.mp isSource)
    omega

/-- Adding a block adds no edge. -/
theorem addBlock
    (records : graph.Records edges)
    (address : Address) :
    (graph.addBlock address).1.Records edges := by
  cases isNew : graph.position? address with
  | some position =>
      simp only [FlowGraph.addBlock, isNew]
      exact records
  | none =>
      have noneHas := position?_eq_none_iff.mp isNew
      refine ⟨?_, records.nodup, ?_, ?_, ?_⟩
      · intro first second other firstStands secondStands
        rw [addressAt?_addBlock isNew] at firstStands secondStands
        split at firstStands <;> split at secondStands
        · omega
        · rw [← firstStands] at secondStands
          exact (noneHas second secondStands).elim
        · rw [← secondStands] at firstStands
          exact (noneHas first firstStands).elim
        · exact records.distinct first second other firstStands secondStands
      · intro edge member
        have := records.inside edge member
        rw [size_addBlock isNew]
        omega
      · rw [← records.edgeCount_eq]
        simp only [FlowGraph.addBlock, isNew]
      · intro position block stands
        rw [getElem?_blocks_addBlock isNew] at stands
        split at stands
        · rename_i isLast
          obtain rfl := Option.some.inj stands
          obtain ⟨noTargets, noSources⟩ := records.lists_eq_nil (Nat.le_of_eq isLast.symm)
          exact ⟨noTargets.symm, noSources.symm⟩
        · exact (records_bare_iff.mpr records).lists_eq position block stands

/-- Looking at the successors tells whether an edge is recorded. -/
theorem hasEdge_eq_true_iff
    (records : graph.Records edges)
    {source target : Nat} :
    graph.hasEdge source target = true ↔ (source, target) ∈ edges := by
  rw [hasEdge]
  split
  · rename_i outside
    simp only [Bool.false_eq_true, false_iff]
    intro member
    have inside := (records.inside _ member).1
    rw [Array.getElem?_eq_getElem inside] at outside
    cases outside
  · rename_i block stands
    rw [(records.lists_eq source block stands).1]
    simp

/-- Connecting two blocks records one more edge. -/
theorem connect
    (records : graph.Records edges)
    {source target : Nat}
    (sourceInside : source < graph.size)
    (targetInside : target < graph.size)
    (isNew : (source, target) ∉ edges) :
    (graph.connect source target).Records (edges ++ [(source, target)]) := by
  refine ⟨?_, ?_, ?_, ?_, ?_⟩
  · simpa only [addressAt?_connect] using records.distinct
  · exact List.nodup_append.mpr
      ⟨records.nodup, List.nodup_singleton _, by
        rintro edge member _ isLast rfl
        exact isNew (List.mem_singleton.mp isLast ▸ member)⟩
  · intro edge member
    rw [size_connect]
    rcases List.mem_append.mp member with isOld | isLast
    · exact records.inside edge isOld
    · rw [List.mem_singleton.mp isLast]
      exact ⟨sourceInside, targetInside⟩
  · rw [List.length_append, ← records.edgeCount_eq]
    rfl
  · intro position block stands
    rw [getElem?_blocks_connect, Option.map_eq_some_iff] at stands
    obtain ⟨before, beforeStands, rfl⟩ := stands
    obtain ⟨successors_eq, predecessors_eq⟩ := records.lists_eq position before beforeStands
    rw [targetsOf_append, sourcesOf_append, ← successors_eq, ← predecessors_eq]
    exact ⟨rfl, rfl⟩

/-- The block with an address is the one at the position of the address. -/
theorem block?_eq_some_iff
    (records : graph.Records edges)
    {block : Block} :
    graph.block? address = some block ↔
      ∃ position,
        graph.addressAt? position = some address ∧ graph.blocks[position]? = some block := by
  rw [block?, Array.find?_eq_bind_findIdx?_getElem?, Option.bind_eq_some_iff]
  exact exists_congr fun position =>
    and_congr_left fun _ => records.position?_eq_some_iff

/-- The successors of a block are the addresses that edges from it lead to. -/
theorem mem_successors_iff
    (records : graph.Records edges)
    {source target : Address} :
    target ∈ graph.successors source ↔
      ∃ first second,
        graph.addressAt? first = some source ∧
          graph.addressAt? second = some target ∧ (first, second) ∈ edges := by
  constructor
  · intro member
    rw [successors] at member
    split at member
    · cases member
    · rename_i block found
      obtain ⟨first, firstStands, blockStands⟩ := records.block?_eq_some_iff.mp found
      obtain ⟨second, isTarget, secondStands⟩ := List.mem_filterMap.mp member
      rw [(records.lists_eq first block blockStands).1, mem_targetsOf] at isTarget
      exact ⟨first, second, firstStands, secondStands, isTarget⟩
  · rintro ⟨first, second, firstStands, secondStands, isEdge⟩
    have blockStands := Array.getElem?_eq_getElem (records.inside _ isEdge).1
    rw [successors, records.block?_eq_some_iff.mpr ⟨first, firstStands, blockStands⟩]
    refine List.mem_filterMap.mpr ⟨second, ?_, secondStands⟩
    rw [(records.lists_eq first _ blockStands).1, mem_targetsOf]
    exact isEdge

/-- The predecessors of a block are the addresses that edges to it come from. -/
theorem mem_predecessors_iff
    (records : graph.Records edges)
    {source target : Address} :
    source ∈ graph.predecessors target ↔
      ∃ first second,
        graph.addressAt? first = some source ∧
          graph.addressAt? second = some target ∧ (first, second) ∈ edges := by
  constructor
  · intro member
    rw [predecessors] at member
    split at member
    · cases member
    · rename_i block found
      obtain ⟨second, secondStands, blockStands⟩ := records.block?_eq_some_iff.mp found
      obtain ⟨first, isSource, firstStands⟩ := List.mem_filterMap.mp member
      rw [(records.lists_eq second block blockStands).2, mem_sourcesOf] at isSource
      exact ⟨first, second, firstStands, secondStands, isSource⟩
  · rintro ⟨first, second, firstStands, secondStands, isEdge⟩
    have blockStands := Array.getElem?_eq_getElem (records.inside _ isEdge).2
    rw [predecessors, records.block?_eq_some_iff.mpr ⟨second, secondStands, blockStands⟩]
    refine List.mem_filterMap.mpr ⟨first, ?_, firstStands⟩
    rw [(records.lists_eq second _ blockStands).2, mem_sourcesOf]
    exact isEdge

/-- Every edge is seen from both its ends. -/
theorem mem_predecessors_iff_mem_successors
    (records : graph.Records edges)
    {source target : Address} :
    source ∈ graph.predecessors target ↔ target ∈ graph.successors source := by
  rw [records.mem_predecessors_iff, records.mem_successors_iff]

end Records

/-! ## Calls -/

/-- An operation that may change a flow graph. -/
inductive Call where
  | addBlock (address : Address)
  | addEdge (source target : Address)
  | setPostorder (address : Address) (index : Nat)
  | number
  deriving DecidableEq, Repr

/-- The graph after a call.  A call that fails leaves it alone. -/
def perform (graph : FlowGraph) : Call → FlowGraph
  | .addBlock address => (graph.addBlock address).1
  | .addEdge source target =>
      match graph.addEdge source target with
      | .ok (changed, _) => changed
      | .error _ => graph
  | .setPostorder address index =>
      match graph.setPostorder address index with
      | .ok changed => changed
      | .error _ => graph
  | .number => graph.numbered

/-- The graph that some calls make of an entry block. -/
def after (entry : Address) (calls : List Call) : FlowGraph :=
  calls.foldl perform (new entry)

/-- All that a call for an edge can do. -/
theorem perform_addEdge_cases
    (graph : FlowGraph)
    (source target : Address) :
    graph.perform (.addEdge source target) = graph ∨
      ∃ first second,
        graph.addressAt? first = some source ∧
          graph.addressAt? second = some target ∧
            graph.hasEdge first second = false ∧
              graph.perform (.addEdge source target) = graph.connect first second := by
  cases sourceFound : graph.position? source with
  | none =>
      left
      simp only [perform, addEdge, sourceFound]
  | some first =>
      cases targetFound : graph.position? target with
      | none =>
          left
          simp only [perform, addEdge, sourceFound, targetFound]
      | some second =>
          cases isOld : graph.hasEdge first second with
          | true =>
              left
              simp only [perform, addEdge, sourceFound, targetFound, isOld, if_true]
          | false =>
              refine .inr ⟨first, second, addressAt?_of_position? sourceFound,
                addressAt?_of_position? targetFound, isOld, ?_⟩
              simp only [perform, addEdge, sourceFound, targetFound, isOld, Bool.false_eq_true,
                if_false]

/-- Every call leads to a graph that records edges. -/
theorem Records.perform
    {edges : List (Nat × Nat)}
    (records : graph.Records edges)
    (call : Call) :
    ∃ recorded, (graph.perform call).Records recorded := by
  cases call with
  | addBlock address => exact ⟨edges, records.addBlock address⟩
  | addEdge source target =>
      rcases graph.perform_addEdge_cases source target with
          unchanged | ⟨first, second, sourceStands, targetStands, isNew, connected⟩
      · rw [unchanged]
        exact ⟨edges, records⟩
      · rw [connected]
        have notYet : (first, second) ∉ edges := by
          rw [← records.hasEdge_eq_true_iff, isNew]
          exact Bool.false_ne_true
        exact ⟨_, records.connect (exists_addressAt?_iff.mp ⟨_, sourceStands⟩)
          (exists_addressAt?_iff.mp ⟨_, targetStands⟩) notYet⟩
  | setPostorder address index =>
      rw [FlowGraph.perform]
      split
      · rename_i isChanged
        exact ⟨edges, records.of_bare_eq (bare_setPostorder isChanged)⟩
      · exact ⟨edges, records⟩
  | number => exact ⟨edges, records.of_bare_eq (bare_numbered graph)⟩

/-- Blocks stay where they are, whatever is called for. -/
theorem addressAt?_perform
    (stands : graph.addressAt? position = some address)
    (call : Call) :
    (graph.perform call).addressAt? position = some address := by
  cases call with
  | addBlock other => exact addressAt?_addBlock_of_some other stands
  | addEdge source target =>
      rcases graph.perform_addEdge_cases source target with unchanged | ⟨_, _, _, _, _, connected⟩
      · rw [unchanged]
        exact stands
      · rw [connected, addressAt?_connect]
        exact stands
  | setPostorder other index =>
      rw [perform]
      split
      · rename_i isChanged
        rw [← addressAt?_bare, bare_setPostorder isChanged, addressAt?_bare]
        exact stands
      · exact stands
  | number =>
      rw [perform, ← addressAt?_bare, bare_numbered, addressAt?_bare]
      exact stands

/-- The entry is the block that was there before all calls. -/
theorem entry_after
    (entry : Address)
    (calls : List Call) :
    (after entry calls).entry = entry := by
  have keeps
      (calls : List Call)
      {graph : FlowGraph}
      (stands : graph.addressAt? 0 = some entry) :
      (calls.foldl perform graph).addressAt? 0 = some entry := by
    induction calls generalizing graph with
    | nil => exact stands
    | cons call rest inductionHypothesis =>
        exact inductionHypothesis (addressAt?_perform stands call)
  have stands := keeps calls (new entry).addressAt?_zero
  rw [addressAt?_zero] at stands
  exact Option.some.inj stands

/-- A graph that calls can make of an entry block. -/
def Constructible (graph : FlowGraph) : Prop :=
  ∃ entry calls, graph = after entry calls

/-- Whatever the calls, they lead to a graph that records edges. -/
theorem Constructible.exists_records
    (constructible : graph.Constructible) :
    ∃ edges, graph.Records edges := by
  have keeps
      (calls : List Call)
      {graph : FlowGraph}
      (recorded : ∃ edges, graph.Records edges) :
      ∃ edges, (calls.foldl FlowGraph.perform graph).Records edges := by
    induction calls generalizing graph with
    | nil => exact recorded
    | cons call rest inductionHypothesis =>
        obtain ⟨edges, records⟩ := recorded
        exact inductionHypothesis (records.perform call)
  obtain ⟨entry, calls, rfl⟩ := constructible
  exact keeps calls ⟨[], records_new entry⟩

end Dominance.FlowGraph
