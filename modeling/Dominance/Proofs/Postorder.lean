import Dominance.Proofs.Freshness

namespace Dominance.FlowGraph

/-!
# The indices that numbering gives

Numbering a graph gives the indices below its size to its blocks, each to one block.
The blocks that the entry does not reach come first, as they were added; all others
follow in the order of the walk, the entry last.  Every block of the second kind but the
entry has a predecessor with a higher index, and this is what a build relies on.
Nothing else changes, and it does not matter which indices the blocks had before.
-/

variable {graph : FlowGraph} {edges : List (Nat × Nat)} {address : Address}
  {index position : Nat}

/-! ## All indices -/

/-- The index of each position in the order of the positions. -/
theorem map_postorder_nodes_numbered (graph : FlowGraph) :
    graph.numbered.nodes.map Node.postorder =
      (List.range graph.size).map graph.numbering.idxOf? := by
  apply List.ext_getElem?
  intro position
  rw [List.getElem?_map, getElem?_nodes_numbered, Option.map_map, List.getElem?_map]
  by_cases inside : position < graph.size
  · obtain ⟨address, stands⟩ := exists_addressAt?_iff.mpr inside
    rw [stands, List.getElem?_range inside]
    rfl
  · have outside : graph.addressAt? position = none :=
      Option.eq_none_iff_forall_ne_some.mpr fun address stands =>
        inside (exists_addressAt?_iff.mp ⟨address, stands⟩)
    rw [outside, List.getElem?_eq_none (by simpa using inside)]
    rfl

/-- Listed in the order of their indices, the positions have the indices `0, 1, …`. -/
theorem map_idxOf?_numbering (graph : FlowGraph) :
    graph.numbering.map graph.numbering.idxOf? = (List.range graph.size).map some := by
  apply List.ext_getElem?
  intro index
  have length_eq : graph.numbering.length = graph.size := by
    rw [graph.numbering_perm.length_eq, List.length_range]
  rw [List.getElem?_map, List.getElem?_map]
  by_cases inside : index < graph.size
  · rw [List.getElem?_range inside, Option.map_some]
    have stands := List.getElem?_eq_getElem (length_eq ▸ inside)
    rw [stands, Option.map_some, idxOf?_numbering_eq_some_iff.mpr stands]
  · rw [List.getElem?_eq_none (length_eq ▸ Nat.le_of_not_lt inside),
      List.getElem?_eq_none (by simpa using inside)]
    rfl

/-- Each index below the size is the index of one block. -/
theorem map_postorder_perm (graph : FlowGraph) :
    (graph.numbered.nodes.map Node.postorder).Perm ((List.range graph.size).map some) := by
  rw [map_postorder_nodes_numbered, ← map_idxOf?_numbering]
  exact (graph.numbering_perm.map graph.numbering.idxOf?).symm

/-- Every block is visited by the walk or left out. -/
theorem length_reached_add (graph : FlowGraph) :
    graph.reached.length + graph.unreachableCount = graph.size := by
  have length_eq := graph.numbering_perm.length_eq
  rw [numbering, List.length_append, List.length_range] at length_eq
  rw [unreachableCount, Nat.add_comm, length_eq]

/-! ## Blocks that the entry does not reach -/

/-- The addresses of the blocks that the entry does not reach, as they were added. -/
def unreachedAddresses (graph : FlowGraph) : List Address :=
  graph.addressesAt graph.unreached

theorem getElem?_unreachedAddresses (graph : FlowGraph) (index : Nat) :
    graph.unreachedAddresses[index]? = (graph.unreached[index]?).bind graph.addressAt? :=
  getElem?_addressesAt (fun _ member => (mem_unreached_iff.mp member).1) index

theorem length_unreachedAddresses (graph : FlowGraph) :
    graph.unreachedAddresses.length = graph.unreachableCount := by
  refine List.filterMap_length_eq_length.mpr ?_
  intro position member
  obtain ⟨address, stands⟩ := exists_addressAt?_iff.mpr (mem_unreached_iff.mp member).1
  rw [stands]
  rfl

/-- The blocks that are left out keep their order. -/
theorem unreachedAddresses_sublist (graph : FlowGraph) :
    graph.unreachedAddresses.Sublist (graph.nodes.map Node.address) := by
  rw [map_address_nodes]
  exact List.filter_sublist.filterMap graph.addressAt?

/-- The blocks that are left out are those without a path from the entry. -/
theorem Records.mem_unreachedAddresses_iff (records : graph.Records edges) :
    address ∈ graph.unreachedAddresses ↔
      graph.contains address = true ∧ ¬ Reaches graph.Edge graph.entry address := by
  have known :
      graph.contains address = true ↔ ∃ position, graph.addressAt? position = some address := by
    rw [contains, Option.isSome_iff_exists]
    simp only [records.position?_eq_some_iff]
  rw [unreachedAddresses, addressesAt, List.mem_filterMap, known]
  constructor
  · rintro ⟨position, isUnreached, stands⟩
    refine ⟨⟨position, stands⟩, ?_⟩
    rw [← records.mem_reached_iff_reaches stands]
    exact (mem_unreached_iff.mp isUnreached).2
  · rintro ⟨⟨position, stands⟩, notReached⟩
    rw [← records.mem_reached_iff_reaches stands] at notReached
    exact ⟨position,
      mem_unreached_iff.mpr ⟨exists_addressAt?_iff.mp ⟨address, stands⟩, notReached⟩, stands⟩

/-- The low indices belong to the blocks that the entry does not reach. -/
theorem holds_numbered_iff_of_lt (low : index < graph.unreachableCount) :
    graph.numbered.host.Holds address index ↔
      graph.unreachedAddresses[index]? = some address := by
  rw [holds_numbered_iff, getElem?_unreachedAddresses, Option.bind_eq_some_iff, numbering,
    List.getElem?_append_left low]

/-! ## Blocks that the entry reaches -/

/-- Numbering does not change the walk. -/
theorem reversePostorder_numbered (graph : FlowGraph) :
    graph.numbered.reversePostorder = graph.reversePostorder := by
  rw [reversePostorder, addressesAt_numbered, reached, ← digraph_bare, bare_numbered,
    digraph_bare, reversePostorder, reached]

theorem length_reversePostorder (graph : FlowGraph) :
    graph.reversePostorder.length = graph.reached.length := by
  rw [reversePostorder, addressesAt, ← graph.reached.length_reverse]
  refine List.filterMap_length_eq_length.mpr ?_
  intro position member
  have visited := List.mem_reverse.mp member
  obtain ⟨address, stands⟩ := exists_addressAt?_iff.mpr (lt_size_of_mem_reached visited)
  rw [stands]
  rfl

/-- From the entry down, the walk lists the blocks by decreasing index. -/
theorem holds_of_getElem?_reversePostorder
    (listed : graph.reversePostorder[position]? = some address) :
    graph.numbered.host.Holds address (graph.size - 1 - position) := by
  have allInside : ∀ other ∈ graph.reached.reverse, other < graph.size := by
    intro other member
    exact lt_size_of_mem_reached (List.mem_reverse.mp member)
  rw [reversePostorder, getElem?_addressesAt allInside, Option.bind_eq_some_iff] at listed
  obtain ⟨block, isBlock, stands⟩ := listed
  obtain ⟨before, _⟩ := List.getElem?_eq_some_iff.mp isBlock
  rw [List.length_reverse] at before
  rw [List.getElem?_reverse before] at isBlock
  have index_eq :
      graph.size - 1 - position =
        graph.unreachableCount + (graph.reached.length - 1 - position) := by
    have length_eq := graph.length_reached_add
    omega
  refine holds_numbered_iff.mpr ⟨block, ?_, stands⟩
  rw [index_eq, numbering, unreachableCount, List.getElem?_append_right (Nat.le_add_right _ _),
    Nat.add_sub_cancel_left]
  exact isBlock

/-! ## The numbering as a whole -/

/-- A graph with the same blocks and edges whose indices follow a walk from the entry. -/
structure PostorderOf
    (numbered graph : FlowGraph)
    (unreachable : Nat) :
    Prop where
  /-- The blocks have the indices below the size, each one of them. -/
  indices : (numbered.nodes.map Node.postorder).Perm ((List.range graph.size).map some)
  entry_last : numbered.host.Holds graph.entry (graph.size - 1)
  /-- The lowest indices belong to the blocks that no path leads to, in the order of the blocks. -/
  unreached_first :
    ∃ unreached : List Address,
      unreached.Sublist (graph.nodes.map Node.address) ∧
        unreached.length = unreachable ∧
          (∀ address,
            address ∈ unreached ↔
              graph.contains address = true ∧ ¬ Reaches graph.Edge graph.entry address) ∧
            ∀ address, ∀ index < unreachable,
              numbered.host.Holds address index ↔ unreached[index]? = some address
  /-- The walk lists all others from the highest index down. -/
  walk_length : numbered.reversePostorder.length + unreachable = graph.size
  walk_descends :
    ∀ position address,
      numbered.reversePostorder[position]? = some address →
        numbered.host.Holds address (graph.size - 1 - position)
  /-- Every reached block but the entry has a predecessor with a higher index. -/
  higher_predecessor :
    ∀ address index,
      Reaches graph.Edge graph.entry address →
        address ≠ graph.entry →
          numbered.host.Holds address index →
            ∃ predecessor ∈ numbered.predecessors address,
              ∃ higher, index < higher ∧ numbered.host.Holds predecessor higher
  /-- The graphs differ in nothing but the indices. -/
  bare_eq : numbered.bare = graph.bare

/-- Numbering a graph gives it a postorder. -/
theorem Records.postorderOf (records : graph.Records edges) :
    graph.numbered.PostorderOf graph graph.unreachableCount where
  indices := graph.map_postorder_perm
  entry_last := by
    have isLast := graph.getLast?_numbering
    rw [List.getLast?_eq_getElem?, graph.numbering_perm.length_eq, List.length_range] at isLast
    exact holds_numbered_iff.mpr ⟨0, isLast, graph.addressAt?_zero⟩
  unreached_first :=
    ⟨graph.unreachedAddresses, graph.unreachedAddresses_sublist, graph.length_unreachedAddresses,
      fun _ => records.mem_unreachedAddresses_iff, fun _ _ low => holds_numbered_iff_of_lt low⟩
  walk_length := by
    rw [reversePostorder_numbered, length_reversePostorder, length_reached_add]
  walk_descends := by
    intro position address listed
    rw [reversePostorder_numbered] at listed
    exact holds_of_getElem?_reversePostorder listed
  higher_predecessor := by
    intro address index reaches notEntry holds
    obtain ⟨position, stands, isAddress⟩ := holds_numbered_iff.mp holds
    have notStart : position ≠ 0 := by
      rintro rfl
      rw [addressAt?_zero, Option.some.injEq] at isAddress
      exact notEntry isAddress.symm
    rw [predecessors_numbered]
    exact records.exists_higher_predecessor
      ((records.mem_reached_iff_reaches isAddress).mpr reaches) notStart stands isAddress
  bare_eq := bare_numbered graph

@[simp] theorem unreachableCount_bare (graph : FlowGraph) :
    graph.bare.unreachableCount = graph.unreachableCount := by
  simp [unreachableCount, unreached, reached]

@[simp] theorem number_bare (graph : FlowGraph) : graph.bare.number = graph.number := by
  simp [number]

/--
Whatever calls made a graph, numbering it gives the indices of a walk from the entry and
changes nothing else.  Graphs that differ in their indices only are numbered alike.
-/
theorem number_postorderOf
    (constructible : graph.Constructible) :
    graph.number.value.PostorderOf graph graph.unreachableCount ∧
      ∀ other : FlowGraph,
        other.bare = graph.bare →
          other.number = graph.number ∧ other.unreachableCount = graph.unreachableCount := by
  obtain ⟨edges, records⟩ := constructible.exists_records
  refine ⟨records.postorderOf, ?_⟩
  intro other same
  constructor
  · rw [← number_bare other, same, number_bare]
  · rw [← unreachableCount_bare other, same, unreachableCount_bare]

/-- A loop through the entry, two blocks that no path leads to, and indices given by hand. -/
def looseBlocks : List Call :=
  [.addBlock ⟨3⟩, .addBlock ⟨2⟩, .addBlock ⟨4⟩, .addEdge ⟨1⟩ ⟨2⟩, .addEdge ⟨2⟩ ⟨1⟩,
    .addEdge ⟨3⟩ ⟨2⟩, .addEdge ⟨4⟩ ⟨4⟩, .setPostorder ⟨1⟩ 0, .setPostorder ⟨4⟩ 0]

/-- The two loose blocks get the lowest indices. -/
theorem looseBlocks_postorderOf :
    (after ⟨1⟩ looseBlocks).number.value.PostorderOf (after ⟨1⟩ looseBlocks) 2 ∧
      (after ⟨1⟩ looseBlocks).number.value.nodes =
        [⟨⟨1⟩, some 3⟩, ⟨⟨3⟩, some 0⟩, ⟨⟨2⟩, some 2⟩, ⟨⟨4⟩, some 1⟩] := by
  have count_eq : (after ⟨1⟩ looseBlocks).unreachableCount = 2 := by decide +kernel
  obtain ⟨follows, _⟩ := number_postorderOf ⟨⟨1⟩, looseBlocks, rfl⟩
  rw [count_eq] at follows
  exact ⟨follows, by decide +kernel⟩

end Dominance.FlowGraph
