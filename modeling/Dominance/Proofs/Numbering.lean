import Mathlib.Data.List.Perm.Basic
import Dominance.Proofs.Calls
import Dominance.Proofs.HostPath
import Dominance.Proofs.Walk

namespace Dominance.FlowGraph

/-!
# What numbering a flow graph achieves

The positions in the order of their postorder indices are a permutation of all
positions with that of the entry last, so every numbered graph is accepted as the
host of a build.  Blocks that the entry does not reach come first.  Their
predecessors are among them, while a block that the entry reaches has a predecessor
with a higher index.  Hence the highest index among the former belongs to the bad
block that a build blames, and without them no block is bad.
-/

/-- An edge leads to a successor. -/
def Edge (graph : FlowGraph) (source target : Address) : Prop :=
  target ∈ graph.successors source

variable {graph : FlowGraph} {edges : List (Nat × Nat)} {address : Address}
  {index position : Nat}

/-! ## The order of positions -/

theorem size_digraph (graph : FlowGraph) : graph.digraph.size = graph.size := by
  simp [digraph, Digraph.size, size]

theorem zero_lt_size_digraph (graph : FlowGraph) : 0 < graph.digraph.size := by
  rw [size_digraph]
  exact graph.nonempty

/-- The walk visits the positions that edges lead to. -/
theorem mem_reached_iff :
    position ∈ graph.reached ↔ Reaches graph.digraph.Edge 0 position :=
  Digraph.mem_postorder_iff graph.zero_lt_size_digraph

theorem lt_size_of_mem_reached (visited : position ∈ graph.reached) :
    position < graph.size := by
  obtain ⟨nodes, path⟩ := mem_reached_iff.mp visited
  cases path with
  | start => exact graph.nonempty
  | extend _ step => exact graph.size_digraph ▸ step.2

theorem mem_unreached_iff :
    position ∈ graph.unreached ↔ position < graph.size ∧ position ∉ graph.reached := by
  simp [unreached]

/-- No position is numbered twice. -/
theorem nodup_numbering (graph : FlowGraph) : graph.numbering.Nodup := by
  refine List.nodup_append.mpr
    ⟨List.nodup_range.filter _, Digraph.nodup_postorder graph.digraph 0, ?_⟩
  rintro position isUnreached _ isReached rfl
  exact (mem_unreached_iff.mp isUnreached).2 isReached

/-- All positions are numbered. -/
theorem mem_numbering_iff : position ∈ graph.numbering ↔ position < graph.size := by
  rw [numbering, List.mem_append, mem_unreached_iff]
  constructor
  · rintro (isUnreached | isReached)
    · exact isUnreached.1
    · exact lt_size_of_mem_reached isReached
  · intro inside
    by_cases isReached : position ∈ graph.reached
    · exact .inr isReached
    · exact .inl ⟨inside, isReached⟩

/-- The order of the positions is a permutation of them. -/
theorem numbering_perm (graph : FlowGraph) :
    graph.numbering.Perm (List.range graph.size) := by
  rw [List.perm_ext_iff_of_nodup graph.nodup_numbering List.nodup_range]
  intro position
  rw [mem_numbering_iff, List.mem_range]

/-- The entry is numbered last. -/
theorem getLast?_numbering (graph : FlowGraph) : graph.numbering.getLast? = some 0 := by
  have last : graph.reached.getLast? = some 0 :=
    Digraph.getLast?_postorder graph.zero_lt_size_digraph
  rw [numbering, List.getLast?_append, last]
  rfl

/-- A position has the index at which it stands in the order. -/
theorem idxOf?_numbering_eq_some_iff :
    graph.numbering.idxOf? position = some index ↔
      graph.numbering[index]? = some position := by
  have nodup := graph.nodup_numbering
  constructor
  · intro found
    rw [List.idxOf?, List.findIdx?_eq_some_iff_getElem] at found
    obtain ⟨inside, isPosition, _⟩ := found
    rw [List.getElem?_eq_getElem inside]
    simpa using isPosition
  · intro stands
    obtain ⟨inside, isPosition⟩ := List.getElem?_eq_some_iff.mp stands
    rw [List.idxOf?, List.findIdx?_eq_some_iff_getElem]
    refine ⟨inside, by simpa using isPosition, ?_⟩
    intro earlier before same
    have : earlier = index :=
      (nodup.getElem_inj_iff).mp ((by simpa using same : _ = position).trans isPosition.symm)
    omega

/-- Indices from the number of unreachable blocks on belong to positions that the walk visits. -/
theorem mem_reached_of_getElem?
    (stands : graph.numbering[index]? = some position)
    (high : graph.unreachableCount ≤ index) :
    position ∈ graph.reached := by
  rw [numbering, List.getElem?_append_right high] at stands
  exact List.mem_of_getElem? stands

/-! ## The numbered graph as a host -/

theorem entry_host_numbered (graph : FlowGraph) : graph.numbered.host.entry = graph.entry :=
  entry_numbered graph

theorem predecessors_host_numbered
    (graph : FlowGraph)
    (time : Nat) :
    graph.numbered.host.predecessors time = graph.predecessors :=
  predecessors_numbered graph

/-- The addresses of positions inside the graph. -/
theorem getElem?_addressesAt
    {positions : List Nat}
    (inside : ∀ position ∈ positions, position < graph.size)
    (index : Nat) :
    (graph.addressesAt positions)[index]? = (positions[index]?).bind graph.addressAt? := by
  induction positions generalizing index with
  | nil => rfl
  | cons first rest inductionHypothesis =>
      obtain ⟨address, stands⟩ := exists_addressAt?_iff.mpr (inside first (by simp))
      have restInside : ∀ position ∈ rest, position < graph.size :=
        fun position member => inside position (by simp [member])
      rw [addressesAt, List.filterMap_cons_some stands]
      cases index with
      | zero => exact stands.symm
      | succ index => exact inductionHypothesis restInside index

theorem getElem?_addressesAt_numbering
    (graph : FlowGraph)
    (index : Nat) :
    (graph.addressesAt graph.numbering)[index]? =
      (graph.numbering[index]?).bind graph.addressAt? :=
  getElem?_addressesAt (fun _ member => mem_numbering_iff.mp member) index

/-- A block has the index at which its position stands in the order. -/
theorem getElem?_nodes_numbered
    (graph : FlowGraph)
    (position : Nat) :
    graph.numbered.nodes[position]? =
      (graph.addressAt? position).map fun address =>
        ⟨address, graph.numbering.idxOf? position⟩ := by
  simp only [nodes, numbered, addressAt?, List.getElem?_map, Array.getElem?_toList,
    Array.getElem?_mapIdx, Option.map_map]
  rfl

/-- The blocks are listed in the order of their positions. -/
theorem map_address_nodes (graph : FlowGraph) :
    graph.nodes.map Node.address = graph.addressesAt (List.range graph.size) := by
  apply List.ext_getElem?
  intro position
  have listed : (graph.nodes.map Node.address)[position]? = graph.addressAt? position := by
    simp only [nodes, addressAt?, List.getElem?_map, Array.getElem?_toList, Option.map_map]
    rfl
  rw [listed, getElem?_addressesAt fun _ member => List.mem_range.mp member]
  by_cases inside : position < graph.size
  · rw [List.getElem?_range inside, Option.bind_some]
  · have outside : graph.addressAt? position = none :=
      Option.eq_none_iff_forall_ne_some.mpr fun address stands =>
        inside (exists_addressAt?_iff.mp ⟨address, stands⟩)
    rw [outside, List.getElem?_eq_none (by simpa using inside), Option.bind_none]

theorem addressesAt_numbered (graph : FlowGraph) :
    graph.numbered.addressesAt = graph.addressesAt := by
  funext positions
  rw [addressesAt, addressesAt, ← addressAt?_bare, bare_numbered, addressAt?_bare]

/-- The numbered blocks are the blocks with their places in the order. -/
theorem mem_nodes_numbered_iff
    {node : Node} :
    node ∈ graph.numbered.nodes ↔
      ∃ index position,
        node.postorder = some index ∧
          graph.numbering[index]? = some position ∧
            graph.addressAt? position = some node.address := by
  rw [List.mem_iff_getElem?]
  simp only [getElem?_nodes_numbered, Option.map_eq_some_iff]
  constructor
  · rintro ⟨position, address, stands, rfl⟩
    have numbered : position ∈ graph.numbering :=
      mem_numbering_iff.mpr (exists_addressAt?_iff.mp ⟨_, stands⟩)
    obtain ⟨index, isIndex⟩ := List.mem_iff_getElem?.mp numbered
    exact ⟨index, position, idxOf?_numbering_eq_some_iff.mpr isIndex, isIndex, stands⟩
  · rintro ⟨index, position, isIndex, stands, isAddress⟩
    refine ⟨position, node.address, isAddress, ?_⟩
    rw [idxOf?_numbering_eq_some_iff.mpr stands, ← isIndex]

namespace Records

/-- Different positions have different addresses. -/
theorem nodup_addressesAt
    (records : graph.Records edges)
    {positions : List Nat}
    (nodup : positions.Nodup) :
    (graph.addressesAt positions).Nodup :=
  nodup.filterMap fun first second address firstStands secondStands =>
    records.distinct first second address firstStands secondStands

theorem nodup_nodes_numbered
    (records : graph.Records edges) :
    graph.numbered.nodes.Nodup := by
  refine List.Nodup.of_map Node.address ?_
  rw [map_address_nodes, addressesAt_numbered, size_numbered]
  exact records.nodup_addressesAt List.nodup_range

/-- Every numbered graph is numbered as a host must be. -/
theorem numberedBy
    (records : graph.Records edges) :
    graph.numbered.host.NumberedBy (graph.addressesAt graph.numbering) := by
  have allStand : ∀ position ∈ graph.numbering, (graph.addressAt? position).isSome := by
    intro position member
    obtain ⟨address, stands⟩ := exists_addressAt?_iff.mpr (mem_numbering_iff.mp member)
    rw [stands]
    rfl
  have length_eq : (graph.addressesAt graph.numbering).length = graph.numbering.length :=
    List.filterMap_length_eq_length.mpr allStand
  have distinct := records.nodup_addressesAt graph.nodup_numbering
  refine ⟨distinct, ?_, ?_, ?_⟩
  · rw [length_eq, graph.numbering_perm.length_eq, List.length_range]
    exact (size_numbered graph).symm
  · show graph.numbered.nodes.Perm _
    rw [List.perm_ext_iff_of_nodup records.nodup_nodes_numbered]
    · rintro ⟨address, postorder⟩
      rw [mem_nodes_numbered_iff]
      simp only [List.mem_map, Host.mem_placementsOf, getElem?_addressesAt_numbering,
        Option.bind_eq_some_iff]
      constructor
      · rintro ⟨index, position, rfl, stands, isAddress⟩
        exact ⟨⟨address, index⟩, ⟨position, stands, isAddress⟩, rfl⟩
      · rintro ⟨placement, ⟨position, stands, isAddress⟩, isNode⟩
        cases isNode
        exact ⟨placement.index, position, rfl, stands, isAddress⟩
    · refine List.Nodup.of_map Node.address ?_
      rw [List.map_map]
      exact (Host.map_address_placementsOf _).symm ▸ distinct
  · rw [List.getLast?_eq_getElem?, getElem?_addressesAt_numbering, length_eq,
      ← List.getLast?_eq_getElem?, getLast?_numbering, Option.bind_some, addressAt?_zero,
      entry_host_numbered]

/-- A numbered graph is accepted as the host of a build. -/
theorem exists_index
    (records : graph.Records edges) :
    ∃ seed, graph.numbered.host.index = .ok seed :=
  ⟨_, Host.index_eq_ok_iff.mpr ⟨_, records.numberedBy, rfl⟩⟩

end Records

/-- An index belongs to the block whose position stands there in the order. -/
theorem holds_numbered_iff :
    graph.numbered.host.Holds address index ↔
      ∃ position,
        graph.numbering[index]? = some position ∧
          graph.addressAt? position = some address := by
  show _ ∈ graph.numbered.nodes ↔ _
  rw [mem_nodes_numbered_iff]
  constructor
  · rintro ⟨_, position, isIndex, stands, isAddress⟩
    cases isIndex
    exact ⟨position, stands, isAddress⟩
  · rintro ⟨position, stands, isAddress⟩
    exact ⟨index, position, rfl, stands, isAddress⟩

theorem lists_numbered_iff :
    graph.numbered.host.Lists address ↔
      ∃ position, graph.addressAt? position = some address := by
  constructor
  · rintro ⟨node, member, rfl⟩
    obtain ⟨_, position, _, _, stands⟩ := mem_nodes_numbered_iff.mp member
    exact ⟨position, stands⟩
  · rintro ⟨position, stands⟩
    have isNode := getElem?_nodes_numbered graph position
    rw [stands, Option.map_some] at isNode
    exact ⟨_, List.mem_of_getElem? isNode, rfl⟩

/-! ## Reachable blocks -/

namespace Records

/-- The edges that the walk follows are the recorded ones. -/
theorem digraph_edge_iff
    (records : graph.Records edges)
    {source target : Nat} :
    graph.digraph.Edge source target ↔ (source, target) ∈ edges := by
  have successors_eq :
      graph.digraph.successors source =
        ((graph.blocks[source]?).map fun block => block.successors).getD [] := by
    simp [digraph, Digraph.successors, Array.getD_eq_getD_getElem?]
  rw [Digraph.Edge, size_digraph, successors_eq]
  constructor
  · rintro ⟨isTarget, _⟩
    cases stands : graph.blocks[source]? with
    | none => simp [stands] at isTarget
    | some block =>
        rw [stands, Option.map_some, Option.getD_some,
          (records.lists_eq source block stands).1, mem_targetsOf] at isTarget
        exact isTarget
  · intro isEdge
    obtain ⟨sourceInside, targetInside⟩ := records.inside _ isEdge
    have stands := Array.getElem?_eq_getElem sourceInside
    rw [stands, Option.map_some, Option.getD_some, (records.lists_eq source _ stands).1,
      mem_targetsOf]
    exact ⟨isEdge, targetInside⟩

/-- The walk visits the blocks that the entry reaches. -/
theorem mem_reached_iff_reaches
    (records : graph.Records edges)
    (stands : graph.addressAt? position = some address) :
    position ∈ graph.reached ↔ Reaches graph.Edge graph.entry address := by
  have addressOf
      {position : Nat}
      {address : Address}
      (isAddress : graph.addressAt? position = some address) :
      (graph.addressAt? position).getD default = address := by
    rw [isAddress]
    rfl
  have positionOf
      {position : Nat}
      {address : Address}
      (isAddress : graph.addressAt? position = some address) :
      (graph.position? address).getD 0 = position := by
    rw [records.position?_eq_some_iff.mpr isAddress]
    rfl
  rw [mem_reached_iff]
  constructor
  · rintro ⟨nodes, path⟩
    have keeps :
        ∀ last next,
          graph.digraph.Edge last next →
          graph.Edge ((graph.addressAt? last).getD default)
            ((graph.addressAt? next).getD default) := by
      intro last next step
      have isEdge := records.digraph_edge_iff.mp step
      obtain ⟨lastInside, nextInside⟩ := records.inside _ isEdge
      obtain ⟨lastAddress, lastStands⟩ := exists_addressAt?_iff.mpr lastInside
      obtain ⟨nextAddress, nextStands⟩ := exists_addressAt?_iff.mpr nextInside
      rw [addressOf lastStands, addressOf nextStands]
      exact records.mem_successors_iff.mpr ⟨last, next, lastStands, nextStands, isEdge⟩
    have renamed := path.map _ keeps
    rw [addressOf stands, addressOf graph.addressAt?_zero] at renamed
    exact ⟨_, renamed⟩
  · rintro ⟨nodes, path⟩
    have keeps :
        ∀ last next,
          graph.Edge last next →
          graph.digraph.Edge ((graph.position? last).getD 0)
            ((graph.position? next).getD 0) := by
      intro last next step
      obtain ⟨first, second, lastStands, nextStands, isEdge⟩ :=
        records.mem_successors_iff.mp step
      rw [positionOf lastStands, positionOf nextStands]
      exact records.digraph_edge_iff.mpr isEdge
    have renamed := path.map _ keeps
    rw [positionOf stands, positionOf graph.addressAt?_zero] at renamed
    exact ⟨_, renamed⟩

end Records

/-! ## Bad blocks -/

/-- The last position that the walk leaves out has the highest index among them. -/
theorem exists_last_unreached
    (someUnreached : 0 < graph.unreachableCount) :
    ∃ position,
      graph.numbering[graph.unreachableCount - 1]? = some position ∧
        position ∉ graph.reached ∧
          ∀ later, position < later → later < graph.size → later ∈ graph.reached := by
  have increasing : graph.unreached.Pairwise (· < ·) := List.pairwise_lt_range.filter _
  rcases List.eq_nil_or_concat graph.unreached with isEmpty | ⟨earlier, position, isLast⟩
  · simp [unreachableCount, isEmpty] at someUnreached
  rw [List.concat_eq_append] at isLast
  have count_eq : graph.unreachableCount = earlier.length + 1 := by
    simp [unreachableCount, isLast]
  have isUnreached : position ∈ graph.unreached := by simp [isLast]
  refine ⟨position, ?_, (mem_unreached_iff.mp isUnreached).2, ?_⟩
  · simp [numbering, count_eq, isLast]
  · intro later above inside
    by_contra notReached
    have member : later ∈ graph.unreached := mem_unreached_iff.mpr ⟨inside, notReached⟩
    rw [isLast] at increasing member
    rcases List.mem_append.mp member with isEarlier | isPosition
    · have := (List.pairwise_append.mp increasing).2.2 later isEarlier position (by simp)
      omega
    · rw [List.mem_singleton.mp isPosition] at above
      omega

namespace Records

/-- Predecessors are blocks of the graph. -/
theorem lists_of_mem_predecessors
    (records : graph.Records edges)
    {predecessor : Address}
    (named : predecessor ∈ graph.predecessors address) :
    graph.numbered.host.Lists predecessor := by
  obtain ⟨position, _, stands, _⟩ := records.mem_predecessors_iff.mp named
  exact lists_numbered_iff.mpr ⟨position, stands⟩

/-- A block that the entry reaches has a predecessor with a higher index. -/
theorem exists_higher_predecessor
    (records : graph.Records edges)
    (visited : position ∈ graph.reached)
    (notStart : position ≠ 0)
    (stands : graph.numbering[index]? = some position)
    (isAddress : graph.addressAt? position = some address) :
    ∃ predecessor ∈ graph.predecessors address,
      ∃ higher, index < higher ∧ graph.numbered.host.Holds predecessor higher := by
  obtain ⟨source, isSuccessor, later⟩ := Digraph.exists_later_source visited notStart
  have isEdge : (source, position) ∈ edges :=
    records.digraph_edge_iff.mp
      ⟨isSuccessor, graph.size_digraph ▸ lt_size_of_mem_reached visited⟩
  obtain ⟨sourceAddress, sourceStands⟩ := exists_addressAt?_iff.mpr (records.inside _ isEdge).1
  have before : [position, source].Sublist graph.numbering :=
    later.trans (List.sublist_append_right graph.unreached graph.reached)
  have sourceNumbered : source ∈ graph.numbering := before.subset (by simp)
  obtain ⟨inside, isPosition⟩ := List.getElem?_eq_some_iff.mp stands
  have isIndex : graph.numbering.idxOf position = index :=
    isPosition ▸ graph.nodup_numbering.idxOf_getElem index inside
  refine ⟨sourceAddress, ?_, graph.numbering.idxOf source, ?_, ?_⟩
  · exact records.mem_predecessors_iff.mpr ⟨source, position, sourceStands, isAddress, isEdge⟩
  · exact isIndex ▸ Digraph.idxOf_lt_of_sublist graph.nodup_numbering before
  · exact holds_numbered_iff.mpr ⟨source, List.getElem?_idxOf sourceNumbered, sourceStands⟩

/-- A bad block is one that the entry does not reach. -/
theorem lt_unreachableCount_of_bad
    (records : graph.Records edges)
    (bad : graph.numbered.host.Bad index) :
    index < graph.unreachableCount := by
  obtain ⟨address, holds, notEntry, isBad⟩ := bad
  obtain ⟨position, stands, isAddress⟩ := holds_numbered_iff.mp holds
  apply Nat.lt_of_not_le
  intro high
  have visited := mem_reached_of_getElem? stands high
  have notStart : position ≠ 0 := by
    rintro rfl
    rw [addressAt?_zero, Option.some.injEq] at isAddress
    rw [entry_host_numbered] at notEntry
    exact notEntry isAddress.symm
  rw [predecessors_host_numbered] at isBad
  rcases isBad with ⟨predecessor, isPredecessor, unknown⟩ | noHigher
  · exact unknown (records.lists_of_mem_predecessors isPredecessor)
  · obtain ⟨predecessor, named, higher, above, predecessorHolds⟩ :=
      records.exists_higher_predecessor visited notStart stands isAddress
    have notAbove := noHigher predecessor named higher predecessorHolds
    exact Nat.not_lt.mpr notAbove above

/-- The last block that the entry does not reach is bad. -/
theorem bad_of_unreachable
    (records : graph.Records edges)
    (someUnreached : 0 < graph.unreachableCount) :
    graph.numbered.host.Bad (graph.unreachableCount - 1) := by
  obtain ⟨position, stands, notReached, _⟩ := exists_last_unreached someUnreached
  have inside : position < graph.size :=
    mem_numbering_iff.mp (List.mem_of_getElem? stands)
  obtain ⟨address, isAddress⟩ := exists_addressAt?_iff.mpr inside
  refine ⟨address, holds_numbered_iff.mpr ⟨position, stands, isAddress⟩, ?_, .inr ?_⟩
  · intro isEntry
    have isFirst : position = 0 := by
      refine records.distinct position 0 address isAddress ?_
      rw [addressAt?_zero, isEntry, entry_host_numbered]
    rw [isFirst] at notReached
    exact notReached (mem_reached_iff.mpr ⟨_, .start⟩)
  · intro predecessor named higher predecessorHolds
    obtain ⟨source, sourceNumbered, sourceStands⟩ := holds_numbered_iff.mp predecessorHolds
    rw [predecessors_host_numbered] at named
    obtain ⟨first, second, firstStands, secondStands, isEdge⟩ :=
      records.mem_predecessors_iff.mp named
    obtain rfl := records.distinct first source predecessor firstStands sourceStands
    obtain rfl := records.distinct second position address secondStands isAddress
    apply Nat.le_of_not_lt
    intro above
    -- A walk that visits the predecessor goes on to the block.
    obtain ⟨nodes, path⟩ :=
      mem_reached_iff.mp (mem_reached_of_getElem? sourceNumbered (by omega))
    exact notReached (mem_reached_iff.mpr
      ⟨_, path.extend (records.digraph_edge_iff.mpr isEdge)⟩)

end Records

end Dominance.FlowGraph
