import Mathlib.Data.List.Perm.Basic
import Dominance.Proofs.Order

namespace Dominance.Host

/-!
# What the check of a numbering decides

Nodes are checked one by one against those before them, and their number is never compared
with the size of the host.  All the same a host is accepted exactly if its nodes are as many
as it announces and their indices are the numbers below the size, each used once: no
index is used twice, and in the end none may be unused.

A host that is refused has no blocks, or announces more of them than there is room for in
the tables, or breaks a rule for numberings.
-/

/-- What a numbering has to be like. -/
structure WellNumbered (host : Host) : Prop where
  nonempty : 0 < host.size
  count : host.nodes.length = host.size
  distinct : (host.nodes.map Node.address).Nodup
  /-- Every node has an index, and the indices are those below the size, each once. -/
  indices : (host.nodes.map Node.postorder).Perm ((List.range host.size).map some)
  entry_last : host.Holds host.entry (host.size - 1)

/-- A tree over the blocks of a host in which only the last index is linked. -/
structure IndexedBy (host : Host) (tree : DominatorTree) : Prop where
  size_eq : tree.size = host.size
  /-- Looking up addresses and looking up indices are inverse to each other. -/
  inverse :
    ∀ address index,
      tree.postorder? address = some index ↔ tree.address? index = some address
  /-- Both lookups agree with what a node says about itself. -/
  agrees :
    ∀ node ∈ host.nodes,
      tree.postorder? node.address = node.postorder ∧
        node.postorder.bind tree.address? = some node.address
  only_root :
    ∀ index, tree.link? index = if index = host.size - 1 then some index else none

variable {host : Host} {addresses : List Address}

theorem map_postorder_placementsOf (addresses : List Address) :
    ((placementsOf addresses).map Placement.node).map Node.postorder =
      (List.range addresses.length).map some := by
  rw [List.range_eq_range', ← map_index_placementsOf, List.map_map, List.map_map]
  rfl

/-- A host that some addresses number is well numbered. -/
theorem NumberedBy.wellNumbered (numbered : host.NumberedBy addresses) : host.WellNumbered := by
  have isLast := numbered.entry_last
  rw [List.getLast?_eq_getElem?, numbered.length_eq] at isLast
  have inside : host.size - 1 < addresses.length := (List.getElem?_eq_some_iff.mp isLast).1
  have length_eq := numbered.length_eq
  refine
    { nonempty := by omega
      count := ?_
      distinct := ?_
      indices := ?_
      entry_last := numbered.mem_nodes_iff.mpr ⟨host.size - 1, rfl, isLast⟩ }
  · rw [numbered.nodes_perm.length_eq, List.length_map, ← length_eq,
      ← List.length_map Placement.address, map_address_placementsOf]
  · have sameAddresses := numbered.nodes_perm.map Node.address
    rw [List.map_map] at sameAddresses
    rw [sameAddresses.nodup_iff]
    exact (map_address_placementsOf addresses).symm ▸ numbered.distinct
  · have sameIndices := numbered.nodes_perm.map Node.postorder
    rw [map_postorder_placementsOf, length_eq] at sameIndices
    exact sameIndices

/-- Nodes with the indices `0, 1, …` in this order are the placements of their addresses. -/
theorem map_node_placementsOf
    {sorted : List Node}
    (indices : sorted.map Node.postorder = (List.range sorted.length).map some) :
    (placementsOf (sorted.map Node.address)).map Placement.node = sorted := by
  apply List.ext_getElem?
  intro index
  have ownIndex := congrArg (fun list => list[index]?) indices
  simp only [placementsOf, List.getElem?_map, List.getElem?_zipIdx, Nat.zero_add,
    Option.map_map] at ownIndex ⊢
  cases stands : sorted[index]? with
  | none => rfl
  | some node =>
      obtain ⟨inside, _⟩ := List.getElem?_eq_some_iff.mp stands
      rw [stands, List.getElem?_range inside, Option.map_some, Option.map_some,
        Option.some.injEq] at ownIndex
      rw [Option.map_some, Option.some.injEq]
      cases node
      cases ownIndex
      rfl

/-- The nodes of a well numbered host can be put in the order of their indices. -/
theorem WellNumbered.exists_numberedBy
    (wellNumbered : host.WellNumbered) :
    ∃ addresses, host.NumberedBy addresses := by
  obtain ⟨sorted, indices, isPerm⟩ :
      Relation.Comp (· = List.map Node.postorder ·) List.Perm
        ((List.range host.size).map some) host.nodes := by
    rw [List.eq_map_comp_perm]
    exact wellNumbered.indices.symm
  have length_eq : sorted.length = host.size := by
    rw [isPerm.length_eq, wellNumbered.count]
  rw [← length_eq] at indices
  have placed := map_node_placementsOf indices.symm
  refine ⟨sorted.map Node.address, ?_, ?_, ?_, ?_⟩
  · exact (isPerm.map Node.address).nodup_iff.mpr wellNumbered.distinct
  · rw [List.length_map, length_eq]
  · rw [placed]
    exact isPerm.symm
  · have entryPlaced := isPerm.symm.subset wellNumbered.entry_last
    rw [← placed, List.mem_map] at entryPlaced
    obtain ⟨placement, member, isEntry⟩ := entryPlaced
    cases placement
    cases isEntry
    rw [List.getLast?_eq_getElem?, List.length_map, length_eq]
    exact mem_placementsOf.mp member

/-- A host is well numbered exactly if some order of the addresses numbers it. -/
theorem exists_numberedBy_iff : (∃ addresses, host.NumberedBy addresses) ↔ host.WellNumbered := by
  constructor
  · rintro ⟨addresses, numbered⟩
    exact numbered.wellNumbered
  · exact WellNumbered.exists_numberedBy

/-- The hosts that are accepted are the well-numbered ones. -/
theorem exists_index_iff : (∃ tree, host.index = .ok tree) ↔ host.WellNumbered := by
  rw [← exists_numberedBy_iff]
  constructor
  · rintro ⟨tree, accepted⟩
    obtain ⟨addresses, numbered, _⟩ := index_eq_ok_iff.mp accepted
    exact ⟨addresses, numbered⟩
  · rintro ⟨addresses, numbered⟩
    exact ⟨_, index_eq_ok_iff.mpr ⟨addresses, numbered, rfl⟩⟩

/-- An accepted host is indexed by the tree that it is given. -/
theorem indexedBy_of_index
    {tree : DominatorTree}
    (accepted : host.index = .ok tree) :
    host.IndexedBy tree := by
  have seeded := seededBy_of_index accepted
  have wellNumbered := exists_index_iff.mp ⟨tree, accepted⟩
  refine
    { size_eq := seeded.size_eq
      inverse := fun _ _ => seeded.distinct.postorder?_eq_some_iff
      agrees := ?_
      only_root := ?_ }
  · rintro ⟨address, postorder⟩ member
    have isIndex := wellNumbered.indices.subset (List.mem_map_of_mem member)
    obtain ⟨index, _, rfl⟩ := List.mem_map.mp isIndex
    have stands := seeded.holds_iff.mp member
    exact ⟨seeded.distinct.postorder?_eq_some_iff.mpr stands, stands⟩
  · intro index
    obtain ⟨addresses, numbered, rfl⟩ := index_eq_ok_iff.mp accepted
    have nonempty : 0 < addresses.toArray.size := by
      rw [List.size_toArray, numbered.length_eq]
      exact wellNumbered.nonempty
    rw [link?_ofOrder addresses.toArray nonempty, List.size_toArray, numbered.length_eq]

/-! ## Hosts that are refused -/

theorem index_eq_empty_iff : host.index = .error .empty ↔ host.size = 0 := by
  constructor
  · intro refused
    by_contra nonempty
    rw [index, if_neg nonempty] at refused
    split at refused
    · cases refused
    split at refused
    · cases refused
    · cases refused
  · intro isEmpty
    rw [index, if_pos isEmpty]

/-- If there is room in the tables, a rule for numberings is broken in all other cases. -/
theorem exists_malformed_iff
    (fits : host.size ≤ tableCapacity) :
    (∃ cause, host.index = .error cause ∧ cause.isMalformed = true) ↔
      host.size ≠ 0 ∧ ¬ host.WellNumbered := by
  constructor
  · rintro ⟨cause, refused, malformed⟩
    refine ⟨?_, ?_⟩
    · intro isEmpty
      rw [index_eq_empty_iff.mpr isEmpty] at refused
      cases refused
      cases malformed
    · intro wellNumbered
      obtain ⟨tree, accepted⟩ := exists_index_iff.mpr wellNumbered
      rw [accepted] at refused
      cases refused
  · rintro ⟨nonempty, notNumbered⟩
    cases outcome : host.index with
    | ok tree => exact absurd (exists_index_iff.mp ⟨tree, outcome⟩) notNumbered
    | error cause =>
        rcases cause_of_index outcome with rfl | ⟨rfl, overstates⟩ | ⟨error, rfl⟩
        · exact absurd (index_eq_empty_iff.mp outcome) nonempty
        · exact absurd overstates (not_overstates_of_le fits)
        · exact ⟨.numbering error, rfl, rfl⟩

/--
A host that announces no more blocks than there is room for in the tables is accepted
exactly if it is well numbered, and its blocks are then indexed.  It is refused as empty
exactly if it announces no blocks, and for a broken rule in all other cases.
-/
theorem index_decides_numbering
    (host : Host)
    (fits : host.size ≤ tableCapacity) :
    ((∃ tree, host.index = .ok tree) ↔ host.WellNumbered) ∧
    (∀ tree, host.index = .ok tree → host.IndexedBy tree) ∧
    (host.index = .error .empty ↔ host.size = 0) ∧
    ((∃ cause, host.index = .error cause ∧ cause.isMalformed = true) ↔
      host.size ≠ 0 ∧ ¬ host.WellNumbered) ∧
    ∀ cause, host.index = .error cause → cause = .empty ∨ cause.isMalformed = true := by
  refine ⟨exists_index_iff, fun _ => indexedBy_of_index, index_eq_empty_iff,
    exists_malformed_iff fits, ?_⟩
  intro cause refused
  rcases cause_of_index refused with isEmpty | ⟨_, overstates⟩ | ⟨error, rfl⟩
  · exact .inl isEmpty
  · exact absurd overstates (not_overstates_of_le fits)
  · exact .inr rfl

/-- Three blocks that are listed out of order. -/
def shuffledHost : Host where
  size := 3
  entry := ⟨7⟩
  nodes := [⟨⟨9⟩, some 1⟩, ⟨⟨7⟩, some 2⟩, ⟨⟨8⟩, some 0⟩]
  predecessors := fun _ _ => []

/--
The blocks are put in order, and only the entry is linked.  Announced as four blocks they
break a rule, since one index is unused.
-/
theorem shuffledHost_indexedBy :
    shuffledHost.size ≤ tableCapacity ∧
      shuffledHost.WellNumbered ∧
        shuffledHost.IndexedBy (.ofOrder #[⟨8⟩, ⟨9⟩, ⟨7⟩]) ∧
          ¬ { shuffledHost with size := 4 }.WellNumbered := by
  have fits : shuffledHost.size ≤ tableCapacity := by decide
  obtain ⟨accepted_iff, indexed, _⟩ := index_decides_numbering shuffledHost fits
  obtain ⟨_, _, _, malformed_iff, _⟩ :=
    index_decides_numbering { shuffledHost with size := 4 } (by decide)
  exact ⟨fits, accepted_iff.mp ⟨_, rfl⟩, indexed _ rfl,
    (malformed_iff.mp ⟨.numbering (.unused 3), rfl, rfl⟩).2⟩

/-- Two numbered blocks that are announced as more blocks than the tables can hold. -/
def overcountedHost : Host where
  size := 0x8000000000000000
  entry := ⟨1⟩
  nodes := [⟨⟨1⟩, some 1⟩, ⟨⟨2⟩, some 0⟩]
  predecessors := fun _ _ => []

/-- A host that has blocks can be refused although no rule for numberings was looked at. -/
theorem overcountedHost_breaks_no_rule :
    overcountedHost.size ≠ 0 ∧
      ∃ cause,
        overcountedHost.index = .error cause ∧ cause ≠ .empty ∧ cause.isMalformed = false :=
  ⟨by decide, .tooLarge overcountedHost.size, rfl, by decide, rfl⟩

end Dominance.Host
