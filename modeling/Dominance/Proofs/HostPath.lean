import Dominance.Proofs.Convergence
import Dominance.Proofs.Order
import Dominance.Proofs.Visit

namespace Dominance

/-!
# Paths of a host

The edges of a host lead from the predecessors that it names for a block to the
block; edges to its entry are left out.  A block is bad if it keeps a build from
succeeding: a predecessor is unknown, or none has a higher index.  Without bad
blocks the paths of the host are those of its index graph.
-/

namespace Host

/-- An edge to a block other than the entry. -/
def Edge (host : Host) (source target : Address) : Prop :=
  target ≠ host.entry ∧ source ∈ host.predecessors 0 target

/-- An edge to a block other than the entry, according to the answers at some time. -/
def EdgeAt (host : Host) (time : Nat) (source target : Address) : Prop :=
  target ≠ host.entry ∧ source ∈ host.predecessors time target

/-- A block at an index that has an unknown predecessor or no higher one. -/
def Bad (host : Host) (index : Nat) : Prop :=
  ∃ address,
    host.Holds address index ∧
      address ≠ host.entry ∧
        ((∃ predecessor ∈ host.predecessors 0 address, ¬ host.Lists predecessor) ∨
          ∀ predecessor ∈ host.predecessors 0 address,
            ∀ higher, host.Holds predecessor higher → higher ≤ index)

theorem Bad.exists_holds
    {host : Host}
    {index : Nat}
    (bad : host.Bad index) :
    ∃ address, host.Holds address index := by
  obtain ⟨address, holds, _⟩ := bad
  exact ⟨address, holds⟩

end Host

theorem DominatorTree.blockAt_eq
    {tree : DominatorTree}
    {index : Nat}
    {address : Address}
    (stands : tree.address? index = some address) :
    tree.blockAt index = address := by
  rw [blockAt, stands]
  rfl

namespace Host.SeededBy

variable {host : Host} {seed : DominatorTree} {index : Nat} {address : Address}

/-- The root is the last index of the host. -/
theorem root_eq
    (seeded : host.SeededBy seed)
    (time : Nat) :
    (host.indexGraph time seed).root = host.size - 1 := by
  rw [← seeded.size_eq]
  rfl

/-- The tree that a build starts with is rooted. -/
theorem seed_rooted
    (seeded : host.SeededBy seed)
    (time : Nat) :
    seed.Rooted (host.indexGraph time seed).root := by
  rw [seeded.root_eq]
  exact seeded.rooted

theorem address?_blockAt
    (seeded : host.SeededBy seed)
    (inside : index ≤ (host.indexGraph 0 seed).root) :
    seed.address? index = some (seed.blockAt index) := by
  have below : index < seed.order.size := by
    have size_eq := (seeded.seed_rooted 0).size_eq
    rw [DominatorTree.size] at size_eq
    omega
  rw [DominatorTree.blockAt, DominatorTree.address?, Array.getElem?_eq_getElem below]
  rfl

/-- Only the root holds the entry. -/
theorem blockAt_ne_entry
    (seeded : host.SeededBy seed)
    (below : index < (host.indexGraph 0 seed).root) :
    seed.blockAt index ≠ host.entry := by
  intro isEntry
  have stands := seeded.address?_blockAt (Nat.le_of_lt below)
  rw [isEntry] at stands
  have := seeded.distinct _ _ _ stands seeded.address?_entry
  rw [seeded.root_eq] at below
  omega

theorem le_root_of_address?
    (seeded : host.SeededBy seed)
    (stands : seed.address? index = some address) :
    index ≤ (host.indexGraph 0 seed).root := by
  have below : index < seed.order.size := (Array.getElem?_eq_some_iff.mp stands).1
  have size_eq := (seeded.seed_rooted 0).size_eq
  rw [DominatorTree.size] at size_eq
  omega

/-- Blocks other than the entry stand below the root. -/
theorem lt_root_of_address?
    (seeded : host.SeededBy seed)
    (stands : seed.address? index = some address)
    (notEntry : address ≠ host.entry) :
    index < (host.indexGraph 0 seed).root := by
  refine Nat.lt_of_le_of_ne (seeded.le_root_of_address? stands) ?_
  intro isRoot
  rw [isRoot, seeded.root_eq, seeded.address?_entry, Option.some.injEq] at stands
  exact notEntry stands.symm

/-- The sources of an index are the indices of the predecessors of its block. -/
theorem mem_sources_iff
    (seeded : host.SeededBy seed)
    {time source : Nat} :
    source ∈ (host.indexGraph time seed).sources index ↔
      ∃ predecessor ∈ host.predecessors time (seed.blockAt index),
        seed.address? source = some predecessor := by
  simp only [indexGraph, List.mem_filterMap, seeded.distinct.postorder?_eq_some_iff]

/-- Bad blocks are those below the root that cannot be visited. -/
theorem bad_iff
    (seeded : host.SeededBy seed) :
    host.Bad index ↔
      index < (host.indexGraph 0 seed).root ∧ ¬ host.Resolvable 0 seed index := by
  constructor
  · rintro ⟨address, holds, notEntry, isBad⟩
    have stands := seeded.holds_iff.mp holds
    refine ⟨seeded.lt_root_of_address? stands notEntry, ?_⟩
    rintro ⟨known, source, isSource, higher⟩
    rw [KnowsPredecessors, DominatorTree.blockAt_eq stands] at known
    rcases isBad with ⟨predecessor, named, unknown⟩ | noHigher
    · exact unknown (seeded.lists_iff.mpr (known predecessor named))
    · obtain ⟨predecessor, named, sourceStands⟩ := seeded.mem_sources_iff.mp isSource
      rw [DominatorTree.blockAt_eq stands] at named
      have := noHigher predecessor named source (seeded.holds_iff.mpr sourceStands)
      omega
  · rintro ⟨below, unresolvable⟩
    have stands := seeded.address?_blockAt (Nat.le_of_lt below)
    refine ⟨seed.blockAt index, seeded.holds_iff.mpr stands,
      seeded.blockAt_ne_entry below, ?_⟩
    by_cases known : host.KnowsPredecessors 0 seed index
    · right
      intro predecessor named higher holds
      apply Nat.le_of_not_lt
      intro isHigher
      exact unresolvable ⟨known, higher,
        seeded.mem_sources_iff.mpr ⟨predecessor, named, seeded.holds_iff.mp holds⟩,
        isHigher⟩
    · left
      simp only [KnowsPredecessors, not_forall] at known
      obtain ⟨predecessor, named, unknown⟩ := known
      exact ⟨predecessor, named, fun listed => unknown (seeded.lists_iff.mp listed)⟩

/-- Without bad blocks every index can be linked. -/
theorem resolvable_of_not_bad
    (seeded : host.SeededBy seed)
    (noneBad : ∀ index, ¬ host.Bad index) :
    ∀ index < (host.indexGraph 0 seed).root, host.Resolvable 0 seed index := by
  intro index below
  by_contra unresolvable
  exact noneBad index (seeded.bad_iff.mpr ⟨below, unresolvable⟩)

/-- A path between indices is a path between the addresses. -/
theorem path_blockAt
    (seeded : host.SeededBy seed)
    {nodes : List Nat}
    (path : Path (host.indexGraph 0 seed).Edge (host.indexGraph 0 seed).root index nodes) :
    Path host.Edge host.entry (seed.blockAt index) (nodes.map seed.blockAt) := by
  have fromEntry : seed.blockAt (host.indexGraph 0 seed).root = host.entry := by
    rw [seeded.root_eq]
    exact DominatorTree.blockAt_eq seeded.address?_entry
  rw [← fromEntry]
  refine path.map seed.blockAt ?_
  rintro last next ⟨below, isSource⟩
  obtain ⟨predecessor, named, stands⟩ := seeded.mem_sources_iff.mp isSource
  refine ⟨seeded.blockAt_ne_entry below, ?_⟩
  rw [DominatorTree.blockAt_eq stands]
  exact named

/-- A path to a block is a path between indices if all predecessors are known. -/
theorem path_index
    (seeded : host.SeededBy seed)
    {time : Nat}
    (known :
      ∀ index < (host.indexGraph time seed).root, host.KnowsPredecessors time seed index)
    {nodes : List Address}
    (stands : seed.address? index = some address)
    (path : Path (host.EdgeAt time) host.entry address nodes) :
    Path (host.indexGraph time seed).Edge (host.indexGraph time seed).root index
        (nodes.map fun node => (seed.postorder? node).getD 0) ∧
      ∀ node ∈ nodes, seed.contains node = true := by
  have indexOf
      {node : Address}
      {position : Nat}
      (standsAt : seed.address? position = some node) :
      (seed.postorder? node).getD 0 = position := by
    rw [seeded.distinct.postorder?_eq_some_iff.mpr standsAt]
    rfl
  have fromRoot :
      (host.indexGraph time seed).root = (seed.postorder? host.entry).getD 0 := by
    rw [seeded.root_eq, indexOf seeded.address?_entry]
  rw [← indexOf stands, fromRoot]
  refine path.mapKnown (fun node => seed.contains node = true)
    (fun node => (seed.postorder? node).getD 0) ?_
    (DominatorTree.contains_iff.mpr ⟨index, stands⟩)
  rintro last next nextKnown ⟨notEntry, named⟩
  obtain ⟨position, nextStands⟩ := DominatorTree.contains_iff.mp nextKnown
  have below := seeded.lt_root_of_address? nextStands notEntry
  rw [← DominatorTree.blockAt_eq nextStands] at named
  have lastKnown := known position below last named
  obtain ⟨source, lastStands⟩ := DominatorTree.contains_iff.mp lastKnown
  rw [indexOf nextStands, indexOf lastStands]
  exact ⟨lastKnown, below, seeded.mem_sources_iff.mpr ⟨last, named, lastStands⟩⟩

/-- What dominates an index dominates its address if all predecessors are known. -/
theorem onEveryPath_of_dominates
    (seeded : host.SeededBy seed)
    {time target : Nat}
    {dominator : Address}
    (known :
      ∀ index < (host.indexGraph time seed).root, host.KnowsPredecessors time seed index)
    (stands : seed.address? index = some address)
    (dominatorStands : seed.address? target = some dominator)
    (dominates : (host.indexGraph time seed).Dominates target index) :
    OnEveryPath (host.EdgeAt time) host.entry dominator address := by
  intro nodes path
  obtain ⟨indexPath, nodesKnown⟩ := seeded.path_index known stands path
  obtain ⟨node, member, isTarget⟩ := List.mem_map.mp (dominates _ indexPath)
  obtain ⟨position, nodeStands⟩ := DominatorTree.contains_iff.mp (nodesKnown node member)
  rw [seeded.distinct.postorder?_eq_some_iff.mpr nodeStands, Option.getD_some] at isTarget
  rw [isTarget, dominatorStands, Option.some.injEq] at nodeStands
  exact nodeStands ▸ member

/-- Dominance between indices is dominance between their addresses. -/
theorem dominates_iff
    (seeded : host.SeededBy seed)
    (resolvable :
      ∀ index < (host.indexGraph 0 seed).root, host.Resolvable 0 seed index)
    {target : Nat}
    {dominator : Address}
    (stands : seed.address? index = some address)
    (dominatorStands : seed.address? target = some dominator) :
    (host.indexGraph 0 seed).Dominates target index ↔
      OnEveryPath host.Edge host.entry dominator address := by
  constructor
  · exact seeded.onEveryPath_of_dominates (fun index below => (resolvable index below).1)
      stands dominatorStands
  · intro dominates nodes path
    have addressPath := seeded.path_blockAt path
    rw [DominatorTree.blockAt_eq stands] at addressPath
    obtain ⟨position, member, isDominator⟩ := List.mem_map.mp (dominates _ addressPath)
    have inside := IndexGraph.le_root_of_mem_path path position member
    have positionStands := seeded.address?_blockAt inside
    rw [isDominator] at positionStands
    exact seeded.distinct _ _ _ positionStands dominatorStands ▸ member

/-- Only blocks of the host lie on every path to one of its blocks. -/
theorem contains_of_onEveryPath
    (seeded : host.SeededBy seed)
    (resolvable :
      ∀ index < (host.indexGraph 0 seed).root, host.Resolvable 0 seed index)
    {dominator : Address}
    (stands : seed.address? index = some address)
    (dominates : OnEveryPath host.Edge host.entry dominator address) :
    seed.contains dominator = true := by
  obtain ⟨nodes, path⟩ :=
    IndexGraph.exists_path (fun index below => (resolvable index below).2)
      (seeded.le_root_of_address? stands)
  have addressPath := seeded.path_blockAt path
  rw [DominatorTree.blockAt_eq stands] at addressPath
  obtain ⟨position, member, isDominator⟩ := List.mem_map.mp (dominates _ addressPath)
  have inside := IndexGraph.le_root_of_mem_path path position member
  exact DominatorTree.contains_iff.mpr
    ⟨position, isDominator ▸ seeded.address?_blockAt inside⟩

end Host.SeededBy

end Dominance
