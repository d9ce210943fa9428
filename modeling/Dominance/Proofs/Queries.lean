import Mathlib.Data.List.Chain
import Mathlib.Data.List.Nodup
import Dominance.Proofs.Visit

namespace Dominance

/-!
# What a verified tree answers

A tree that passes verification is rooted and complete: every chain climbs to the root.
If no address is repeated as well, indices and addresses stand for each other, and each
question about addresses is a question about chains of indices.  The walk that stops
early, the list of dominators, the search for children and the list of all links then
agree on one tree, and none of them meets a link that leads out of it.
-/

namespace Address

theorem le_trans
    {first second third : Address}
    (lower : first ≤ second)
    (upper : second ≤ third) :
    first ≤ third :=
  UInt64.le_trans lower upper

theorem le_total (first second : Address) : first ≤ second ∨ second ≤ first :=
  UInt64.le_total first.value second.value

theorem lt_of_le_of_ne
    {first second : Address}
    (notAbove : first ≤ second)
    (different : first ≠ second) :
    first < second := by
  refine UInt64.lt_of_le_of_ne notAbove ?_
  intro sameValue
  cases first
  cases second
  exact different (congrArg Address.mk sameValue)

theorem ne_of_lt
    {first second : Address}
    (below : first < second) :
    first ≠ second := by
  rintro rfl
  exact UInt64.lt_irrefl first.value below

/-- Different addresses are sorted into strictly increasing order. -/
theorem pairwise_mergeSort
    {addresses : List Address}
    (different : addresses.Nodup) :
    (addresses.mergeSort fun first second => first ≤ second).Pairwise (· < ·) := by
  have sorted :
      (addresses.mergeSort fun first second => first ≤ second).Pairwise
        fun first second => decide (first ≤ second) = true := by
    apply List.pairwise_mergeSort
    · intro first second third lower upper
      exact decide_eq_true (le_trans (of_decide_eq_true lower) (of_decide_eq_true upper))
    · intro first second
      simpa using le_total first second
  have stillDifferent :
      (addresses.mergeSort fun first second => first ≤ second).Nodup :=
    (List.mergeSort_perm addresses _).nodup_iff.mpr different
  exact (sorted.and stillDifferent).imp fun ordered =>
    lt_of_le_of_ne (of_decide_eq_true ordered.1) ordered.2

end Address

namespace DominatorTree

/-! ## Chains -/

/-- Of two members of a chain one is on the chain of the other. -/
theorem mem_ascent_or_mem_ascent
    {tree : DominatorTree}
    {index first second : Nat}
    (onFirst : first ∈ tree.ascent index)
    (onSecond : second ∈ tree.ascent index) :
    second ∈ tree.ascent first ∨ first ∈ tree.ascent second := by
  fun_induction tree.ascent index with
  | case1 index ends =>
      left
      rw [List.mem_singleton.mp onFirst, List.mem_singleton.mp onSecond]
      exact tree.self_mem_ascent index
  | case2 index dominator climbs inductionHypothesis =>
      rcases List.mem_cons.mp onFirst with isIndex | firstAbove
      · subst isIndex
        left
        rw [ascent_of_climbs climbs]
        exact onSecond
      · rcases List.mem_cons.mp onSecond with isIndex | secondAbove
        · subst isIndex
          right
          exact mem_ascent_of_climb climbs firstAbove
        · exact inductionHypothesis firstAbove secondAbove

/-- The indices of a chain increase. -/
theorem pairwise_ascent
    (tree : DominatorTree)
    (index : Nat) :
    (tree.ascent index).Pairwise (· < ·) :=
  List.isChain_iff_pairwise.mp
    ((tree.isChain_ascent index).imp fun _ _ climbs => climbs.1)

/-! ## Dominance -/

/-- Dominance is membership in a chain, from index to index as the addresses are found. -/
theorem dominates_eq_true_iff
    {tree : DominatorTree}
    {first second : Address} :
    tree.dominates first second = true ↔
      ∃ target index,
        tree.postorder? first = some target ∧
          tree.postorder? second = some index ∧
            target ∈ tree.ascent index := by
  rw [dominates]
  cases tree.postorder? first with
  | none => simp
  | some target =>
      cases tree.postorder? second with
      | none => simp
      | some index => simp [reaches_eq_true_iff]

/-- Two addresses dominate each other only if they are one, whatever the links are. -/
theorem dominates_antisymm
    {tree : DominatorTree}
    {first second : Address}
    (lower : tree.dominates first second = true)
    (upper : tree.dominates second first = true) :
    first = second := by
  obtain ⟨target, index, firstFound, secondFound, onSecond⟩ := dominates_eq_true_iff.mp lower
  obtain ⟨_, _, secondAgain, firstAgain, onFirst⟩ := dominates_eq_true_iff.mp upper
  rw [secondFound, Option.some.injEq] at secondAgain
  rw [firstFound, Option.some.injEq] at firstAgain
  subst secondAgain firstAgain
  obtain rfl := Nat.le_antisymm (le_of_mem_ascent onFirst) (le_of_mem_ascent onSecond)
  have stands := (address?_of_postorder? firstFound).2
  rw [(address?_of_postorder? secondFound).2, Option.some.injEq] at stands
  exact stands.symm

/-- Dominance goes along a chain. -/
theorem dominates_trans
    {tree : DominatorTree}
    {first second third : Address}
    (upper : tree.dominates first second = true)
    (lower : tree.dominates second third = true) :
    tree.dominates first third = true := by
  obtain ⟨target, middle, firstFound, secondFound, onMiddle⟩ := dominates_eq_true_iff.mp upper
  obtain ⟨_, index, secondAgain, thirdFound, onIndex⟩ := dominates_eq_true_iff.mp lower
  rw [secondFound, Option.some.injEq] at secondAgain
  subst secondAgain
  exact dominates_eq_true_iff.mpr
    ⟨target, index, firstFound, thirdFound, mem_ascent_trans onIndex onMiddle⟩

/-- What dominates one address is ordered by dominance. -/
theorem dominates_total
    {tree : DominatorTree}
    {block first second : Address}
    (firstDominates : tree.dominates first block = true)
    (secondDominates : tree.dominates second block = true) :
    tree.dominates first second = true ∨ tree.dominates second first = true := by
  obtain ⟨upper, index, firstFound, found, onIndex⟩ := dominates_eq_true_iff.mp firstDominates
  obtain ⟨lower, _, secondFound, again, onSame⟩ := dominates_eq_true_iff.mp secondDominates
  rw [found, Option.some.injEq] at again
  subst again
  rcases mem_ascent_or_mem_ascent onIndex onSame with onUpper | onLower
  · exact .inr (dominates_eq_true_iff.mpr ⟨lower, upper, secondFound, firstFound, onUpper⟩)
  · exact .inl (dominates_eq_true_iff.mpr ⟨upper, lower, firstFound, secondFound, onLower⟩)

/-! ## Verification -/

/-- A link below the root without fault climbs and stays inside the tree. -/
theorem linkFault?_eq_none_iff
    {tree : DominatorTree}
    {root index : Nat} :
    tree.linkFault? root index = none ↔
      ∃ dominator,
        tree.link? index = some dominator ∧ index < dominator ∧ dominator ≤ root := by
  rw [linkFault?]
  cases recorded : tree.link? index with
  | none => simp
  | some dominator =>
      by_cases climbs : index < dominator ∧ dominator ≤ root
      · simp [climbs]
      · simp only [if_neg climbs, Option.some.injEq, exists_eq_left', reduceCtorEq, false_iff]
        exact climbs

/-- A tree passes if the root has itself and all others a higher index as their link. -/
theorem verify_eq_ok_iff
    {tree : DominatorTree}
    {root : Nat}
    (size_eq : tree.size = root + 1) :
    tree.verify = .ok () ↔
      tree.link? root = some root ∧
        ∀ index < root,
          ∃ dominator,
            tree.link? index = some dominator ∧ index < dominator ∧ dominator ≤ root := by
  have noFault : tree.verify = .ok () ↔ tree.fault? = none := by
    rw [verify]
    cases tree.fault? <;> simp
  rw [noFault]
  simp only [fault?, size_eq]
  by_cases rootLinked : tree.link? root = some root
  · rw [if_pos rootLinked, List.findSome?_eq_none_iff]
    simp only [List.mem_range, linkFault?_eq_none_iff, rootLinked, true_and]
  · simp [rootLinked]

/-- A tree without repetitions in which every index is linked and every chain leads to the root. -/
structure Complete (tree : DominatorTree) (root : Nat) : Prop where
  rooted : tree.Rooted root
  linked : ∀ index ≤ root, tree.isLinked index = true
  noRepetition : tree.order.toList.Nodup

/-- A tree that passes verification is rooted, and all its indices are linked. -/
theorem rooted_of_verify
    {tree : DominatorTree}
    {root : Nat}
    (size_eq : tree.size = root + 1)
    (verified : tree.verify = .ok ()) :
    tree.Rooted root ∧ ∀ index ≤ root, tree.isLinked index = true := by
  obtain ⟨rootLink, climbs⟩ := (verify_eq_ok_iff size_eq).mp verified
  have linked : ∀ index ≤ root, tree.isLinked index = true := by
    intro index inside
    rcases Nat.lt_or_eq_of_le inside with below | isRoot
    · obtain ⟨dominator, recorded, _⟩ := climbs index below
      exact isLinked_iff.mpr ⟨dominator, recorded⟩
    · exact isLinked_iff.mpr ⟨root, isRoot ▸ rootLink⟩
  refine ⟨⟨size_eq, rootLink, ?_⟩, linked⟩
  intro index dominator below recorded
  obtain ⟨other, otherRecorded, higher, inside⟩ := climbs index below
  rw [recorded] at otherRecorded
  cases otherRecorded
  exact ⟨higher, linked dominator inside⟩

/-- Verification makes a tree without repetitions complete. -/
theorem complete_of_verify
    {tree : DominatorTree}
    {root : Nat}
    (size_eq : tree.size = root + 1)
    (noRepetition : tree.order.toList.Nodup)
    (verified : tree.verify = .ok ()) :
    tree.Complete root := by
  obtain ⟨rooted, linked⟩ := rooted_of_verify size_eq verified
  exact ⟨rooted, linked, noRepetition⟩

/-! ## Addresses of indices -/

theorem blockAt_of_lt
    {tree : DominatorTree}
    {index : Nat}
    (inside : index < tree.size) :
    tree.address? index = some (tree.blockAt index) := by
  rw [blockAt, address?, Array.getElem?_eq_getElem inside]
  rfl

theorem addressAt_of_lt
    {tree : DominatorTree}
    {index : Nat}
    (inside : index < tree.size) :
    tree.addressAt index = .ok (tree.blockAt index) := by
  rw [addressAt, blockAt_of_lt inside]

/-- The addresses at indices inside the tree are found. -/
theorem mapM_addressAt
    {tree : DominatorTree}
    {indices : List Nat}
    (inside : ∀ index ∈ indices, index < tree.size) :
    indices.mapM tree.addressAt = .ok (indices.map tree.blockAt) := by
  induction indices with
  | nil => rfl
  | cons first rest inductionHypothesis =>
      obtain ⟨firstInside, restInside⟩ := List.forall_mem_cons.mp inside
      rw [List.mapM_cons, addressAt_of_lt firstInside, inductionHypothesis restInside]
      rfl

/-- The addresses below the root, in the order of their indices. -/
theorem dropLast_order
    {tree : DominatorTree}
    {root : Nat}
    (size_eq : tree.size = root + 1) :
    tree.order.toList.dropLast = (List.range root).map tree.blockAt := by
  apply List.ext_getElem?
  intro index
  have length_eq : tree.order.toList.length = root + 1 := size_eq
  rw [List.getElem?_dropLast, List.getElem?_map, length_eq, Nat.add_sub_cancel]
  by_cases below : index < root
  · rw [if_pos below, List.getElem?_range below, Option.map_some]
    rw [Array.getElem?_toList]
    apply blockAt_of_lt
    rw [size_eq]
    exact Nat.lt_succ_of_lt below
  · rw [if_neg below, List.getElem?_eq_none (by simpa using below), Option.map_none]

theorem properLink?_eq_some_iff
    {tree : DominatorTree}
    {index dominator : Nat} :
    tree.properLink? index = some dominator ↔
      tree.link? index = some dominator ∧ dominator ≠ index := by
  rw [properLink?, Option.filter_eq_some_iff, decide_eq_true_eq]

/-- All that there is to an immediate dominator. -/
theorem immediateDominator_eq_some_iff
    {tree : DominatorTree}
    {block dominator : Address} :
    tree.immediateDominator block = .ok (some dominator) ↔
      ∃ index link,
        tree.postorder? block = some index ∧
          tree.properLink? index = some link ∧
            tree.address? link = some dominator := by
  rw [immediateDominator]
  cases found : tree.postorder? block with
  | none => simp
  | some index =>
      cases linked : tree.properLink? index with
      | none => simp [linked]
      | some link =>
          cases stands : tree.address? link <;>
            simp [linked, stands, addressAt, Except.map]

/-- The children of an address are the blocks that are linked to its index, sorted. -/
theorem children_of_postorder?
    {tree : DominatorTree}
    {parent : Address}
    {index : Nat}
    (found : tree.postorder? parent = some index) :
    tree.children parent =
      (((List.range tree.size).filter fun child =>
          tree.properLink? child = some index).filterMap tree.address?).mergeSort
        fun first second => first ≤ second := by
  rw [children, found]

namespace Complete

variable {tree : DominatorTree} {root index : Nat} {block : Address}

theorem distinct (complete : tree.Complete root) : tree.Distinct :=
  distinct_of_nodup complete.noRepetition

theorem lt_size_iff (complete : tree.Complete root) : index < tree.size ↔ index ≤ root := by
  rw [complete.rooted.size_eq, Nat.lt_succ_iff]

/-- The index of a block is found by its address. -/
theorem postorder?_blockAt
    (complete : tree.Complete root)
    (inside : index ≤ root) :
    tree.postorder? (tree.blockAt index) = some index :=
  complete.distinct.postorder?_eq_some_iff.mpr
    (blockAt_of_lt (complete.lt_size_iff.mpr inside))

/-- An address that is found stands at an index up to the root. -/
theorem eq_blockAt
    (complete : tree.Complete root)
    (found : tree.postorder? block = some index) :
    index ≤ root ∧ block = tree.blockAt index := by
  obtain ⟨inside, stands⟩ := address?_of_postorder? found
  rw [blockAt_of_lt inside, Option.some.injEq] at stands
  exact ⟨complete.lt_size_iff.mp inside, stands.symm⟩

/-- Every known address is that of an index. -/
theorem exists_blockAt
    (complete : tree.Complete root)
    (known : tree.contains block = true) :
    ∃ index ≤ root, block = tree.blockAt index := by
  obtain ⟨index, found⟩ := Option.isSome_iff_exists.mp known
  exact ⟨index, complete.eq_blockAt found⟩

theorem contains_blockAt
    (complete : tree.Complete root)
    (inside : index ≤ root) :
    tree.contains (tree.blockAt index) = true := by
  rw [contains, complete.postorder?_blockAt inside]
  rfl

/-- Different indices have different addresses. -/
theorem blockAt_inj
    (complete : tree.Complete root)
    {first second : Nat}
    (firstInside : first ≤ root)
    (secondInside : second ≤ root)
    (same : tree.blockAt first = tree.blockAt second) :
    first = second := by
  have found := complete.postorder?_blockAt firstInside
  rw [same, complete.postorder?_blockAt secondInside] at found
  exact (Option.some.inj found).symm

theorem entry_eq (complete : tree.Complete root) : tree.entry = tree.blockAt root := by
  have isLast : tree.order.size - 1 = root := by
    have size_eq := complete.rooted.size_eq
    rw [size] at size_eq
    rw [size_eq, Nat.add_sub_cancel]
  rw [entry, Array.back?, isLast, blockAt, address?]

theorem contains_entry (complete : tree.Complete root) : tree.contains tree.entry = true := by
  rw [complete.entry_eq]
  exact complete.contains_blockAt (Nat.le_refl root)

theorem le_root_of_mem_ascent
    (complete : tree.Complete root)
    (inside : index ≤ root)
    {target : Nat}
    (member : target ∈ tree.ascent index) :
    target ≤ root :=
  complete.lt_size_iff.mp
    (complete.rooted.lt_size_of_mem_ascent (complete.lt_size_iff.mpr inside) member)

/-! ## Immediate dominators -/

/-- The immediate dominator of a block is what its index is linked to. -/
theorem immediateDominator_blockAt
    (complete : tree.Complete root)
    {dominator : Nat}
    (higher : index < dominator)
    (recorded : tree.link? index = some dominator) :
    tree.immediateDominator (tree.blockAt index) = .ok (some (tree.blockAt dominator)) := by
  have climbs : tree.climb? index = some dominator :=
    Option.filter_eq_some_iff.mpr ⟨recorded, decide_eq_true higher⟩
  obtain ⟨indexLinked, dominatorLinked⟩ := complete.rooted.isLinked_of_climb climbs
  have inside := complete.rooted.le_of_isLinked indexLinked
  have dominatorInside := complete.rooted.le_of_isLinked dominatorLinked
  exact immediateDominator_eq_some_iff.mpr
    ⟨index, dominator, complete.postorder?_blockAt inside,
      properLink?_eq_some_iff.mpr ⟨recorded, Nat.ne_of_gt higher⟩,
      blockAt_of_lt (complete.lt_size_iff.mpr dominatorInside)⟩

/-- Every address but that of the root has an immediate dominator. -/
theorem exists_immediateDominator
    (complete : tree.Complete root)
    (below : index < root) :
    ∃ dominator,
      tree.properLink? index = some dominator ∧
        dominator ≤ root ∧
          tree.immediateDominator (tree.blockAt index) = .ok (some (tree.blockAt dominator)) := by
  obtain ⟨dominator, recorded, climbs, dominatorLinked⟩ :=
    complete.rooted.exists_climb (complete.linked index (Nat.le_of_lt below)) below
  have higher := (lt_of_climb?_eq_some climbs).2
  exact ⟨dominator, properLink?_eq_some_iff.mpr ⟨recorded, Nat.ne_of_gt higher⟩,
    complete.rooted.le_of_isLinked dominatorLinked,
    complete.immediateDominator_blockAt higher recorded⟩

theorem properLink?_root (complete : tree.Complete root) : tree.properLink? root = none := by
  rw [properLink?, complete.rooted.root_link]
  simp

/-- The addresses below the root are those that have an immediate dominator. -/
theorem mem_dropLast_iff (complete : tree.Complete root) :
    block ∈ tree.order.toList.dropLast ↔
      ∃ dominator, tree.immediateDominator block = .ok (some dominator) := by
  rw [dropLast_order complete.rooted.size_eq, List.mem_map]
  constructor
  · rintro ⟨index, isIndex, rfl⟩
    obtain ⟨dominator, _, _, answered⟩ :=
      complete.exists_immediateDominator (List.mem_range.mp isIndex)
    exact ⟨tree.blockAt dominator, answered⟩
  · rintro ⟨dominator, answered⟩
    obtain ⟨index, link, found, linked, _⟩ := immediateDominator_eq_some_iff.mp answered
    obtain ⟨inside, rfl⟩ := complete.eq_blockAt found
    refine ⟨index, List.mem_range.mpr (Nat.lt_of_le_of_ne inside ?_), rfl⟩
    rintro rfl
    rw [complete.properLink?_root] at linked
    cases linked

/-- The entry has no immediate dominator. -/
theorem immediateDominator_entry (complete : tree.Complete root) :
    tree.immediateDominator tree.entry = .ok none := by
  rw [complete.entry_eq, immediateDominator, complete.postorder?_blockAt (Nat.le_refl root),
    Option.bind_some, complete.properLink?_root]

/-! ## Dominators and depth -/

/-- The dominators of an address are the addresses on the chain of its index. -/
theorem dominators_blockAt
    (complete : tree.Complete root)
    (inside : index ≤ root) :
    tree.dominators (tree.blockAt index) = .ok ((tree.ascent index).map tree.blockAt) := by
  rw [dominators, dominatorIndices, complete.postorder?_blockAt inside]
  apply mapM_addressAt
  intro target member
  exact complete.lt_size_iff.mpr (complete.le_root_of_mem_ascent inside member)

/-- The depth of a block is the number of steps on its chain. -/
theorem depth_blockAt
    (complete : tree.Complete root)
    (inside : index ≤ root) :
    tree.depth (tree.blockAt index) = .ok (some ((tree.ascent index).length - 1)) := by
  rw [depth, if_pos (complete.contains_blockAt inside), complete.dominators_blockAt inside]
  simp [Except.map]

/-- Dominance between addresses is membership in a chain. -/
theorem dominates_blockAt_iff
    (complete : tree.Complete root)
    {target : Nat}
    (targetInside : target ≤ root)
    (inside : index ≤ root) :
    tree.dominates (tree.blockAt target) (tree.blockAt index) = true ↔
      target ∈ tree.ascent index := by
  rw [dominates, complete.postorder?_blockAt targetInside, complete.postorder?_blockAt inside]
  exact reaches_eq_true_iff

/-- Only addresses of the tree dominate and are dominated. -/
theorem exists_of_dominates
    (complete : tree.Complete root)
    {dominator : Address}
    (dominates : tree.dominates dominator block = true) :
    ∃ target ≤ root, ∃ index ≤ root,
      dominator = tree.blockAt target ∧
        block = tree.blockAt index ∧
          target ∈ tree.ascent index := by
  rw [DominatorTree.dominates] at dominates
  split at dominates
  · rename_i target index targetFound found
    obtain ⟨targetInside, dominator_eq⟩ := complete.eq_blockAt targetFound
    obtain ⟨inside, block_eq⟩ := complete.eq_blockAt found
    exact ⟨target, targetInside, index, inside, dominator_eq, block_eq,
      reaches_eq_true_iff.mp dominates⟩
  · cases dominates

/-- What dominates an address is on its chain. -/
theorem dominates_iff_mem
    (complete : tree.Complete root)
    (inside : index ≤ root) :
    tree.dominates block (tree.blockAt index) = true ↔
      block ∈ (tree.ascent index).map tree.blockAt := by
  rw [List.mem_map]
  constructor
  · intro dominates
    obtain ⟨target, targetInside, other, otherInside, rfl, same, member⟩ :=
      complete.exists_of_dominates dominates
    obtain rfl := complete.blockAt_inj inside otherInside same
    exact ⟨target, member, rfl⟩
  · rintro ⟨target, member, rfl⟩
    exact (complete.dominates_blockAt_iff
      (complete.le_root_of_mem_ascent inside member) inside).mpr member

theorem dominates_refl
    (complete : tree.Complete root)
    (known : tree.contains block = true) :
    tree.dominates block block = true := by
  obtain ⟨index, inside, rfl⟩ := complete.exists_blockAt known
  exact (complete.dominates_blockAt_iff inside inside).mpr (tree.self_mem_ascent index)

/-! ## Children -/

/-- The children of an address are the blocks that it immediately dominates. -/
theorem mem_children_iff
    (complete : tree.Complete root)
    {parent : Address} :
    block ∈ tree.children parent ↔ tree.immediateDominator block = .ok (some parent) := by
  rw [immediateDominator_eq_some_iff]
  constructor
  · intro isChild
    cases found : tree.postorder? parent with
    | none =>
        rw [children, found] at isChild
        cases isChild
    | some link =>
        rw [children_of_postorder? found, List.mem_mergeSort, List.mem_filterMap] at isChild
        obtain ⟨index, isIndex, stands⟩ := isChild
        refine ⟨index, link, complete.distinct.postorder?_eq_some_iff.mpr stands, ?_,
          (address?_of_postorder? found).2⟩
        simpa using (List.mem_filter.mp isIndex).2
  · rintro ⟨index, link, found, linked, stands⟩
    obtain ⟨inside, blockStands⟩ := address?_of_postorder? found
    rw [children_of_postorder? (complete.distinct.postorder?_eq_some_iff.mpr stands),
      List.mem_mergeSort, List.mem_filterMap]
    exact ⟨index, List.mem_filter.mpr ⟨List.mem_range.mpr inside, decide_eq_true linked⟩,
      blockStands⟩

/-- Children are listed by increasing address, each once. -/
theorem pairwise_children
    (complete : tree.Complete root)
    (parent : Address) :
    (tree.children parent).Pairwise (· < ·) := by
  cases found : tree.postorder? parent with
  | none =>
      rw [children, found]
      exact List.Pairwise.nil
  | some link =>
      rw [children_of_postorder? found]
      apply Address.pairwise_mergeSort
      refine (List.nodup_range.filter _).filterMap ?_
      intro first second address firstStands secondStands
      exact complete.distinct first second address firstStands secondStands

/-- The children of all addresses are the addresses below the root, each once. -/
theorem flatMap_children_perm (complete : tree.Complete root) :
    (tree.order.toList.flatMap tree.children).Perm tree.order.toList.dropLast := by
  have childrenOnce : (tree.order.toList.flatMap tree.children).Nodup := by
    rw [List.nodup_flatMap]
    refine ⟨fun parent _ => (complete.pairwise_children parent).imp Address.ne_of_lt, ?_⟩
    refine complete.noRepetition.imp ?_
    intro first second different child ofFirst ofSecond
    have answered := complete.mem_children_iff.mp ofFirst
    rw [complete.mem_children_iff.mp ofSecond] at answered
    cases answered
    exact different rfl
  have blocksOnce := complete.noRepetition.sublist (List.dropLast_sublist _)
  rw [List.perm_ext_iff_of_nodup childrenOnce blocksOnce]
  intro child
  rw [List.mem_flatMap, complete.mem_dropLast_iff]
  constructor
  · rintro ⟨parent, _, isChild⟩
    exact ⟨parent, complete.mem_children_iff.mp isChild⟩
  · rintro ⟨parent, answered⟩
    obtain ⟨_, link, _, _, stands⟩ := immediateDominator_eq_some_iff.mp answered
    refine ⟨parent, ?_, complete.mem_children_iff.mpr answered⟩
    exact List.mem_of_getElem? (Array.getElem?_toList.trans stands)

/-! ## All links -/

/-- The links of indices below the root are listed with the addresses at their ends. -/
theorem mapM_links
    (complete : tree.Complete root)
    {indices : List Nat}
    (below : ∀ index ∈ indices, index < root) :
    ∃ pairs,
      ((indices.filterMap fun index =>
          (tree.properLink? index).map fun dominator => (index, dominator)).mapM fun link => do
        let address ← tree.addressAt link.1
        let dominator ← tree.addressAt link.2
        return (address, dominator)) = .ok pairs ∧
        pairs.map Prod.fst = indices.map tree.blockAt ∧
          ∀ pair ∈ pairs, tree.immediateDominator pair.1 = .ok (some pair.2) := by
  induction indices with
  | nil => exact ⟨[], rfl, rfl, by simp⟩
  | cons first rest inductionHypothesis =>
      obtain ⟨firstBelow, restBelow⟩ := List.forall_mem_cons.mp below
      obtain ⟨dominator, linked, inside, answered⟩ :=
        complete.exists_immediateDominator firstBelow
      obtain ⟨pairs, listed, addresses, allAnswered⟩ := inductionHypothesis restBelow
      refine ⟨(tree.blockAt first, tree.blockAt dominator) :: pairs, ?_, ?_, ?_⟩
      · rw [List.filterMap_cons_some (by rw [linked]; rfl), List.mapM_cons,
          addressAt_of_lt (complete.lt_size_iff.mpr (Nat.le_of_lt firstBelow)),
          addressAt_of_lt (complete.lt_size_iff.mpr inside), listed]
        rfl
      · rw [List.map_cons, List.map_cons, addresses]
      · exact List.forall_mem_cons.mpr ⟨answered, allAnswered⟩

/-- All links are listed once, from the highest index down. -/
theorem exists_toList (complete : tree.Complete root) :
    ∃ pairs,
      tree.toList = .ok pairs ∧
        pairs.map Prod.fst = tree.order.toList.dropLast.reverse ∧
          ∀ pair ∈ pairs, tree.immediateDominator pair.1 = .ok (some pair.2) := by
  have below : ∀ index ∈ (List.range root).reverse, index < root := by
    intro index member
    exact List.mem_range.mp (List.mem_reverse.mp member)
  obtain ⟨pairs, listed, addresses, answered⟩ := complete.mapM_links below
  refine ⟨pairs, ?_, ?_, answered⟩
  · rw [toList, complete.rooted.size_eq, List.range_succ, List.reverse_append,
      List.reverse_singleton, List.singleton_append,
      List.filterMap_cons_none (by rw [complete.properLink?_root]; rfl)]
    exact listed
  · rw [addresses, dropLast_order complete.rooted.size_eq, List.map_reverse]

end Complete

/-! ## Addresses outside the tree -/

/-- An address outside the tree gets no answer to any question. -/
structure Unanswered (tree : DominatorTree) (address : Address) : Prop where
  postorder : tree.postorder? address = none
  immediateDominator : tree.immediateDominator address = .ok none
  dominators : tree.dominators address = .ok []
  depth : tree.depth address = .ok none
  children : tree.children address = []
  dominates : ∀ other, tree.dominates address other = false
  dominated : ∀ other, tree.dominates other address = false
  strictlyDominates : ∀ other, tree.strictlyDominates address other = false
  strictlyDominated : ∀ other, tree.strictlyDominates other address = false

/-- Questions about an unknown address have empty answers. -/
theorem unanswered_of_not_contains
    {tree : DominatorTree}
    {address : Address}
    (unknown : tree.contains address = false) :
    tree.Unanswered address := by
  have notFound : tree.postorder? address = none := by
    rw [contains, Option.isSome_eq_false_iff, Option.isNone_iff_eq_none] at unknown
    exact unknown
  have dominatesNone : ∀ other, tree.dominates address other = false := by
    intro other
    rw [dominates, notFound]
  have dominatedByNone : ∀ other, tree.dominates other address = false := by
    intro other
    rw [dominates, notFound]
    cases tree.postorder? other <;> rfl
  refine ⟨notFound, ?_, ?_, ?_, ?_, dominatesNone, dominatedByNone, ?_, ?_⟩
  · rw [immediateDominator, notFound]
    rfl
  · rw [dominators, dominatorIndices, notFound]
    rfl
  · simp [depth, unknown]
  · rw [children, notFound]
  · intro other
    rw [strictlyDominates, dominatesNone, Bool.and_false]
  · intro other
    rw [strictlyDominates, dominatedByNone, Bool.and_false]

/-! ## One tree -/

/-- A list of addresses that climbs to the root from immediate dominator to immediate dominator. -/
structure ClimbsFrom
    (tree : DominatorTree)
    (block : Address)
    (chain : List Address) :
    Prop where
  starts : chain.head? = some block
  ends : chain.getLast? = some tree.entry
  increases :
    ∃ indices : List Nat,
      chain.map tree.postorder? = indices.map some ∧ indices.Pairwise (· < ·)
  steps :
    chain.IsChain fun lower higher => tree.immediateDominator lower = .ok (some higher)

/-- All questions are answered from one tree over the addresses in it. -/
structure AnswersAsOneTree (tree : DominatorTree) : Prop where
  /-- The dominators of a block climb to the root; the walk and the depth agree with them. -/
  chains :
    ∀ block,
      tree.contains block = true →
        ∃ chain depth,
          tree.dominators block = .ok chain ∧
            tree.ClimbsFrom block chain ∧
              (∀ other, tree.dominates other block = true ↔ other ∈ chain) ∧
                tree.depth block = .ok (some depth) ∧ depth + 1 = chain.length
  /-- Dominance is a partial order on the blocks of the tree. -/
  dominates_refl : ∀ block, tree.contains block = true → tree.dominates block block = true
  dominates_antisymm :
    ∀ first second,
      tree.dominates first second = true → tree.dominates second first = true → first = second
  dominates_trans :
    ∀ first second third,
      tree.dominates first second = true →
        tree.dominates second third = true → tree.dominates first third = true
  /-- The dominators of a block are ordered by it. -/
  dominates_total :
    ∀ block first second,
      tree.dominates first block = true →
        tree.dominates second block = true →
          tree.dominates first second = true ∨ tree.dominates second first = true
  /-- The root has no immediate dominator. -/
  entry : tree.contains tree.entry = true ∧ tree.immediateDominator tree.entry = .ok none
  /-- The children of a block are what it immediately dominates, by increasing address. -/
  children_sorted : ∀ parent, (tree.children parent).Pairwise (· < ·)
  mem_children :
    ∀ parent block,
      block ∈ tree.children parent ↔ tree.immediateDominator block = .ok (some parent)
  /-- All blocks but the root are the child of one block. -/
  children_partition :
    (tree.order.toList.flatMap tree.children).Perm tree.order.toList.dropLast
  /-- The list of all links names each block but the root once, from the highest index down. -/
  links :
    ∃ pairs,
      tree.toList = .ok pairs ∧
        pairs.map Prod.fst = tree.order.toList.dropLast.reverse ∧
          ∀ pair ∈ pairs, tree.immediateDominator pair.1 = .ok (some pair.2)
  /-- Nothing is said about an address outside the tree. -/
  outside : ∀ address, tree.contains address = false → tree.Unanswered address

/-- The chain of an index climbs through immediate dominators. -/
theorem Complete.climbsFrom
    {tree : DominatorTree}
    {root index : Nat}
    (complete : tree.Complete root)
    (inside : index ≤ root) :
    tree.ClimbsFrom (tree.blockAt index) ((tree.ascent index).map tree.blockAt) where
  starts := by rw [List.head?_map, tree.head?_ascent, Option.map_some]
  ends := by
    rw [List.getLast?_map, complete.rooted.getLast?_ascent (complete.linked index inside),
      Option.map_some, complete.entry_eq]
  increases := by
    refine ⟨tree.ascent index, ?_, tree.pairwise_ascent index⟩
    rw [List.map_map]
    apply List.map_congr_left
    intro target member
    exact complete.postorder?_blockAt (complete.le_root_of_mem_ascent inside member)
  steps := by
    rw [List.isChain_map]
    exact (tree.isChain_ascent index).imp fun _ _ climbs =>
      complete.immediateDominator_blockAt climbs.1 climbs.2

/--
A tree that has addresses, repeats none and passes verification answers all questions
without failing, and all answers describe one tree.
-/
theorem answersAsOneTree_of_verify
    (tree : DominatorTree)
    (nonempty : 0 < tree.size)
    (noRepetition : tree.order.toList.Nodup)
    (verified : tree.verify = .ok ()) :
    tree.AnswersAsOneTree := by
  obtain ⟨root, size_eq⟩ := Nat.exists_eq_succ_of_ne_zero (Nat.ne_of_gt nonempty)
  have complete := complete_of_verify size_eq noRepetition verified
  constructor
  case chains =>
    intro block known
    obtain ⟨index, inside, rfl⟩ := complete.exists_blockAt known
    refine ⟨_, _, complete.dominators_blockAt inside, complete.climbsFrom inside, ?_,
      complete.depth_blockAt inside, ?_⟩
    · intro other
      exact complete.dominates_iff_mem inside
    · rw [List.length_map]
      exact Nat.sub_add_cancel (List.length_pos_of_mem (tree.self_mem_ascent index))
  case dominates_refl => exact fun _ => complete.dominates_refl
  case dominates_antisymm => exact fun _ _ => DominatorTree.dominates_antisymm
  case dominates_trans => exact fun _ _ _ => DominatorTree.dominates_trans
  case dominates_total => exact fun _ _ _ => DominatorTree.dominates_total
  case entry => exact ⟨complete.contains_entry, complete.immediateDominator_entry⟩
  case children_sorted => exact complete.pairwise_children
  case mem_children => exact fun _ _ => complete.mem_children_iff
  case children_partition => exact complete.flatMap_children_perm
  case links => exact complete.exists_toList
  case outside => exact fun _ => unanswered_of_not_contains

/-- Two branches that join, and a block after them. -/
def joinedBranches : DominatorTree where
  order := #[⟨40⟩, ⟨10⟩, ⟨30⟩, ⟨20⟩, ⟨50⟩]
  links := #[some 1, some 4, some 4, some 4, some 4]
  passes := 0
  links_size := rfl

/-- The block where the branches join is a child of the root, as both branches are. -/
theorem joinedBranches_answersAsOneTree :
    joinedBranches.verify = .ok () ∧
      joinedBranches.AnswersAsOneTree ∧
        ⟨10⟩ ∈ joinedBranches.children ⟨50⟩ ∧ ⟨40⟩ ∈ joinedBranches.children ⟨10⟩ := by
  have answers : joinedBranches.AnswersAsOneTree :=
    answersAsOneTree_of_verify joinedBranches (by decide) (by decide) (by decide)
  refine ⟨by decide, answers, ?_, ?_⟩
  · exact (answers.mem_children ⟨50⟩ ⟨10⟩).mpr (by decide)
  · exact (answers.mem_children ⟨10⟩ ⟨40⟩).mpr (by decide)

end DominatorTree

end Dominance
