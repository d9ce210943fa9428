import Mathlib.Data.Nat.Find
import Dominance.Proofs.Outcome

namespace Dominance

/-!
# What a finished tree answers

A tree that describes dominance between indices answers questions about addresses
by the paths of the host: an address dominates a block exactly if it lies on every
path to the block, and the immediate dominator of a block is the strict dominator
that all others dominate.

The main statement puts together all outcomes of a build on a host that does not
change its answers.
-/

namespace Host.SeededBy

variable {host : Host} {seed tree : DominatorTree}

/-- An exact tree answers which addresses dominate a block. -/
theorem dominates_eq_true_iff
    (seeded : host.SeededBy seed)
    (noneBad : ∀ index, ¬ host.Bad index)
    (sameOrder : tree.order = seed.order)
    (describes : (host.indexGraph 0 seed).Describes tree)
    {dominator node : Address}
    (listed : host.Lists node) :
    tree.dominates dominator node = true ↔
      OnEveryPath host.Edge host.entry dominator node := by
  have resolvable := seeded.resolvable_of_not_bad noneBad
  obtain ⟨index, stands⟩ := DominatorTree.contains_iff.mp (seeded.lists_iff.mp listed)
  have inside := seeded.le_root_of_address? stands
  rw [DominatorTree.dominates, DominatorTree.postorder?_congr sameOrder,
    seeded.distinct.postorder?_eq_some_iff.mpr stands]
  cases found : seed.postorder? dominator with
  | none =>
      simp only [Bool.false_eq_true, false_iff]
      intro dominates
      have known := seeded.contains_of_onEveryPath resolvable stands dominates
      rw [DominatorTree.contains, found] at known
      cases known
  | some target =>
      have dominatorStands := (DominatorTree.address?_of_postorder? found).2
      simp only
      rw [DominatorTree.reaches_eq_true_iff, describes.exact index inside target]
      exact seeded.dominates_iff resolvable stands dominatorStands

/-- The entry has no immediate dominator. -/
theorem immediateDominator_entry
    (seeded : host.SeededBy seed)
    (sameOrder : tree.order = seed.order)
    (describes : (host.indexGraph 0 seed).Describes tree) :
    tree.immediateDominator host.entry = .ok none := by
  have rootLink := describes.rooted.root_link
  rw [seeded.root_eq] at rootLink
  have noProperLink : tree.properLink? (host.size - 1) = none := by
    simp [DominatorTree.properLink?, rootLink, Option.filter]
  rw [DominatorTree.immediateDominator, DominatorTree.postorder?_congr sameOrder,
    seeded.distinct.postorder?_eq_some_iff.mpr seeded.address?_entry]
  simp [noProperLink]

/-- The immediate dominator of a block is its nearest strict dominator. -/
theorem exists_immediateDominator
    (seeded : host.SeededBy seed)
    (noneBad : ∀ index, ¬ host.Bad index)
    (sameOrder : tree.order = seed.order)
    (describes : (host.indexGraph 0 seed).Describes tree)
    {node : Address}
    (listed : host.Lists node)
    (notEntry : node ≠ host.entry) :
    ∃ nearest,
      tree.immediateDominator node = .ok (some nearest) ∧
        IsImmediateDominator host.Edge host.entry nearest node := by
  have resolvable := seeded.resolvable_of_not_bad noneBad
  obtain ⟨index, stands⟩ := DominatorTree.contains_iff.mp (seeded.lists_iff.mp listed)
  have below := seeded.lt_root_of_address? stands notEntry
  have inside := Nat.le_of_lt below
  obtain ⟨link, recorded, climbs, linkLinked⟩ :=
    describes.rooted.exists_climb (describes.complete index inside) below
  have higher := (DominatorTree.lt_of_climb?_eq_some climbs).2
  have linkInside := describes.rooted.le_of_isLinked linkLinked
  have linkStands := seeded.address?_blockAt linkInside
  have onChain : link ∈ tree.ascent index :=
    DominatorTree.mem_ascent_of_climb climbs (tree.self_mem_ascent link)
  refine ⟨seed.blockAt link, ?_, ?_, ?_, ?_⟩
  · have properLink : tree.properLink? index = some link := by
      have different : link ≠ index := by omega
      simp [DominatorTree.properLink?, recorded, Option.filter, different]
    have linkAddress : tree.address? link = some (seed.blockAt link) := by
      rw [DominatorTree.address?, sameOrder]
      exact linkStands
    simp only [DominatorTree.immediateDominator, DominatorTree.postorder?_congr sameOrder,
      seeded.distinct.postorder?_eq_some_iff.mpr stands, Option.bind_some, properLink,
      DominatorTree.addressAt, linkAddress]
    rfl
  · intro isNode
    rw [isNode] at linkStands
    have := seeded.distinct _ _ _ linkStands stands
    omega
  · exact (seeded.dominates_iff resolvable stands linkStands).mp
      ((describes.exact index inside link).mp onChain)
  · intro dominator different dominates
    obtain ⟨target, targetStands⟩ := DominatorTree.contains_iff.mp
      (seeded.contains_of_onEveryPath resolvable stands dominates)
    have targetOnChain : target ∈ tree.ascent index :=
      (describes.exact index inside target).mpr
        ((seeded.dominates_iff resolvable stands targetStands).mpr dominates)
    have targetDifferent : target ≠ index := by
      intro isIndex
      rw [isIndex, stands, Option.some.injEq] at targetStands
      exact different targetStands.symm
    exact (seeded.dominates_iff resolvable linkStands targetStands).mp
      ((describes.exact link linkInside target).mp
        (DominatorTree.mem_ascent_of_ne climbs targetOnChain targetDifferent))

end Host.SeededBy

namespace Host

/-- Among bad blocks there is one with the highest index. -/
theorem exists_highest_bad
    {host : Host}
    {seed : DominatorTree}
    (seeded : host.SeededBy seed)
    (someBad : ∃ index, host.Bad index) :
    ∃ index, host.Bad index ∧ ∀ other, host.Bad other → other ≤ index := by
  classical
  obtain ⟨index, bad⟩ := someBad
  have bounded : ∀ other, host.Bad other → other ≤ (host.indexGraph 0 seed).root :=
    fun other isBad => Nat.le_of_lt (seeded.bad_iff.mp isBad).1
  exact ⟨Nat.findGreatest host.Bad (host.indexGraph 0 seed).root,
    Nat.findGreatest_spec (bounded index bad) bad,
    fun other isBad => Nat.le_findGreatest (bounded other isBad) isBad⟩

/--
On an accepted host that does not change its answers, a build without a limit on the
passes ends with a tree that describes dominance exactly if no block is bad.
Otherwise it blames the bad block with the highest index, and a dominator that is too
low is never the reason.
-/
theorem yields_tree_or_complaint
    (host : Host)
    (config : BuildConfig)
    {seed : DominatorTree}
    (settled : host.SettlesAt 0)
    (accepted : host.index = .ok seed)
    (unlimited : config.maxPasses = none) :
    ((∀ index, ¬ host.Bad index) →
      ∃ outcome tree,
        host.Yields config outcome ∧
          outcome.result = .ok tree ∧
            tree.size = host.size ∧
              ∀ dominator node,
                host.Lists node →
                (tree.dominates dominator node = true ↔
                  OnEveryPath host.Edge host.entry dominator node)) ∧
    ((∃ index, host.Bad index) →
      ∃ index address outcome,
        host.Bad index ∧
          (∀ other, host.Bad other → other ≤ index) ∧
            host.Holds address index ∧
              host.Yields config outcome ∧
                (∀ unknown,
                  (host.predecessors 0 address).find? (fun predecessor =>
                      ¬ host.Lists predecessor) = some unknown →
                  outcome.result = .error (.unknownPredecessor unknown address)) ∧
                  ((∀ predecessor ∈ host.predecessors 0 address, host.Lists predecessor) →
                    outcome.result = .error (.unresolvable index))) ∧
    ∀ outcome block index dominator,
      host.Yields config outcome →
      outcome.result ≠ .error (.lowDominator block index dominator) := by
  have seeded := seededBy_of_index accepted
  have noLimit {least : Nat} : ∀ limit, config.maxPasses = some limit → least ≤ limit := by
    intro limit isLimit
    rw [unlimited] at isLimit
    cases isLimit
  have succeeds (noneBad : ∀ index, ¬ host.Bad index) :=
    build?_of_not_bad settled accepted noneBad noLimit (Nat.le_refl (host.size + 1))
  have fails
      {index : Nat}
      {address : Address}
      (holds : host.Holds address index)
      (bad : host.Bad index)
      (highest : ∀ other, host.Bad other → other ≤ index) :=
    build?_of_bad accepted holds bad highest noLimit (Nat.le_refl 1)
  refine ⟨?_, ?_, ?_⟩
  · intro noneBad
    obtain ⟨outcome, tree, ended, isTree, _, sameOrder, describes⟩ := succeeds noneBad
    refine ⟨outcome, tree, ⟨_, ended⟩, isTree, ?_, ?_⟩
    · rw [DominatorTree.size, sameOrder]
      exact seeded.size_eq
    · intro dominator node listed
      exact seeded.dominates_eq_true_iff noneBad sameOrder describes listed
  · intro someBad
    obtain ⟨index, bad, highest⟩ := exists_highest_bad seeded someBad
    obtain ⟨address, holds⟩ := bad.exists_holds
    obtain ⟨outcome, ended, isError⟩ := fails holds bad highest
    refine ⟨index, address, outcome, bad, highest, holds, ⟨_, ended⟩, ?_, ?_⟩
    · intro unknown isFirst
      rw [isError, complaint_of_unknown isFirst]
    · intro allListed
      rw [isError, complaint_of_listed allListed]
  · intro outcome block index dominator yields isLow
    by_cases someBad : ∃ index, host.Bad index
    · obtain ⟨index, bad, highest⟩ := exists_highest_bad seeded someBad
      obtain ⟨address, holds⟩ := bad.exists_holds
      obtain ⟨failed, ended, isError⟩ := fails holds bad highest
      rw [yields.unique ⟨_, ended⟩, isError, complaint] at isLow
      split at isLow <;> cases isLow
    · obtain ⟨built, tree, ended, isTree, _⟩ := succeeds (not_exists.mp someBad)
      rw [yields.unique ⟨_, ended⟩, isTree] at isLow
      cases isLow

/-- A loop that can be entered at both its blocks, and a block with given predecessors. -/
def sharedLoop (exits : List Address) : Host where
  size := 4
  entry := ⟨10⟩
  nodes := [⟨⟨10⟩, some 3⟩, ⟨⟨20⟩, some 1⟩, ⟨⟨30⟩, some 2⟩, ⟨⟨40⟩, some 0⟩]
  predecessors := fun _ address =>
    if address = ⟨20⟩ then [⟨10⟩, ⟨30⟩]
    else if address = ⟨30⟩ then [⟨10⟩, ⟨20⟩]
    else if address = ⟨40⟩ then exits
    else []

/-- Only the last block can be bad. -/
theorem address_eq_of_bad_sharedLoop
    {exits : List Address}
    {address : Address}
    {index : Nat}
    (holds : (sharedLoop exits).Holds address index)
    (bad : (sharedLoop exits).Bad index) :
    address = ⟨40⟩ ∧ index = 0 := by
  obtain ⟨other, otherHolds, notEntry, isBad⟩ := bad
  simp [sharedLoop, Holds] at holds otherHolds notEntry
  rcases holds with ⟨rfl, rfl⟩ | ⟨rfl, rfl⟩ | ⟨rfl, rfl⟩ | ⟨rfl, rfl⟩ <;>
    simp_all [sharedLoop, Holds, Lists]

/-- The loop is built with its exits and fails with an unknown predecessor. -/
theorem sharedLoop_yields_tree_or_complaint :
    (∃ outcome tree,
      (sharedLoop [⟨20⟩, ⟨30⟩]).Yields .fast outcome ∧
        outcome.result = .ok tree ∧
          tree.size = 4 ∧
            (tree.dominates ⟨10⟩ ⟨40⟩ = true ↔
              OnEveryPath (sharedLoop [⟨20⟩, ⟨30⟩]).Edge ⟨10⟩ ⟨10⟩ ⟨40⟩)) ∧
    ∃ outcome,
      (sharedLoop [⟨20⟩, ⟨50⟩]).Yields .fast outcome ∧
        outcome.result = .error (.unknownPredecessor ⟨50⟩ ⟨40⟩) := by
  have accepted (exits : List Address) :
      (sharedLoop exits).index = .ok (.ofOrder #[⟨40⟩, ⟨20⟩, ⟨30⟩, ⟨10⟩]) := rfl
  constructor
  · have noneBad : ∀ index, ¬ (sharedLoop [⟨20⟩, ⟨30⟩]).Bad index := by
      intro index bad
      obtain ⟨address, holds, notEntry, isBad⟩ := bad
      obtain ⟨rfl, rfl⟩ :=
        address_eq_of_bad_sharedLoop holds ⟨address, holds, notEntry, isBad⟩
      simp [sharedLoop, Holds, Lists] at isBad
    obtain ⟨outcome, tree, yields, isTree, size_eq, exact⟩ :=
      (yields_tree_or_complaint (sharedLoop [⟨20⟩, ⟨30⟩]) .fast (fun _ _ => rfl)
        (accepted _) rfl).1 noneBad
    exact ⟨outcome, tree, yields, isTree, size_eq, exact _ _ (by decide)⟩
  · have someBad : ∃ index, (sharedLoop [⟨20⟩, ⟨50⟩]).Bad index :=
      ⟨0, ⟨40⟩, by decide, by decide, .inl ⟨⟨50⟩, by decide, by decide⟩⟩
    obtain ⟨index, address, outcome, bad, _, holds, yields, isError, _⟩ :=
      (yields_tree_or_complaint (sharedLoop [⟨20⟩, ⟨50⟩]) .fast (fun _ _ => rfl)
        (accepted _) rfl).2.1 someBad
    obtain ⟨rfl, rfl⟩ := address_eq_of_bad_sharedLoop holds bad
    exact ⟨outcome, yields, isError ⟨50⟩ rfl⟩

end Host

end Dominance
