import Dominance.Proofs.Answers
import Dominance.Proofs.Stage

namespace Dominance

/-!
# The order of enumeration does not matter

A host lists its blocks in some order, and it names the predecessors of a block in some
order, perhaps repeatedly and perhaps with the block itself among them.  None of this
can be seen in what comes out of a build.

The reason is that the nearest common index of some linked indices depends on which
indices they are and on nothing else, as long as the tree is rooted.  It is at every
stage, so two builds that have the same progress make the same next step.
-/

namespace DominatorTree

/-- Which linked index comes first and in which order the others follow does not matter. -/
theorem Rooted.commonDominator_congr
    {tree : DominatorTree}
    {root : Nat}
    {first second : List Nat}
    (rooted : tree.Rooted root)
    (index : Nat)
    (same : ∀ source, source ∈ first ↔ source ∈ second) :
    tree.commonDominator index first = tree.commonDominator index second := by
  by_cases someLinked : ∃ source ∈ first, tree.isLinked source = true
  · obtain ⟨source, inFirst, linked⟩ := someLinked
    obtain ⟨dominator, found, _, nearest⟩ :=
      rooted.commonDominator_eq_ok index inFirst linked
    obtain ⟨other, foundSecond, _, nearestSecond⟩ :=
      rooted.commonDominator_eq_ok index ((same source).mp inFirst) linked
    have nearestAgain : tree.IsNearest first other := by
      intro target
      simp only [nearestSecond target, same]
    rw [found, foundSecond, nearest.unique nearestAgain]
  · have unlinked : ∀ source ∈ first, tree.isLinked source = false := by
      intro source inFirst
      exact Bool.eq_false_iff.mpr fun linked => someLinked ⟨source, inFirst, linked⟩
    rw [commonDominator_eq_error unlinked,
      commonDominator_eq_error fun source inSecond => unlinked source ((same source).mpr inSecond)]

/-- The dominator that is found depends on the set of predecessors, the block itself left out. -/
theorem Rooted.dominatorOf_congr
    {tree : DominatorTree}
    {root index : Nat}
    {block : Address}
    {first second : List Address}
    (rooted : tree.Rooted root)
    (found : tree.postorder? block = some index)
    (firstKnown : ∀ predecessor ∈ first, tree.contains predecessor = true)
    (secondKnown : ∀ predecessor ∈ second, tree.contains predecessor = true)
    (same :
      ∀ predecessor,
        predecessor ≠ block →
        (predecessor ∈ first ↔ predecessor ∈ second)) :
    tree.dominatorOf block index first = tree.dominatorOf block index second := by
  have sameSources (source : Nat) :
      source ∈ (first.filterMap tree.postorder?).filter (· ≠ index) ↔
        source ∈ (second.filterMap tree.postorder?).filter (· ≠ index) := by
    simp only [List.mem_filter, List.mem_filterMap, decide_eq_true_eq]
    refine and_congr_left fun different => exists_congr fun predecessor =>
      and_congr_left fun isSource => same predecessor ?_
    rintro rfl
    rw [found, Option.some.injEq] at isSource
    exact different isSource.symm
  simp only [dominatorOf, resolve_eq_ok block index firstKnown,
    resolve_eq_ok block index secondKnown, rooted.commonDominator_congr index sameSources]

end DominatorTree

namespace Host

/-- Hosts that list the same blocks and name the same predecessors, in whatever order. -/
structure AgreesWith (first second : Host) : Prop where
  size_eq : first.size = second.size
  entry_eq : first.entry = second.entry
  nodes_perm : first.nodes.Perm second.nodes
  /-- Blocks that precede themselves need not be the same. -/
  named_iff :
    ∀ time block,
      first.Lists block →
      ∀ predecessor,
        predecessor ≠ block →
        (predecessor ∈ first.predecessors time block ↔
          predecessor ∈ second.predecessors time block)
  known :
    ∀ time block,
      first.Lists block →
      ∀ predecessor ∈ first.predecessors time block, first.Lists predecessor

namespace AgreesWith

variable {first second : Host} {seed : DominatorTree} {progress : Progress}

/-- A host that agrees with an accepted one is accepted with the same order. -/
theorem index_eq
    (agree : first.AgreesWith second)
    (accepted : first.index = .ok seed) :
    second.index = .ok seed := by
  obtain ⟨addresses, numbered, rfl⟩ := index_eq_ok_iff.mp accepted
  refine index_eq_ok_iff.mpr ⟨addresses, ?_, rfl⟩
  exact
    { distinct := numbered.distinct
      length_eq := numbered.length_eq.trans agree.size_eq
      nodes_perm := agree.nodes_perm.symm.trans numbered.nodes_perm
      entry_last := agree.entry_eq ▸ numbered.entry_last }

/-- At every stage the next visit is the same. -/
theorem visit_eq
    {index : Nat}
    (agree : first.AgreesWith second)
    (accepted : first.index = .ok seed)
    (stage : first.Stage seed (.within (index + 1)) progress) :
    progress.visit first index = progress.visit second index := by
  have seeded := seededBy_of_index accepted
  have sound := stage.sound seeded.rooted_seed
  have below : index < seed.size - 1 := (sound.visited rfl).1
  have stands : seed.address? index = some (seed.blockAt index) :=
    seeded.address?_blockAt (Nat.le_of_lt below)
  have isBlock : progress.tree.blockAt index = seed.blockAt index := by
    rw [DominatorTree.blockAt_congr sound.order_eq]
  have listed : first.Lists (seed.blockAt index) :=
    seeded.lists_iff.mpr (DominatorTree.contains_iff.mpr ⟨index, stands⟩)
  have contains_of_lists
      {predecessor : Address}
      (isListed : first.Lists predecessor) :
      progress.tree.contains predecessor = true := by
    rw [DominatorTree.contains_congr sound.order_eq]
    exact seeded.lists_iff.mp isListed
  have sameDominator :
      progress.tree.dominatorOf (seed.blockAt index) index
          (first.predecessors progress.passes (seed.blockAt index)) =
        progress.tree.dominatorOf (seed.blockAt index) index
          (second.predecessors progress.passes (seed.blockAt index)) := by
    refine sound.rooted.dominatorOf_congr ?_ ?_ ?_ (agree.named_iff _ _ listed)
    · rw [DominatorTree.postorder?_congr sound.order_eq]
      exact seeded.distinct.postorder?_eq_some_iff.mpr stands
    · intro predecessor named
      exact contains_of_lists (agree.known _ _ listed predecessor named)
    · intro predecessor named
      by_cases isItself : predecessor = seed.blockAt index
      · exact contains_of_lists (isItself ▸ listed)
      · exact contains_of_lists (agree.known _ _ listed predecessor
          ((agree.named_iff _ _ listed predecessor isItself).mpr named))
  rw [← isBlock, DominatorTree.blockAt] at sameDominator
  simp only [Progress.visit, sameDominator]

/-- From every stage on a pass goes the same way. -/
theorem sweep_eq
    {waiting : Nat}
    (agree : first.AgreesWith second)
    (accepted : first.index = .ok seed)
    (stage : first.Stage seed (.within waiting) progress) :
    progress.sweep first waiting = progress.sweep second waiting := by
  induction waiting generalizing progress with
  | zero => rfl
  | succ index inductionHypothesis =>
      rw [Progress.sweep, Progress.sweep, ← agree.visit_eq accepted stage]
      cases visited : progress.visit first index with
      | error failure => rfl
      | ok next => exact inductionHypothesis (stage.visit visited)

/-- At every stage the next pass is the same. -/
theorem pass_eq
    (agree : first.AgreesWith second)
    (accepted : first.index = .ok seed)
    (stage : first.Stage seed .between progress)
    (changed : progress.changed = true) :
    progress.pass first = progress.pass second := by
  rw [Progress.pass, Progress.pass, agree.sweep_eq accepted (stage.begin changed)]

/-- From every stage on the passes go the same way. -/
theorem settle?_eq
    (agree : first.AgreesWith second)
    (accepted : first.index = .ok seed)
    (limit : Option Nat)
    (rounds : Nat)
    (stage : first.Stage seed .between progress) :
    progress.settle? first limit rounds = progress.settle? second limit rounds := by
  induction rounds generalizing progress with
  | zero => rfl
  | succ rounds inductionHypothesis =>
      rw [Progress.settle?, Progress.settle?]
      split
      · rename_i changed
        rw [← agree.pass_eq accepted stage changed]
        cases passed : progress.pass first with
        | error failure => rfl
        | ok next =>
            simp only [inductionHypothesis (stage.pass_eq_ok changed passed)]
      · rfl

end AgreesWith

/--
Builds on two accepted hosts that list the same blocks and name the same predecessors
have the same outcome under every configuration, however both are ordered: the same
tree with the same number of passes or the same error, and the same log.
-/
theorem build?_eq_of_agreesWith
    {first second : Host}
    {seed : DominatorTree}
    (agree : first.AgreesWith second)
    (accepted : first.index = .ok seed)
    (config : BuildConfig)
    (rounds : Nat) :
    first.build? config rounds = second.build? config rounds := by
  simp only [build?, accepted, agree.index_eq accepted,
    agree.settle?_eq accepted config.maxPasses rounds Stage.start]

/-- The same host, listing and naming backwards and twice, and each block as its own predecessor. -/
def backwards (host : Host) : Host where
  size := host.size
  entry := host.entry
  nodes := host.nodes.reverse
  predecessors := fun time block =>
    block :: (host.predecessors time block ++ host.predecessors time block).reverse

/-- A host agrees with the host that tells the same backwards. -/
theorem agreesWith_backwards
    {host : Host}
    (known :
      ∀ time block,
        host.Lists block →
        ∀ predecessor ∈ host.predecessors time block, host.Lists predecessor) :
    host.AgreesWith host.backwards where
  size_eq := rfl
  entry_eq := rfl
  nodes_perm := host.nodes.reverse_perm.symm
  named_iff := by
    intro time block _ predecessor different
    simp [backwards, different]
  known := known

/-- A loop with two entries is built in two passes, also if its blocks are named backwards. -/
theorem build?_eq_backwards_sharedLoop :
    ∃ outcome,
      (sharedLoop [⟨20⟩, ⟨30⟩]).build? .strict 4 = some outcome ∧
        (sharedLoop [⟨20⟩, ⟨30⟩]).backwards.build? .strict 4 = some outcome ∧
          outcome.result.toOption.map DominatorTree.passes = some 2 := by
  have known :
      ∀ time block,
        (sharedLoop [⟨20⟩, ⟨30⟩]).Lists block →
        ∀ predecessor ∈ (sharedLoop [⟨20⟩, ⟨30⟩]).predecessors time block,
          (sharedLoop [⟨20⟩, ⟨30⟩]).Lists predecessor := by
    have allListed :
        ∀ predecessor ∈ [⟨10⟩, ⟨20⟩, ⟨30⟩], (sharedLoop [⟨20⟩, ⟨30⟩]).Lists predecessor := by
      decide
    intro time block _ predecessor named
    apply allListed
    simp only [sharedLoop] at named
    grind
  have built :
      ((sharedLoop [⟨20⟩, ⟨30⟩]).build? .strict 4).map (fun outcome =>
          outcome.result.toOption.map DominatorTree.passes) =
        some (some 2) := by
    decide +kernel
  obtain ⟨outcome, ended, passes_eq⟩ := Option.map_eq_some_iff.mp built
  refine ⟨outcome, ended, ?_, passes_eq⟩
  rw [← build?_eq_of_agreesWith (agreesWith_backwards known) rfl]
  exact ended

end Host

end Dominance
