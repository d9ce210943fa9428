import Dominance.Proofs.Stage

namespace Dominance

/-!
# What the last pass says

A host may name other predecessors in every pass, so what earlier passes recorded may
come from other graphs.  A build ends with a pass that changes nothing, though, and
such a pass confirms every link against the predecessors that are named in it: the
chain of a block goes on among the members of the chains of all of them.  That is
enough for every member of a chain to lie on every path along these edges.
-/

/-- A visit that changes nothing finds the link that is recorded. -/
theorem Progress.visit_of_unchanged
    {host : Host}
    {progress next : Progress}
    {index root : Nat}
    (rooted : progress.tree.Rooted root)
    (visited : progress.visit host index = .ok next)
    (unchanged : next.changed = false) :
    progress.changed = false ∧
      next.tree = progress.tree ∧
        next.passes = progress.passes ∧
          host.KnowsPredecessors progress.passes progress.tree index ∧
            ∃ dominator,
              progress.tree.climb? index = some dominator ∧
                progress.tree.IsNearest
                  ((host.indexGraph progress.passes progress.tree).others index) dominator := by
  obtain ⟨dominator, known, nearest, _, higher, rfl⟩ := exists_link_of_visit rooted visited
  have notChanged := Bool.eq_false_iff.mp unchanged
  rw [ne_eq, changed_link_iff, not_or, not_ne_iff, changed_ask, tree_ask] at notChanged
  obtain ⟨notBefore, recorded⟩ := notChanged
  refine ⟨Bool.eq_false_iff.mpr notBefore, ?_, passes_link _ _ _, known, dominator, ?_, nearest⟩
  · rw [tree_link, tree_ask]
    exact DominatorTree.setLink_eq_self recorded
  · exact Option.filter_eq_some_iff.mpr ⟨recorded, decide_eq_true higher⟩

namespace Host

/-- The links from a bound on are what the answers at some time lead to. -/
def Confirmed
    (host : Host)
    (time bound : Nat)
    (tree : DominatorTree) : Prop :=
  ∀ index,
    bound ≤ index →
    index < tree.size - 1 →
    host.KnowsPredecessors time tree index ∧
      ∃ dominator,
        tree.climb? index = some dominator ∧
          tree.IsNearest ((host.indexGraph time tree).others index) dominator

variable {host : Host} {seed : DominatorTree} {progress : Progress}

/-- A pass that has changed nothing so far has confirmed all links that it has looked at. -/
theorem Stage.confirmed
    {position : Position}
    (rooted : seed.Rooted (seed.size - 1))
    (stage : host.Stage seed position progress)
    (unchanged : progress.changed = false) :
    (∀ waiting,
      position = .within waiting →
      host.Confirmed progress.passes waiting progress.tree) ∧
    (position = .between →
      ∃ last, progress.passes = last + 1 ∧ host.Confirmed last 0 progress.tree) := by
  induction stage with
  | start => cases unchanged
  | begin stage changed =>
      refine ⟨?_, fun isBetween => (nomatch isBetween)⟩
      rintro _ ⟨rfl⟩ index isVisited below
      exact absurd isVisited (Nat.not_le_of_lt below)
  | @visit index progress next stage visited inductionHypothesis =>
      refine ⟨?_, fun isBetween => (nomatch isBetween)⟩
      rintro _ ⟨rfl⟩
      obtain ⟨unchangedBefore, sameTree, samePasses, found⟩ :=
        Progress.visit_of_unchanged (stage.sound rooted).rooted visited unchanged
      rw [sameTree, samePasses]
      intro other isVisited below
      rcases Nat.lt_or_eq_of_le isVisited with above | isIndex
      · exact (inductionHypothesis unchangedBefore).1 _ rfl other above below
      · exact isIndex ▸ found
  | @finish progress stage inductionHypothesis =>
      refine ⟨fun _ isWithin => (nomatch isWithin), ?_⟩
      intro _
      exact ⟨progress.passes, rfl, (inductionHypothesis unchanged).1 0 rfl⟩

/-- Chains of confirmed links hold only what dominates along the edges of the answers. -/
theorem Confirmed.dominates
    {tree : DominatorTree}
    {time : Nat}
    (confirmed : host.Confirmed time 0 tree)
    (rooted : tree.Rooted (tree.size - 1))
    (complete : ∀ index ≤ tree.size - 1, tree.isLinked index = true)
    {index target : Nat}
    (member : target ∈ tree.ascent index) :
    (host.indexGraph time tree).Dominates target index := by
  refine IndexGraph.dominates_of_closed rooted ?_ member
  intro lower source above below isOther onLower different
  obtain ⟨_, dominator, climbs, nearest⟩ := confirmed lower (Nat.zero_le lower) below
  have sourceInside :=
    (host.indexGraph time tree).inside lower source (IndexGraph.mem_others.mp isOther).1
  have onDominator : above ∈ tree.ascent dominator :=
    DominatorTree.mem_ascent_of_ne climbs onLower different
  exact (nearest above).mp onDominator source isOther (complete source sourceInside)

/--
Whatever a host answers, in a tree that a build ends with a block dominates another only
if it lies on every path to it along the edges that were named in the last pass.

The questions about a block are counted from zero, one in each pass.
-/
theorem dominates_only_on_last_paths
    {host : Host}
    {config : BuildConfig}
    {outcome : Outcome}
    {tree : DominatorTree}
    (yields : host.Yields config outcome)
    (isTree : outcome.result = .ok tree) :
    ∃ last,
      tree.passes = last + 1 ∧
        ∀ dominator node,
          tree.dominates dominator node = true →
          OnEveryPath (host.EdgeAt last) host.entry dominator node := by
  obtain ⟨seed, final, accepted, stage, unchanged, rfl⟩ := yields.exists_stage isTree
  have seeded := seededBy_of_index accepted
  have sound := stage.sound seeded.rooted_seed
  obtain ⟨last, passes_eq, confirmed⟩ := (stage.confirmed seeded.rooted_seed unchanged).2 rfl
  refine ⟨last, passes_eq, ?_⟩
  intro dominator node dominates
  have sameOrder : final.finished.order = seed.order := sound.order_eq
  rw [DominatorTree.dominates, DominatorTree.postorder?_congr sameOrder] at dominates
  split at dominates
  · rename_i target index dominatorFound found
    rw [DominatorTree.reaches_eq_true_iff, Progress.finished,
      DominatorTree.ascent_setPasses] at dominates
    have dominatesIndex :=
      confirmed.dominates (sound.size_eq ▸ sound.rooted)
        (sound.size_eq ▸ sound.complete rfl unchanged) dominates
    rw [indexGraph_congr rfl sound.order_eq] at dominatesIndex
    refine seeded.onEveryPath_of_dominates ?_
      (DominatorTree.address?_of_postorder? found).2
      (DominatorTree.address?_of_postorder? dominatorFound).2 dominatesIndex
    intro lower below
    rw [← knowsPredecessors_congr rfl sound.order_eq]
    exact (confirmed lower (Nat.zero_le lower) (sound.size_eq ▸ below)).1
  · cases dominates

/-- Both blocks follow the entry; from the second pass on the last follows the middle one. -/
def movedHost : Host :=
  fickleHost
    (fun _ => [⟨10⟩])
    (fun block => if block = ⟨20⟩ then [⟨10⟩] else [⟨20⟩])

/-- The block in the middle dominates the last one according to the third pass. -/
theorem movedHost_dominates_only_on_last_paths :
    ∃ outcome tree,
      movedHost.Yields .strict outcome ∧
        outcome.result = .ok tree ∧
          tree.passes = 3 ∧
            tree.dominates ⟨20⟩ ⟨30⟩ = true ∧
              OnEveryPath (movedHost.EdgeAt 2) ⟨10⟩ ⟨20⟩ ⟨30⟩ := by
  have yields : movedHost.Yields .strict _ := ⟨4, rfl⟩
  obtain ⟨last, passes_eq, onlyOnPaths⟩ := dominates_only_on_last_paths yields rfl
  obtain rfl : last = 2 := (Nat.succ.inj passes_eq).symm
  exact ⟨_, _, yields, rfl, rfl, by decide +kernel, onlyOnPaths _ _ (by decide +kernel)⟩

end Host

end Dominance
