import Dominance.Proofs.HostPath
import Dominance.Proofs.Settling

namespace Dominance

/-!
# The outcome of a build

A build on a host that does not change its answers has one of two outcomes.  If
no block is bad it ends with a tree that describes dominance exactly, after no
more passes than there are blocks.  Otherwise the bad block with the highest index
is blamed in the first pass.
-/

namespace DominatorTree

@[simp] theorem ascent_setPasses
    (tree : DominatorTree)
    (passes index : Nat) :
    (tree.setPasses passes).ascent index = tree.ascent index :=
  ascent_congr fun _ _ => rfl

theorem Rooted.setPasses
    {tree : DominatorTree}
    {root : Nat}
    (rooted : tree.Rooted root)
    (passes : Nat) :
    (tree.setPasses passes).Rooted root :=
  ⟨rooted.size_eq, rooted.root_link, rooted.climbs⟩

end DominatorTree

/-- Recording the passes does not change what a tree describes. -/
theorem IndexGraph.Describes.setPasses
    {graph : IndexGraph}
    {tree : DominatorTree}
    (describes : graph.Describes tree)
    (passes : Nat) :
    graph.Describes (tree.setPasses passes) where
  rooted := describes.rooted.setPasses passes
  complete := describes.complete
  exact := by
    intro index inside target
    rw [DominatorTree.ascent_setPasses]
    exact describes.exact index inside target

/-- A run that has settled on a sound tree ends with this tree. -/
theorem Progress.outcome_result
    {progress : Progress}
    {root : Nat}
    (config : BuildConfig)
    (rooted : progress.tree.Rooted root)
    (complete : ∀ index ≤ root, progress.tree.isLinked index = true) :
    (progress.outcome config).result = .ok progress.finished := by
  have sound : progress.finished.fault? = none :=
    (rooted.setPasses progress.passes).fault?_eq_none complete
  simp only [Progress.outcome, sound]
  split <;> rfl

namespace Host

/-- A build that is given as many rounds as it needs ends with an outcome. -/
def Yields (host : Host) (config : BuildConfig) (outcome : Outcome) : Prop :=
  ∃ rounds, host.build? config rounds = some outcome

/-- A build ends before its first pass, with a run of passes that fails, or with one that settles. -/
theorem Yields.cases
    {host : Host}
    {config : BuildConfig}
    {outcome : Outcome}
    (yields : host.Yields config outcome) :
    (∃ error, host.index = .error error ∧ outcome = ⟨.error error, 0, []⟩) ∨
    ∃ seed rounds,
      host.index = .ok seed ∧
        ((∃ failure,
          (Progress.start seed).settle? host config.maxPasses rounds = some (.error failure) ∧
            outcome = failure.outcome) ∨
        ∃ final,
          (Progress.start seed).settle? host config.maxPasses rounds = some (.ok final) ∧
            outcome = final.outcome config) := by
  obtain ⟨rounds, ended⟩ := yields
  rw [build?] at ended
  split at ended
  · rename_i error refused
    exact .inl ⟨error, refused, (Option.some.inj ended).symm⟩
  · rename_i seed accepted
    refine .inr ⟨seed, rounds, accepted, ?_⟩
    split at ended
    · cases ended
    · rename_i failure run
      exact .inl ⟨failure, run, (Option.some.inj ended).symm⟩
    · rename_i final run
      exact .inr ⟨final, run, (Option.some.inj ended).symm⟩

/-- More rounds do not change the outcome of a build. -/
theorem build?_mono
    {host : Host}
    {config : BuildConfig}
    {outcome : Outcome}
    {rounds more : Nat}
    (ended : host.build? config rounds = some outcome)
    (enough : rounds ≤ more) :
    host.build? config more = some outcome := by
  rw [build?] at ended ⊢
  split at ended
  · exact ended
  · split at ended
    · cases ended
    · rename_i run
      rw [Progress.settle?_mono run enough]
      exact ended
    · rename_i run
      rw [Progress.settle?_mono run enough]
      exact ended

/-- A build has one outcome at most. -/
theorem Yields.unique
    {host : Host}
    {config : BuildConfig}
    {first second : Outcome}
    (yieldsFirst : host.Yields config first)
    (yieldsSecond : host.Yields config second) :
    first = second := by
  obtain ⟨firstRounds, firstEnds⟩ := yieldsFirst
  obtain ⟨secondRounds, secondEnds⟩ := yieldsSecond
  have firstLater := build?_mono firstEnds (Nat.le_max_left firstRounds secondRounds)
  have secondLater := build?_mono secondEnds (Nat.le_max_right firstRounds secondRounds)
  exact Option.some.inj (firstLater.symm.trans secondLater)

/-- A build without bad blocks ends with an exact tree in few passes. -/
theorem build?_of_not_bad
    {host : Host}
    {config : BuildConfig}
    {seed : DominatorTree}
    {rounds : Nat}
    (settled : host.SettlesAt 0)
    (accepted : host.index = .ok seed)
    (noneBad : ∀ index, ¬ host.Bad index)
    (highLimit : ∀ limit, config.maxPasses = some limit → host.size ≤ limit)
    (enough : host.size + 1 ≤ rounds) :
    ∃ outcome tree,
      host.build? config rounds = some outcome ∧
        outcome.result = .ok tree ∧
          tree.passes ≤ host.size ∧
            tree.order = seed.order ∧
              (host.indexGraph 0 seed).Describes tree := by
  have seeded := seededBy_of_index accepted
  have root_eq := seeded.root_eq 0
  have size_eq := (seeded.seed_rooted 0).size_eq
  rw [seeded.size_eq] at size_eq
  obtain ⟨final, ended, settling, unchanged⟩ :=
    Progress.Settling.settle config.maxPasses rounds settled
      (seeded.resolvable_of_not_bad noneBad)
      (fun limit isLimit => by
        have := highLimit limit isLimit
        omega)
      (Progress.Settling.start (seeded.seed_rooted 0) (root_eq ▸ seeded.unlinked))
      (by omega)
  have describes := settling.describes unchanged
  refine ⟨final.outcome config, final.finished, ?_, ?_, ?_, settling.order_eq,
    describes.setPasses final.passes⟩
  · simp only [build?, accepted, ended]
  · exact Progress.outcome_result config describes.rooted describes.complete
  · have := settling.passes_le
    show final.passes ≤ host.size
    omega

/-- The error that blames a bad block. -/
def complaint (host : Host) (address : Address) (index : Nat) : BuildError :=
  match (host.predecessors 0 address).find? fun predecessor =>
      ¬ host.Lists predecessor with
  | some unknown => .unknownPredecessor unknown address
  | none => .unresolvable index

/-- The first predecessor that is not listed is what is blamed. -/
theorem complaint_of_unknown
    {host : Host}
    {address unknown : Address}
    {index : Nat}
    (isFirst :
      (host.predecessors 0 address).find? (fun predecessor =>
        ¬ host.Lists predecessor) = some unknown) :
    host.complaint address index = .unknownPredecessor unknown address := by
  rw [complaint, isFirst]

/-- If all predecessors are listed, the block itself is what is blamed. -/
theorem complaint_of_listed
    {host : Host}
    {address : Address}
    {index : Nat}
    (allListed : ∀ predecessor ∈ host.predecessors 0 address, host.Lists predecessor) :
    host.complaint address index = .unresolvable index := by
  have noneUnknown :
      (host.predecessors 0 address).find? (fun predecessor =>
        ¬ host.Lists predecessor) = none := by
    rw [List.find?_eq_none]
    intro predecessor named
    simpa using allListed predecessor named
  rw [complaint, noneUnknown]

/-- The visit of a bad block fails once all higher blocks have been visited. -/
theorem visit_of_bad
    {host : Host}
    {seed : DominatorTree}
    {index : Nat}
    {address : Address}
    {reached : Progress}
    (seeded : host.SeededBy seed)
    (holds : host.Holds address index)
    (bad : host.Bad index)
    (underway : Progress.Underway host 0 seed (index + 1) reached) :
    reached.visit host index = .error ⟨host.complaint address index, reached.ask⟩ := by
  obtain ⟨below, unresolvable⟩ := seeded.bad_iff.mp bad
  have isBlock : reached.tree.blockAt index = address := by
    rw [DominatorTree.blockAt_congr underway.order_eq]
    exact DominatorTree.blockAt_eq (seeded.holds_iff.mp holds)
  have sameUnknown :
      (fun predecessor => !reached.tree.contains predecessor) =
        fun predecessor => decide (¬ host.Lists predecessor) := by
    funext predecessor
    rw [DominatorTree.contains_congr underway.order_eq, Bool.eq_iff_iff]
    simp [seeded.lists_iff]
  cases isFirst :
      (host.predecessors 0 address).find? fun predecessor =>
        ¬ host.Lists predecessor with
  | some unknown =>
      rw [complaint_of_unknown isFirst, ← isBlock]
      refine Progress.visit_of_unknown ?_
      rw [underway.passes_eq, isBlock, sameUnknown]
      exact isFirst
  | none =>
      have allListed : ∀ predecessor ∈ host.predecessors 0 address, host.Lists predecessor := by
        intro predecessor named
        simpa using List.find?_eq_none.mp isFirst predecessor named
      rw [complaint_of_listed allListed]
      have known : host.KnowsPredecessors reached.passes reached.tree index := by
        intro predecessor named
        rw [underway.passes_eq, isBlock] at named
        rw [DominatorTree.contains_congr underway.order_eq]
        exact seeded.lists_iff.mp (allListed predecessor named)
      refine Progress.visit_of_unlinked known ?_
      intro source isOther
      rw [underway.indexGraph_eq, IndexGraph.mem_others] at isOther
      obtain ⟨isSource, different⟩ := isOther
      have lower : source < index := by
        refine Nat.lt_of_le_of_ne (Nat.le_of_not_lt ?_) different
        intro higher
        exact unresolvable
          ⟨underway.knowsPredecessors_eq ▸ known, source, isSource, higher⟩
      rw [DominatorTree.isLinked, underway.sweeping.unvisited (by omega)]
      have root_eq := seeded.root_eq 0
      exact seeded.unlinked source (by omega)

/-- The highest bad block is blamed. -/
theorem build?_of_bad
    {host : Host}
    {config : BuildConfig}
    {seed : DominatorTree}
    {rounds index : Nat}
    {address : Address}
    (accepted : host.index = .ok seed)
    (holds : host.Holds address index)
    (bad : host.Bad index)
    (highest : ∀ other, host.Bad other → other ≤ index)
    (somePass : ∀ limit, config.maxPasses = some limit → 1 ≤ limit)
    (enough : 1 ≤ rounds) :
    ∃ outcome,
      host.build? config rounds = some outcome ∧
        outcome.result = .error (host.complaint address index) := by
  have seeded := seededBy_of_index accepted
  obtain ⟨below, _⟩ := seeded.bad_iff.mp bad
  obtain ⟨failure, failed, cause_eq⟩ :
      ∃ failure,
        (Progress.start seed).pass host = .error failure ∧
          failure.cause = host.complaint address index :=
    Progress.pass_eq_error
      (IndexGraph.approximates_of_unlinked (seeded.seed_rooted 0)
        (seeded.root_eq 0 ▸ seeded.unlinked))
      below
      (fun higher above belowRoot => by
        by_contra unresolvable
        have := highest higher (seeded.bad_iff.mpr ⟨belowRoot, unresolvable⟩)
        omega)
      (fun reached underway => visit_of_bad seeded holds bad underway)
  obtain ⟨further, rfl⟩ : ∃ further, rounds = further + 1 := ⟨rounds - 1, by omega⟩
  have withinLimit : (Progress.start seed).reachesLimit config.maxPasses = none :=
    Progress.reachesLimit_eq_none somePass
  have changed : (Progress.start seed).changed = true := rfl
  refine ⟨failure.outcome, ?_, by rw [← cause_eq]; rfl⟩
  simp only [build?, accepted, Progress.settle?, changed, ↓reduceIte, withinLimit, failed]

end Host

end Dominance
