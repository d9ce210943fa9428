import Dominance.Proofs.Outcome

namespace Dominance

/-!
# The stages of a build

A build goes from visit to visit and from pass to pass.  Its stages are the states
before, between and after the visits.  Nothing is assumed about the host: it may
answer each question as it likes, and differently in every pass.

At every stage the tree is rooted, because a visit records a link only to a higher
index that is linked.  So chains always lead to the root, the search for a common
index never fails, and a build that ends with a tree ends with a sound one.
-/

namespace Host

/-- How far a build has come. -/
inductive Position where
  /-- No pass is under way. -/
  | between
  /-- A pass is under way, and the indices below a bound wait for their visit. -/
  | within (waiting : Nat)
  deriving DecidableEq, Repr

/-- A build that began with a tree comes to a position with some progress. -/
inductive Stage (host : Host) (seed : DominatorTree) : Position → Progress → Prop where
  | start :
      Stage host seed .between (Progress.start seed)
  | begin
      {progress : Progress} :
      Stage host seed .between progress →
      progress.changed = true →
      Stage host seed (.within (progress.tree.size - 1)) { progress with changed := false }
  | visit
      {index : Nat}
      {progress next : Progress} :
      Stage host seed (.within (index + 1)) progress →
      progress.visit host index = .ok next →
      Stage host seed (.within index) next
  | finish
      {progress : Progress} :
      Stage host seed (.within 0) progress →
      Stage host seed .between { progress with passes := progress.passes + 1 }

namespace Stage

variable {host : Host} {seed : DominatorTree} {progress : Progress}

/-! ## Builds go through stages -/

/-- A sweep that succeeds leads from stage to stage. -/
theorem sweep_eq_ok
    {waiting : Nat}
    {final : Progress}
    (stage : host.Stage seed (.within waiting) progress)
    (swept : progress.sweep host waiting = .ok final) :
    host.Stage seed (.within 0) final := by
  induction waiting generalizing progress with
  | zero =>
      cases swept
      exact stage
  | succ index inductionHypothesis =>
      rw [Progress.sweep] at swept
      split at swept
      · cases swept
      · rename_i visited
        exact inductionHypothesis (stage.visit visited) swept

/-- A sweep fails with a visit. -/
theorem sweep_eq_error
    {waiting : Nat}
    {failure : Failure}
    (stage : host.Stage seed (.within waiting) progress)
    (failed : progress.sweep host waiting = .error failure) :
    ∃ index reached,
      host.Stage seed (.within (index + 1)) reached ∧
        reached.visit host index = .error failure := by
  induction waiting generalizing progress with
  | zero => cases failed
  | succ index inductionHypothesis =>
      rw [Progress.sweep] at failed
      split at failed
      · rename_i visitFailed
        cases failed
        exact ⟨index, progress, stage, visitFailed⟩
      · rename_i visited
        exact inductionHypothesis (stage.visit visited) failed

/-- A pass that succeeds leads to the stage after it. -/
theorem pass_eq_ok
    {next : Progress}
    (stage : host.Stage seed .between progress)
    (changed : progress.changed = true)
    (passed : progress.pass host = .ok next) :
    host.Stage seed .between next := by
  rw [Progress.pass] at passed
  split at passed
  · cases passed
  · rename_i swept
    cases passed
    exact ((stage.begin changed).sweep_eq_ok swept).finish

/-- A pass fails with a visit. -/
theorem pass_eq_error
    {failure : Failure}
    (stage : host.Stage seed .between progress)
    (changed : progress.changed = true)
    (failed : progress.pass host = .error failure) :
    ∃ index reached,
      host.Stage seed (.within (index + 1)) reached ∧
        reached.visit host index = .error failure := by
  rw [Progress.pass] at failed
  split at failed
  · rename_i sweepFailed
    cases failed
    exact (stage.begin changed).sweep_eq_error sweepFailed
  · cases failed

/-- A run that settles ends at a stage after which nothing changes. -/
theorem settle?_eq_ok
    {limit : Option Nat}
    {rounds : Nat}
    {final : Progress}
    (stage : host.Stage seed .between progress)
    (ended : progress.settle? host limit rounds = some (.ok final)) :
    host.Stage seed .between final ∧ final.changed = false := by
  induction rounds generalizing progress with
  | zero => cases ended
  | succ rounds inductionHypothesis =>
      rw [Progress.settle?] at ended
      split at ended
      · rename_i changed
        split at ended
        · cases ended
        · split at ended
          · cases ended
          · rename_i passed
            exact inductionHypothesis (stage.pass_eq_ok changed passed) ended
      · rename_i unchanged
        cases ended
        exact ⟨stage, Bool.eq_false_iff.mpr unchanged⟩

/-- A run fails with a visit or because a limit is reached. -/
theorem settle?_eq_error
    {limit : Option Nat}
    {rounds : Nat}
    {failure : Failure}
    (stage : host.Stage seed .between progress)
    (ended : progress.settle? host limit rounds = some (.error failure)) :
    (∃ reached, failure.cause = .passLimit reached) ∨
    ∃ index reached,
      host.Stage seed (.within (index + 1)) reached ∧
        reached.visit host index = .error failure := by
  induction rounds generalizing progress with
  | zero => cases ended
  | succ rounds inductionHypothesis =>
      rw [Progress.settle?] at ended
      split at ended
      · rename_i changed
        split at ended
        · cases ended
          exact .inl ⟨_, rfl⟩
        · split at ended
          · rename_i passFailed
            cases ended
            exact .inr (stage.pass_eq_error changed passFailed)
          · rename_i passed
            exact inductionHypothesis (stage.pass_eq_ok changed passed) ended
      · cases ended

/-! ## The tree at every stage -/

/-- The tree at a stage is rooted over the addresses of the first one. -/
structure Sound
    (seed : DominatorTree)
    (position : Position)
    (progress : Progress) : Prop where
  order_eq : progress.tree.order = seed.order
  rooted : progress.tree.Rooted (seed.size - 1)
  /-- What has been visited in a pass is linked. -/
  visited :
    ∀ {waiting : Nat},
      position = .within waiting →
      waiting ≤ seed.size - 1 ∧
        ∀ index, waiting ≤ index → index ≤ seed.size - 1 → progress.tree.isLinked index = true
  /-- After the last pass everything is linked. -/
  complete :
    position = .between →
    progress.changed = false →
    ∀ index ≤ seed.size - 1, progress.tree.isLinked index = true

theorem Sound.size_eq
    {position : Position}
    (sound : Sound seed position progress) :
    progress.tree.size = seed.size := by
  rw [DominatorTree.size, sound.order_eq, DominatorTree.size]

/-- A visit that succeeds keeps the tree rooted, whatever the host answers. -/
theorem Sound.visit
    {index : Nat}
    {next : Progress}
    (sound : Sound seed (.within (index + 1)) progress)
    (visited : progress.visit host index = .ok next) :
    Sound seed (.within index) next := by
  obtain ⟨below, linked⟩ := sound.visited rfl
  obtain ⟨dominator, _, _, dominatorLinked, higher, rfl⟩ :=
    Progress.exists_link_of_visit sound.rooted visited
  have inside := sound.rooted.lt_size below
  refine ⟨?_, ?_, ?_, ?_⟩
  · rw [Progress.tree_link]
    exact sound.order_eq
  · rw [Progress.tree_link]
    exact sound.rooted.setLink below higher dominatorLinked
  · rintro _ ⟨rfl⟩
    refine ⟨Nat.le_of_lt below, ?_⟩
    intro other isVisited isInside
    rw [Progress.tree_link]
    refine (DominatorTree.isLinked_setLink inside dominator other).mpr ?_
    rcases Nat.lt_or_eq_of_le isVisited with above | isIndex
    · exact .inr (linked other above isInside)
    · exact .inl isIndex.symm
  · intro isBetween
    cases isBetween

/-- The tree is rooted at every stage of a build that begins with a rooted tree. -/
theorem sound
    {position : Position}
    (rooted : seed.Rooted (seed.size - 1))
    (stage : host.Stage seed position progress) :
    Sound seed position progress := by
  induction stage with
  | start =>
      refine ⟨rfl, rooted, fun isWithin => (nomatch isWithin), ?_⟩
      intro _ unchanged
      cases unchanged
  | begin _ _ inductionHypothesis =>
      refine ⟨inductionHypothesis.order_eq, inductionHypothesis.rooted, ?_,
        fun isBetween => (nomatch isBetween)⟩
      rintro _ ⟨rfl⟩
      rw [inductionHypothesis.size_eq]
      refine ⟨Nat.le_refl _, ?_⟩
      intro index isVisited isInside
      rw [Nat.le_antisymm isInside isVisited]
      exact inductionHypothesis.rooted.root_isLinked
  | visit _ visited inductionHypothesis => exact inductionHypothesis.visit visited
  | finish _ inductionHypothesis =>
      refine ⟨inductionHypothesis.order_eq, inductionHypothesis.rooted,
        fun isWithin => (nomatch isWithin), ?_⟩
      intro _ _ index inside
      exact (inductionHypothesis.visited rfl).2 index (Nat.zero_le index) inside

end Stage

/-- The tree with which a build begins is rooted. -/
theorem SeededBy.rooted_seed
    {host : Host}
    {seed : DominatorTree}
    (seeded : host.SeededBy seed) :
    seed.Rooted (seed.size - 1) := by
  rw [seeded.size_eq]
  exact seeded.rooted

/-- A run of passes that settles ends a build with its tree, verified or not. -/
theorem outcome_result_of_settle?
    {host : Host}
    {seed : DominatorTree}
    {limit : Option Nat}
    {rounds : Nat}
    {final : Progress}
    (accepted : host.index = .ok seed)
    (run : (Progress.start seed).settle? host limit rounds = some (.ok final))
    (config : BuildConfig) :
    (final.outcome config).result = .ok final.finished := by
  obtain ⟨stage, unchanged⟩ := Stage.start.settle?_eq_ok run
  have sound := stage.sound (seededBy_of_index accepted).rooted_seed
  exact Progress.outcome_result config sound.rooted (sound.complete rfl unchanged)

/-- A build that ends with a tree ends with a run of passes that settles on it. -/
theorem Yields.exists_settle?
    {host : Host}
    {config : BuildConfig}
    {outcome : Outcome}
    {tree : DominatorTree}
    (yields : host.Yields config outcome)
    (isTree : outcome.result = .ok tree) :
    ∃ seed rounds final,
      host.index = .ok seed ∧
        (Progress.start seed).settle? host config.maxPasses rounds = some (.ok final) ∧
          tree = final.finished := by
  rcases yields.cases with
      ⟨_, _, rfl⟩ | ⟨seed, rounds, accepted, ⟨_, _, rfl⟩ | ⟨final, run, rfl⟩⟩
  · cases isTree
  · cases isTree
  · rw [outcome_result_of_settle? accepted run config] at isTree
    exact ⟨seed, rounds, final, accepted, run, (Except.ok.inj isTree).symm⟩

/-- A tree that a build ends with is the tree at a stage after which nothing changes. -/
theorem Yields.exists_stage
    {host : Host}
    {config : BuildConfig}
    {outcome : Outcome}
    {tree : DominatorTree}
    (yields : host.Yields config outcome)
    (isTree : outcome.result = .ok tree) :
    ∃ seed final,
      host.index = .ok seed ∧
        host.Stage seed .between final ∧
          final.changed = false ∧
            tree = final.finished := by
  obtain ⟨seed, rounds, final, accepted, run, isFinal⟩ := yields.exists_settle? isTree
  obtain ⟨stage, unchanged⟩ := Stage.start.settle?_eq_ok run
  exact ⟨seed, final, accepted, stage, unchanged, isFinal⟩

/-- A build fails when the blocks are ordered, in a visit, or because a limit is reached. -/
theorem Yields.cause_of_error
    {host : Host}
    {config : BuildConfig}
    {outcome : Outcome}
    {cause : BuildError}
    (yields : host.Yields config outcome)
    (isError : outcome.result = .error cause) :
    host.index = .error cause ∨
    (∃ limit, cause = .passLimit limit) ∨
    (∃ unknown block, cause = .unknownPredecessor unknown block) ∨
    (∃ index, cause = .unresolvable index) ∨
    ∃ block index dominator, cause = .lowDominator block index dominator := by
  rcases yields.cases with
      ⟨_, refused, rfl⟩ | ⟨seed, rounds, accepted, ⟨failure, run, rfl⟩ | ⟨final, run, rfl⟩⟩
  · cases isError
    exact .inl refused
  · cases isError
    right
    rcases Stage.start.settle?_eq_error run with
        ⟨limit, isLimit⟩ | ⟨index, reached, stage, failed⟩
    · exact .inl ⟨limit, isLimit⟩
    · have rooted := (seededBy_of_index accepted).rooted_seed
      rcases Progress.cause_of_visit (stage.sound rooted).rooted failed with
        ⟨unknown, isCause⟩ | isCause | ⟨dominator, isCause⟩
      · exact .inr (.inl ⟨unknown, _, isCause⟩)
      · exact .inr (.inr (.inl ⟨index, isCause⟩))
      · exact .inr (.inr (.inr ⟨_, index, dominator, isCause⟩))
  · rw [outcome_result_of_settle? accepted run config] at isError
    cases isError

/-- A build never fails because a chain is broken or its tree is not sound. -/
theorem Yields.guards_hold
    {host : Host}
    {config : BuildConfig}
    {outcome : Outcome}
    {cause : BuildError}
    (yields : host.Yields config outcome)
    (isError : outcome.result = .error cause) :
    (∀ error, cause ≠ .brokenChain error) ∧ ∀ fault, cause ≠ .invalidTree fault := by
  rcases yields.cause_of_error isError with
      refused | ⟨_, rfl⟩ | ⟨_, _, rfl⟩ | ⟨_, rfl⟩ | ⟨_, _, _, rfl⟩
  · rcases cause_of_index refused with rfl | ⟨rfl, _⟩ | ⟨_, rfl⟩ <;> simp
  all_goals simp

/-- A build is refused for its size only if the host announces too much. -/
theorem Yields.overstates_of_tooLarge
    {host : Host}
    {config : BuildConfig}
    {outcome : Outcome}
    {size : Nat}
    (yields : host.Yields config outcome)
    (isError : outcome.result = .error (.tooLarge size)) :
    host.Overstates := by
  rcases yields.cause_of_error isError with
      refused | ⟨_, isCause⟩ | ⟨_, _, isCause⟩ | ⟨_, isCause⟩ | ⟨_, _, _, isCause⟩
  · rcases cause_of_index refused with isCause | ⟨_, overstates⟩ | ⟨_, isCause⟩
    · cases isCause
    · exact overstates
    · cases isCause
  all_goals cases isCause

/--
Whatever a host answers, at every stage of a build on it all recorded links climb to
linked indices, that of the root apart, so that chains climb to the root, and no link
is looked up or recorded outside the tree.

In consequence no build fails because a chain does not climb or a tree is not sound,
and every tree that a build ends with passes verification.  A build is refused for its
size only before its first stage, and never if there is room in the tables for as many
blocks as the host announces.
-/
theorem stage_climbs_to_root (host : Host) :
    (∀ seed position progress,
      host.index = .ok seed →
      host.Stage seed position progress →
      progress.tree.size = host.size ∧
        progress.tree.link? (host.size - 1) = some (host.size - 1) ∧
        (∀ index dominator,
          index ≠ host.size - 1 →
          progress.tree.link? index = some dominator →
          index < dominator ∧ progress.tree.isLinked dominator = true) ∧
        (∀ index,
          progress.tree.isLinked index = true →
          (progress.tree.ascent index).IsChain (fun lower higher =>
              lower < higher ∧ progress.tree.link? lower = some higher) ∧
            (progress.tree.ascent index).getLast? = some (host.size - 1)) ∧
        (∀ address source,
          progress.tree.postorder? address = some source →
          ∀ met ∈ progress.tree.ascent source, met < progress.tree.size) ∧
        ∀ index, position = .within (index + 1) → index < progress.tree.size) ∧
    ∀ config outcome,
      host.Yields config outcome →
      (∀ error, outcome.result ≠ .error (.brokenChain error)) ∧
        (∀ fault, outcome.result ≠ .error (.invalidTree fault)) ∧
        (∀ seed size, host.index = .ok seed → outcome.result ≠ .error (.tooLarge size)) ∧
        (host.size ≤ tableCapacity → ∀ size, outcome.result ≠ .error (.tooLarge size)) ∧
        ∀ tree, outcome.result = .ok tree → tree.verify = .ok () := by
  constructor
  · intro seed position progress accepted stage
    have seeded := seededBy_of_index accepted
    have sound := stage.sound seeded.rooted_seed
    have rooted := sound.rooted
    rw [seeded.size_eq] at rooted
    refine ⟨sound.size_eq.trans seeded.size_eq, rooted.root_link, ?_, ?_, ?_, ?_⟩
    · intro index dominator notRoot recorded
      rcases Nat.lt_or_gt_of_ne notRoot with below | outside
      · exact rooted.climbs below recorded
      · rw [rooted.link?_of_lt outside] at recorded
        cases recorded
    · intro index linked
      exact ⟨progress.tree.isChain_ascent index, rooted.getLast?_ascent linked⟩
    · intro address source found met isMet
      exact rooted.lt_size_of_mem_ascent (DominatorTree.address?_of_postorder? found).1 isMet
    · intro index isWithin
      exact sound.rooted.lt_size (sound.visited isWithin).1
  · intro config outcome yields
    refine ⟨?_, ?_, ?_, ?_, ?_⟩
    · intro error isError
      exact (yields.guards_hold isError).1 error rfl
    · intro fault isError
      exact (yields.guards_hold isError).2 fault rfl
    · intro seed size accepted isError
      rw [index_of_overstates (yields.overstates_of_tooLarge isError)] at accepted
      cases accepted
    · intro fits size isError
      exact not_overstates_of_le fits (yields.overstates_of_tooLarge isError)
    · intro tree isTree
      obtain ⟨seed, final, accepted, stage, unchanged, rfl⟩ := yields.exists_stage isTree
      have sound := stage.sound (seededBy_of_index accepted).rooted_seed
      have noFault : final.finished.fault? = none :=
        (sound.rooted.setPasses final.passes).fault?_eq_none (sound.complete rfl unchanged)
      rw [DominatorTree.verify, noFault]

/-- Three blocks whose predecessors may be others from the second pass on. -/
def fickleHost (first later : Address → List Address) : Host where
  size := 3
  entry := ⟨10⟩
  nodes := [⟨⟨10⟩, some 2⟩, ⟨⟨20⟩, some 1⟩, ⟨⟨30⟩, some 0⟩]
  predecessors := fun time => if time = 0 then first else later

/-- The block in the middle follows the entry, or only the last block from the second pass on. -/
def turnedHost : Host :=
  fickleHost
    (fun block => if block = ⟨20⟩ then [⟨10⟩] else [⟨20⟩])
    (fun block => if block = ⟨20⟩ then [⟨30⟩] else [⟨20⟩])

/-- The host that turns is refused for a dominator that is too low, and for nothing worse. -/
theorem turnedHost_climbs_to_root :
    (∃ progress,
      turnedHost.Stage (.ofOrder #[⟨30⟩, ⟨20⟩, ⟨10⟩]) (.within 1) progress ∧
        progress.tree.isLinked 1 = true ∧
          (progress.tree.ascent 1).getLast? = some 2) ∧
    turnedHost.size ≤ tableCapacity ∧
    ∃ outcome,
      turnedHost.Yields .strict outcome ∧
        outcome.result = .error (.lowDominator ⟨20⟩ 1 0) ∧
          (∀ error, outcome.result ≠ .error (.brokenChain error)) ∧
            ∀ size, outcome.result ≠ .error (.tooLarge size) := by
  have fits : turnedHost.size ≤ tableCapacity := by decide
  refine ⟨?_, fits, ?_⟩
  · have stage :
        turnedHost.Stage (.ofOrder #[⟨30⟩, ⟨20⟩, ⟨10⟩]) (.within 2)
          { Progress.start (.ofOrder #[⟨30⟩, ⟨20⟩, ⟨10⟩]) with changed := false } :=
      Stage.start.begin rfl
    refine ⟨_, stage.visit rfl, rfl, ?_⟩
    exact (((stage_climbs_to_root turnedHost).1 _ _ _ rfl (stage.visit rfl)).2.2.2.1 1 rfl).2
  · have yields : turnedHost.Yields .strict _ := ⟨3, rfl⟩
    obtain ⟨noBrokenChain, _, _, noTooLarge, _⟩ := (stage_climbs_to_root turnedHost).2 _ _ yields
    exact ⟨_, yields, rfl, noBrokenChain, noTooLarge fits⟩

/-- A single block that is announced as more blocks than the tables can hold. -/
def overstatedHost : Host where
  size := 0xffffffffffffffff
  entry := ⟨1⟩
  nodes := [⟨⟨1⟩, some 0⟩]
  predecessors := fun _ _ => []

/-- Not every build comes to its first stage or to an error in the numbering. -/
theorem overstatedHost_exceeds_table :
    ∃ outcome,
      overstatedHost.Yields .fast outcome ∧
        outcome.result = .error (.tooLarge 0xffffffffffffffff) :=
  ⟨_, ⟨0, rfl⟩, rfl⟩

end Host

end Dominance
