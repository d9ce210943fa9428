import Dominance.Proofs.Recurrence
import Dominance.Proofs.Stabilization

namespace Dominance

/-!
# Hosts that settle down

A host may change its answers about each block a number of times before it repeats itself.
The links that are left over from the earlier answers can keep a build without a limit
busy for ever.  Whether they do shows within a known number of rounds.  They do not if,
by the answers that stay, the entry leads to every block and no cycle retreats twice.
-/

namespace Progress

variable {host : Host} {progress : Progress} {seed : DominatorTree} {time : Nat}

/-! ## Endless runs -/

/-- A run that goes on makes one pass after the other. -/
theorem passes_of_afterPasses?
    {passes : Nat}
    {first reached next : Progress}
    (rooted : first.tree.Rooted (first.tree.size - 1))
    (made : first.afterPasses? host passes = some reached)
    (madeMore : first.afterPasses? host (passes + 1) = some next) :
    reached.changed = true ∧ Passes host reached next := by
  rw [afterPasses?_add, made, Option.bind_some] at madeMore
  obtain ⟨changed, other, passed, isNext⟩ := afterPasses?_succ_eq_some_iff.mp madeMore
  cases isNext
  have continues := continues_of_afterPasses? rooted made
  have sameSize : reached.tree.size = first.tree.size := by
    rw [DominatorTree.size, continues.order_eq, DominatorTree.size]
  have stillRooted : reached.tree.Rooted (reached.tree.size - 1) := by
    rw [sameSize]
    exact continues.rooted
  exact ⟨changed, passes_of_rooted stillRooted passed⟩

/-- By the answers that stay, no run goes on for ever. -/
theorem not_endless
    (settled : host.SettlesAt time)
    (rooted : seed.Rooted (seed.size - 1))
    (reached :
      ∀ index ≤ (host.indexGraph time seed).root,
        Reaches (host.indexGraph time seed).Edge (host.indexGraph time seed).root index)
    (once : (host.indexGraph time seed).RetreatsOnce) :
    ¬ Endless host (start seed) := by
  intro endless
  choose state isState using endless
  have continues (passes : Nat) : Continues (start seed) (state passes) passes :=
    continues_of_afterPasses? rooted (isState passes)
  have step (passes : Nat) :
      (state passes).changed = true ∧ Passes host (state passes) (state (passes + 1)) :=
    passes_of_afterPasses? rooted (isState passes) (isState (passes + 1))
  have sameGraph
      {passes : Nat}
      (late : time ≤ passes) :
      host.indexGraph (state passes).passes (state passes).tree = host.indexGraph time seed := by
    refine Host.indexGraph_congr (settled _ ?_) (continues passes).order_eq
    rw [(continues passes).passes_eq]
    exact Nat.le_trans late (Nat.le_add_left passes _)
  have relinking
      {passes : Nat}
      (late : time ≤ passes) :
      (host.indexGraph time seed).Relinking (state passes).tree (state (passes + 1)).tree 0 :=
    sameGraph late ▸ (step passes).2.relinking
  -- From the second pass on the settled answers every index is linked before the pass.
  have run : (host.indexGraph time seed).Run fun passes => (state (time + passes + 1)).tree :=
    { rooted := fun passes => (continues (time + passes + 1)).rooted
      complete := fun passes _ inside =>
        (relinking (Nat.le_add_right time passes)).isLinked inside
      relinking := fun passes =>
        relinking (Nat.le_succ_of_le (Nat.le_add_right time passes)) }
  obtain ⟨passes, unchanged⟩ := run.exists_unchanged reached once
  obtain ⟨index, different⟩ :=
    (step (time + passes + 1)).2.changed_iff.mp (step (time + passes + 2)).1
  exact different (unchanged index)

/-! ## Runs with and without a limit -/

/-- A run that ends without a limit ends alike under a limit that is high enough. -/
theorem settle?_of_unlimited
    {limit rounds : Nat}
    {result : Except Failure Progress}
    (ended : progress.settle? host none rounds = some result)
    (high : progress.passes + rounds ≤ limit) :
    progress.settle? host (some limit) rounds = some result := by
  induction rounds generalizing progress with
  | zero => cases ended
  | succ rounds inductionHypothesis =>
      have within : progress.reachesLimit (some limit) = none := by
        refine reachesLimit_eq_none ?_
        rintro bound ⟨rfl⟩
        omega
      rcases settle?_succ_cases ended with
          ⟨unchanged, rfl⟩ | ⟨changed, ⟨_, isReached, _⟩ | ⟨_, goesOn⟩⟩
      · simp [settle?, unchanged]
      · cases isReached
      · rcases goesOn with ⟨failure, failed, rfl⟩ | ⟨next, passed, rest⟩
        · simp [settle?, changed, within, failed]
        · simp only [settle?, changed, if_true, within, passed]
          refine inductionHypothesis rest ?_
          rw [passes_of_pass passed]
          omega

/-- A run without a limit does not fail because of one. -/
theorem cause_ne_passLimit
    {rounds limit : Nat}
    {failure : Failure}
    (rooted : seed.Rooted (seed.size - 1))
    (stage : host.Stage seed .between progress)
    (ended : progress.settle? host none rounds = some (.error failure)) :
    failure.cause ≠ .passLimit limit := by
  induction rounds generalizing progress with
  | zero => cases ended
  | succ rounds inductionHypothesis =>
      rcases settle?_succ_cases ended with
          ⟨_, isResult⟩ | ⟨changed, ⟨_, isReached, _⟩ | ⟨_, goesOn⟩⟩
      · cases isResult
      · cases isReached
      · rcases goesOn with ⟨_, failed, isResult⟩ | ⟨next, passed, rest⟩
        · cases isResult
          obtain ⟨index, reached, within, visitFailed⟩ := stage.pass_eq_error changed failed
          rcases cause_of_visit (within.sound rooted).rooted visitFailed with
              ⟨_, isCause⟩ | isCause | ⟨_, isCause⟩
          · simp [isCause]
          · simp [isCause]
          · simp [isCause]
        · exact inductionHypothesis (stage.pass_eq_ok changed passed) rest

end Progress

namespace Host

variable {host : Host} {config : BuildConfig} {seed : DominatorTree} {time : Nat}

/-- The answers about each block are the same from some question on. -/
def SettlesDown (host : Host) : Prop :=
  ∀ block,
    ∃ time,
      ∀ later, time ≤ later → host.predecessors later block = host.predecessors time block

instance : Finite Address :=
  Finite.of_injective (fun address : Address => address.value.toFin) fun first second same => by
    cases first
    cases second
    exact congrArg Address.mk (UInt64.toFin_inj.mp same)

/-- There are finitely many addresses, so all answers are the same from some question on. -/
theorem SettlesDown.exists_settlesAt (settles : host.SettlesDown) :
    ∃ time, host.SettlesAt time := by
  choose since stays using settles
  obtain ⟨time, isLast⟩ := Finite.exists_le since
  refine ⟨time, ?_⟩
  intro later late
  funext block
  rw [stays block later (Nat.le_trans (isLast block) late), stays block time (isLast block)]

/-- A build without a limit that ends has its outcome under some limit as well. -/
theorem exists_limit_of_settle?
    {rounds : Nat}
    {result : Except Failure Progress}
    (accepted : host.index = .ok seed)
    (unlimited : config.maxPasses = none)
    (ended : (Progress.start seed).settle? host none rounds = some result) :
    ∃ limit outcome,
      host.Yields (config.withMaxPasses limit) outcome ∧
        (∀ bound, outcome.result ≠ .error (.passLimit bound)) ∧ host.Yields config outcome := by
  have rooted := (seededBy_of_index accepted).rooted_seed
  have limited : (Progress.start seed).settle? host (some rounds) rounds = some result :=
    Progress.settle?_of_unlimited ended (Nat.le_of_eq (Nat.zero_add rounds))
  cases result with
  | error failure =>
      refine ⟨rounds, failure.outcome, ⟨rounds, ?_⟩, ?_, ⟨rounds, ?_⟩⟩
      · simp only [build?, accepted, BuildConfig.withMaxPasses, limited]
      · intro bound isPassLimit
        exact Progress.cause_ne_passLimit rooted Stage.start ended (Except.error.inj isPassLimit)
      · simp only [build?, accepted, unlimited, ended]
  | ok final =>
      refine ⟨rounds, final.outcome config, ⟨rounds, ?_⟩, ?_, ⟨rounds, ?_⟩⟩
      · rw [outcome_eq_of_settle? accepted ended config (config.withMaxPasses rounds)]
        simp only [build?, accepted, BuildConfig.withMaxPasses, limited]
      · intro bound isPassLimit
        rw [outcome_result_of_settle? accepted ended config] at isPassLimit
        cases isPassLimit
      · simp only [build?, accepted, unlimited, ended]

/--
On a host that settles down a build without a limit ends within a number of rounds that
is known beforehand, or it never ends and uses up every limit.

It does end, with a tree or an error, and does so under some limit as well, if by the
answers that stay the entry leads to every block and no cycle retreats twice.
-/
theorem settlesDown_ends_or_repeats
    (settles : host.SettlesDown) :
    (∃ time, host.SettlesAt time) ∧
      ∀ time config,
        host.SettlesAt time →
        config.maxPasses = none →
        ((∃ outcome, host.build? config (host.sufficientRounds time none) = some outcome) ∨
          (∀ outcome, ¬ host.Yields config outcome) ∧
            ∀ limit,
              ∃ outcome,
                host.Yields (config.withMaxPasses limit) outcome ∧
                  outcome.result = .error (.passLimit limit)) ∧
        ∀ seed,
          host.index = .ok seed →
          (∀ index ≤ (host.indexGraph time seed).root,
            Reaches (host.indexGraph time seed).Edge (host.indexGraph time seed).root index) →
          (host.indexGraph time seed).RetreatsOnce →
          ∃ limit outcome,
            host.Yields (config.withMaxPasses limit) outcome ∧
              (∀ bound, outcome.result ≠ .error (.passLimit bound)) ∧
                host.Yields config outcome := by
  refine ⟨settles.exists_settlesAt, ?_⟩
  intro time config settled unlimited
  refine ⟨build?_or_never_yields settled unlimited, ?_⟩
  intro seed accepted reached once
  have rooted := (seededBy_of_index accepted).rooted_seed
  have notEndless := Progress.not_endless settled rooted reached once
  simp only [Progress.Endless, not_forall] at notEndless
  obtain ⟨passes, ends⟩ := notEndless
  cases ended : (Progress.start seed).settle? host none passes with
  | none => exact absurd (Progress.settle?_eq_none_iff.mp ended) ends
  | some result => exact exists_limit_of_settle? accepted unlimited ended

theorem SettlesAt.settlesDown (settled : host.SettlesAt time) : host.SettlesDown := by
  intro block
  refine ⟨time, ?_⟩
  intro later late
  rw [settled later late]

/-- A loop that is entered where the first answers say, and at its head from then on. -/
def enteredLoop : HostTable where
  size := 4
  entry := ⟨3⟩
  nodes := [⟨⟨3⟩, some 3⟩, ⟨⟨2⟩, some 2⟩, ⟨⟨1⟩, some 1⟩, ⟨⟨0⟩, some 0⟩]
  answers :=
    [⟨⟨2⟩, [[⟨3⟩], [⟨3⟩, ⟨1⟩]]⟩, ⟨⟨1⟩, [[⟨3⟩], [⟨2⟩]]⟩, ⟨⟨0⟩, [[⟨2⟩], [⟨1⟩]]⟩]

/-- The tree that a build on the loop starts from. -/
def enteredLoopSeed : DominatorTree :=
  .ofOrder #[⟨0⟩, ⟨1⟩, ⟨2⟩, ⟨3⟩]

/-- The entry leads to all blocks of the loop. -/
theorem reaches_enteredLoop :
    ∀ index ≤ 3, Reaches (enteredLoop.host.indexGraph 2 enteredLoopSeed).Edge 3 index := by
  have toExit :
      Path (enteredLoop.host.indexGraph 2 enteredLoopSeed).Edge 3 0 [0, 1, 2, 3] :=
    ((Path.start.extend ⟨by decide, by decide⟩).extend ⟨by decide, by decide⟩).extend
      ⟨by decide, by decide⟩
  have onTheWay : ∀ index ≤ 3, index ∈ [0, 1, 2, 3] := by decide
  intro index inside
  exact toExit.reaches_start (onTheWay index inside)

/-- The only retreating edge leads back to the head, from which the body is reached at once. -/
theorem retreatsOnce_enteredLoop :
    (enteredLoop.host.indexGraph 2 enteredLoopSeed).RetreatsOnce := by
  have onlyRetreat :
      ∀ target < 3,
        ∀ source ∈ (enteredLoop.host.indexGraph 2 enteredLoopSeed).sources target,
          source < target → source = 1 ∧ target = 2 := by
    decide
  have onlySource :
      ∀ source ∈ (enteredLoop.host.indexGraph 2 enteredLoopSeed).sources 1, source = 2 := by
    decide
  intro source target nodes edge lower path noRepetition
  obtain ⟨rfl, rfl⟩ := onlyRetreat target edge.1 source edge.2 lower
  obtain rfl := path.eq_pair noRepetition (by decide) fun last step => onlySource last step.2
  rfl

/-- A build on the loop ends, although the body was entered elsewhere first. -/
theorem enteredLoop_ends :
    ∃ limit outcome,
      enteredLoop.host.Yields (BuildConfig.fast.withMaxPasses limit) outcome ∧
        (∀ bound, outcome.result ≠ .error (.passLimit bound)) ∧
          enteredLoop.host.Yields .fast outcome := by
  have settled : enteredLoop.host.SettlesAt 2 := enteredLoop.settlesAt_settlingTime
  exact ((settlesDown_ends_or_repeats settled.settlesDown).2 2 .fast settled rfl).2
    enteredLoopSeed rfl reaches_enteredLoop retreatsOnce_enteredLoop

/-- Three blocks in a circle that all follow a fourth one as well, from the second answer on. -/
def swingingHost : HostTable where
  size := 5
  entry := ⟨4⟩
  nodes := [⟨⟨4⟩, some 4⟩, ⟨⟨3⟩, some 3⟩, ⟨⟨2⟩, some 2⟩, ⟨⟨1⟩, some 1⟩, ⟨⟨0⟩, some 0⟩]
  answers :=
    [⟨⟨3⟩, [[⟨4⟩]]⟩, ⟨⟨2⟩, [[⟨3⟩], [⟨3⟩, ⟨1⟩]]⟩, ⟨⟨1⟩, [[⟨4⟩], [⟨3⟩, ⟨0⟩]]⟩,
      ⟨⟨0⟩, [[⟨3⟩], [⟨3⟩, ⟨2⟩]]⟩]

def swingingSeed : DominatorTree :=
  .ofOrder #[⟨0⟩, ⟨1⟩, ⟨2⟩, ⟨3⟩, ⟨4⟩]

/-- The tree to which a build comes with every second pass. -/
def swungTree : DominatorTree where
  order := swingingSeed.order
  links := #[some 4, some 3, some 4, some 4, some 4]
  passes := 0
  links_size := rfl

/-- A host that repeats its answers from the second one on can use up every limit. -/
theorem swingingHost_uses_up_limits :
    swingingHost.host.SettlesDown ∧
      (∃ seed, swingingHost.host.index = .ok seed) ∧
        (∀ limit,
          ∃ outcome,
            swingingHost.host.Yields (BuildConfig.fast.withMaxPasses limit) outcome ∧
              outcome.result = .error (.passLimit limit)) ∧
          ∀ outcome, ¬ swingingHost.host.Yields .fast outcome := by
  have settled : swingingHost.host.SettlesAt 2 := swingingHost.settlesAt_settlingTime
  have accepted : swingingHost.host.index = .ok swingingSeed := rfl
  have afterTwo : Progress.ComesTo swingingHost.host (.start swingingSeed) 2 swungTree := by
    decide +kernel
  have afterFour : Progress.ComesTo swingingHost.host (.start swingingSeed) 4 swungTree := by
    decide +kernel
  have endless :=
    Progress.endless_of_comesTo settled (seededBy_of_index accepted).rooted_seed
      (Nat.le_refl 2) (by decide) afterTwo afterFour
  obtain ⟨never, usesUp⟩ :=
    never_yields_of_endless accepted endless (rfl : BuildConfig.fast.maxPasses = none)
  exact ⟨settled.settlesDown, ⟨_, accepted⟩, usesUp, never⟩

/-- Four blocks that have only one another as predecessors, below three that feed one another. -/
def strandedHost : HostTable where
  size := 9
  entry := ⟨8⟩
  nodes :=
    [⟨⟨8⟩, some 8⟩, ⟨⟨7⟩, some 7⟩, ⟨⟨6⟩, some 6⟩, ⟨⟨5⟩, some 5⟩, ⟨⟨4⟩, some 4⟩,
      ⟨⟨3⟩, some 3⟩, ⟨⟨2⟩, some 2⟩, ⟨⟨1⟩, some 1⟩, ⟨⟨0⟩, some 0⟩]
  answers :=
    [⟨⟨7⟩, [[⟨8⟩]]⟩, ⟨⟨6⟩, [[⟨7⟩], [⟨7⟩, ⟨3⟩]]⟩, ⟨⟨5⟩, [[⟨8⟩], [⟨7⟩, ⟨4⟩]]⟩,
      ⟨⟨4⟩, [[⟨7⟩], [⟨7⟩, ⟨6⟩]]⟩, ⟨⟨3⟩, [[⟨5⟩], [⟨1⟩, ⟨0⟩]]⟩, ⟨⟨2⟩, [[⟨5⟩], [⟨3⟩, ⟨1⟩]]⟩,
      ⟨⟨1⟩, [[⟨2⟩]]⟩, ⟨⟨0⟩, [[⟨3⟩]]⟩]

def strandedSeed : DominatorTree :=
  .ofOrder #[⟨0⟩, ⟨1⟩, ⟨2⟩, ⟨3⟩, ⟨4⟩, ⟨5⟩, ⟨6⟩, ⟨7⟩, ⟨8⟩]

def strandedTree : DominatorTree where
  order := strandedSeed.order
  links := #[some 3, some 2, some 5, some 5, some 8, some 7, some 8, some 8, some 8]
  passes := 0
  links_size := rfl

/-- No cycle of the stranded host retreats twice. -/
theorem retreatsOnce_strandedHost :
    (strandedHost.host.indexGraph 2 strandedSeed).RetreatsOnce := by
  have onlyRetreats :
      ∀ target < 8,
        ∀ source ∈ (strandedHost.host.indexGraph 2 strandedSeed).sources target,
          source < target →
          (source = 3 ∧ target = 6) ∨ (source = 4 ∧ target = 5) ∨
            (source = 1 ∧ target = 3) ∨ (source = 0 ∧ target = 3) ∨
              (source = 1 ∧ target = 2) := by
    decide
  have fromBelowFour :
      ∀ target < 8,
        ∀ source ∈ (strandedHost.host.indexGraph 2 strandedSeed).sources target,
          target < 4 → source < 4 := by
    decide
  have notFromFive :
      ∀ target < 8,
        ∀ source ∈ (strandedHost.host.indexGraph 2 strandedSeed).sources target, source ≠ 5 := by
    decide
  have intoZero :
      ∀ source ∈ (strandedHost.host.indexGraph 2 strandedSeed).sources 0, source = 3 := by
    decide
  have intoOne :
      ∀ source ∈ (strandedHost.host.indexGraph 2 strandedSeed).sources 1, source = 2 := by
    decide
  have intoTwo :
      ∀ source ∈ (strandedHost.host.indexGraph 2 strandedSeed).sources 2,
        source = 3 ∨ source = 1 := by
    decide
  intro source target nodes edge lower path noRepetition
  rcases onlyRetreats target edge.1 source edge.2 lower with
      ⟨rfl, rfl⟩ | ⟨rfl, rfl⟩ | ⟨rfl, rfl⟩ | ⟨rfl, rfl⟩ | ⟨rfl, rfl⟩
  · -- The stranded blocks are not reached from the others.
    have stranded := (path.mapKnown (· < 4) id
      (fun last next isBelow step => ⟨fromBelowFour next step.1 last step.2 isBelow, step⟩)
      (by decide)).2
    exact absurd (stranded 6 path.start_mem) (by decide)
  · cases path with
    | extend path step =>
        have avoided := (path.mapKnown (· ≠ 5) id
          (fun last next _ step => ⟨notFromFive next step.1 last step.2, step⟩)
          (notFromFive 4 step.1 _ step.2)).2
        exact absurd rfl (avoided 5 path.start_mem)
  · cases path with
    | extend path step =>
        obtain rfl := intoOne _ step.2
        cases path with
        | extend path step =>
            obtain ⟨notRepeated, noRepetition⟩ := List.nodup_cons.mp noRepetition
            rcases intoTwo _ step.2 with rfl | rfl
            · obtain rfl := path.eq_singleton (List.nodup_cons.mp noRepetition).2
              rfl
            · exact absurd (List.mem_cons_of_mem 2 path.node_mem) notRepeated
  · obtain rfl := path.eq_pair noRepetition (by decide) fun last step => intoZero last step.2
    rfl
  · obtain rfl := path.eq_pair noRepetition (by decide) fun last step => intoOne last step.2
    rfl

/--
The entry has to lead to every block: among blocks that it does not lead to, links of
earlier answers can stay, and a build may not end although no cycle retreats twice.
-/
theorem strandedHost_never_yields :
    (strandedHost.host.indexGraph 2 strandedSeed).RetreatsOnce ∧
      ∀ outcome, ¬ strandedHost.host.Yields .fast outcome := by
  have accepted : strandedHost.host.index = .ok strandedSeed := by decide +kernel
  have afterTwo : Progress.ComesTo strandedHost.host (.start strandedSeed) 2 strandedTree := by
    decide +kernel
  have afterFour : Progress.ComesTo strandedHost.host (.start strandedSeed) 4 strandedTree := by
    decide +kernel
  have endless :=
    Progress.endless_of_comesTo strandedHost.settlesAt_settlingTime
      (seededBy_of_index accepted).rooted_seed (Nat.le_refl 2) (by decide) afterTwo afterFour
  exact ⟨retreatsOnce_strandedHost,
    (never_yields_of_endless accepted endless (rfl : BuildConfig.fast.maxPasses = none)).1⟩

end Host

end Dominance
