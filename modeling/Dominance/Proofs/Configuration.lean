import Dominance.Proofs.LastPass

namespace Dominance

/-!
# The configuration does not change what a build finds

A limit on the passes is looked at before each pass, so a run of passes under a higher
limit goes the same way until the lower limit is used up.  Unless it is, both end alike.
If it is, the last pass under the lower limit has changed a link, so that a run that
goes on and settles needs more passes than the lower limit allows.

Verification cannot make a difference either: every tree on which a run of passes
settles passes it, whatever the host has answered.
-/

/-- A limit is no higher than another one; having no limit is higher than all limits. -/
def NoHigherLimit : Option Nat → Option Nat → Prop
  | _, none => True
  | none, some _ => False
  | some lower, some upper => lower ≤ upper

instance : DecidableRel NoHigherLimit
  | none, none => inferInstanceAs (Decidable True)
  | some _, none => inferInstanceAs (Decidable True)
  | none, some _ => inferInstanceAs (Decidable False)
  | some lower, some upper => inferInstanceAs (Decidable (lower ≤ upper))

namespace Progress

variable {host : Host} {progress : Progress} {lower upper : Option Nat}

/-! ## Limits and passes -/

/-- A limit stops a build once as many passes are complete. -/
theorem reachesLimit_eq_some_iff
    {limit : Option Nat}
    {reached : Nat} :
    progress.reachesLimit limit = some reached ↔
      limit = some reached ∧ reached ≤ progress.passes := by
  cases limit with
  | none => simp [reachesLimit]
  | some bound =>
      simp only [reachesLimit, Option.ite_none_right_eq_some, Option.some.injEq]
      constructor
      · rintro ⟨isReached, rfl⟩
        exact ⟨rfl, isReached⟩
      · rintro ⟨rfl, isReached⟩
        exact ⟨isReached, rfl⟩

/-- A limit that is not lower is not used up earlier. -/
theorem reachesLimit_of_noHigherLimit
    (noHigher : NoHigherLimit lower upper)
    (withinLower : progress.reachesLimit lower = none) :
    progress.reachesLimit upper = none := by
  refine reachesLimit_eq_none ?_
  rintro bound rfl
  cases lower with
  | none => exact noHigher.elim
  | some limit =>
      by_contra usedUp
      have isReached : progress.reachesLimit (some limit) = some limit :=
        reachesLimit_eq_some_iff.mpr
          ⟨rfl, Nat.le_trans noHigher (Nat.le_of_not_lt usedUp)⟩
      rw [withinLower] at isReached
      cases isReached

theorem passes_of_visit
    {index : Nat}
    {next : Progress}
    (visited : progress.visit host index = .ok next) :
    next.passes = progress.passes := by
  simp only [visit] at visited
  split at visited
  · cases visited
  · cases visited
    exact passes_link _ _ _

/-- Visits do not count as passes. -/
theorem passes_of_sweep
    {waiting : Nat}
    {swept : Progress}
    (isSwept : progress.sweep host waiting = .ok swept) :
    swept.passes = progress.passes := by
  induction waiting generalizing progress with
  | zero =>
      cases isSwept
      rfl
  | succ index inductionHypothesis =>
      rw [sweep] at isSwept
      split at isSwept
      · cases isSwept
      · rename_i visited
        exact (inductionHypothesis isSwept).trans (passes_of_visit visited)

/-- A pass is counted. -/
theorem passes_of_pass
    {next : Progress}
    (passed : progress.pass host = .ok next) :
    next.passes = progress.passes + 1 := by
  rw [pass] at passed
  split at passed
  · cases passed
  · rename_i isSwept
    cases passed
    have sweptPasses := passes_of_sweep isSwept
    exact congrArg (· + 1) sweptPasses

/-! ## Runs under two limits -/

/-- All that one round of a run can do. -/
theorem settle?_succ_cases
    {limit : Option Nat}
    {rounds : Nat}
    {result : Except Failure Progress}
    (ended : progress.settle? host limit (rounds + 1) = some result) :
    (progress.changed = false ∧ result = .ok progress) ∨
    progress.changed = true ∧
      ((∃ reached,
        progress.reachesLimit limit = some reached ∧
          result = .error ⟨.passLimit reached, progress⟩) ∨
      progress.reachesLimit limit = none ∧
        ((∃ failure, progress.pass host = .error failure ∧ result = .error failure) ∨
        ∃ next,
          progress.pass host = .ok next ∧
            next.settle? host limit rounds = some result)) := by
  rw [settle?] at ended
  split at ended
  · rename_i changed
    refine .inr ⟨changed, ?_⟩
    split at ended
    · rename_i reached isReached
      exact .inl ⟨reached, isReached, (Option.some.inj ended).symm⟩
    · rename_i within
      refine .inr ⟨within, ?_⟩
      split at ended
      · rename_i failure failed
        exact .inl ⟨failure, failed, (Option.some.inj ended).symm⟩
      · rename_i next passed
        exact .inr ⟨next, passed, ended⟩
  · rename_i unchanged
    exact .inl ⟨Bool.eq_false_iff.mpr unchanged, (Option.some.inj ended).symm⟩

/-- A run ends alike under a higher limit, unless the lower one is used up. -/
theorem settle?_of_noHigherLimit
    {rounds : Nat}
    {result : Except Failure Progress}
    (noHigher : NoHigherLimit lower upper)
    (ended : progress.settle? host lower rounds = some result) :
    progress.settle? host upper rounds = some result ∨
      ∃ limit failure,
        lower = some limit ∧
          failure.cause = .passLimit limit ∧
            result = .error failure := by
  induction rounds generalizing progress with
  | zero => cases ended
  | succ rounds inductionHypothesis =>
      rcases settle?_succ_cases ended with
          ⟨unchanged, rfl⟩ | ⟨changed, ⟨limit, isReached, rfl⟩ | ⟨within, goesOn⟩⟩
      · left
        simp [settle?, unchanged]
      · exact .inr ⟨limit, _, (reachesLimit_eq_some_iff.mp isReached).1, rfl, rfl⟩
      · have withinUpper := reachesLimit_of_noHigherLimit noHigher within
        rcases goesOn with ⟨failure, failed, rfl⟩ | ⟨next, passed, rest⟩
        · left
          simp [settle?, changed, withinUpper, failed]
        · simp only [settle?, changed, if_true, withinUpper, passed]
          exact inductionHypothesis rest

/-- A run does not lose passes. -/
theorem passes_le_of_settle?
    {limit : Option Nat}
    {rounds : Nat}
    {final : Progress}
    (ended : progress.settle? host limit rounds = some (.ok final)) :
    progress.passes ≤ final.passes := by
  induction rounds generalizing progress with
  | zero => cases ended
  | succ rounds inductionHypothesis =>
      rcases settle?_succ_cases ended with
          ⟨_, isFinal⟩ | ⟨_, ⟨_, _, isFinal⟩ | ⟨_, ⟨_, _, isFinal⟩ | ⟨next, passed, rest⟩⟩⟩
      · cases isFinal
        exact Nat.le_refl _
      · cases isFinal
      · cases isFinal
      · calc progress.passes
            ≤ progress.passes + 1 := Nat.le_succ _
          _ = next.passes := (passes_of_pass passed).symm
          _ ≤ final.passes := inductionHypothesis rest

/-- A run that fails under a limit and settles without it takes more passes than the limit. -/
theorem limit_lt_passes
    {limit rounds more : Nat}
    {failure : Failure}
    {final : Progress}
    (usedUp : progress.settle? host (some limit) rounds = some (.error failure))
    (ended : progress.settle? host upper more = some (.ok final)) :
    limit < final.passes := by
  induction rounds generalizing progress more with
  | zero => cases usedUp
  | succ rounds inductionHypothesis =>
      cases more with
      | zero => cases ended
      | succ more =>
          rcases settle?_succ_cases ended with
              ⟨unchanged, _⟩ |
              ⟨changed, ⟨_, _, isFinal⟩ | ⟨_, ⟨_, _, isFinal⟩ | ⟨next, passed, rest⟩⟩⟩
          · -- A run that has settled already does not look at its limit.
            rw [settle?, if_neg (Bool.eq_false_iff.mp unchanged)] at usedUp
            cases usedUp
          · cases isFinal
          · cases isFinal
          · rcases settle?_succ_cases usedUp with
                ⟨unchanged, _⟩ |
                ⟨_, ⟨_, isReached, _⟩ |
                  ⟨_, ⟨_, failed, _⟩ | ⟨other, passedToo, restUsedUp⟩⟩⟩
            · rw [changed] at unchanged
              cases unchanged
            · obtain ⟨sameLimit, reached⟩ := reachesLimit_eq_some_iff.mp isReached
              cases sameLimit
              calc limit
                  ≤ progress.passes := reached
                _ < next.passes := by
                  rw [passes_of_pass passed]
                  exact Nat.lt_succ_self _
                _ ≤ final.passes := passes_le_of_settle? rest
            · rw [passed] at failed
              cases failed
            · rw [passed] at passedToo
              cases passedToo
              exact inductionHypothesis restUsedUp rest

end Progress

namespace Host

/-! ## Builds under two configurations -/

/-- A run that settles has the same outcome whether its tree is verified or not. -/
theorem outcome_eq_of_settle?
    {host : Host}
    {seed : DominatorTree}
    {limit : Option Nat}
    {rounds : Nat}
    {final : Progress}
    (accepted : host.index = .ok seed)
    (run : (Progress.start seed).settle? host limit rounds = some (.ok final))
    (first second : BuildConfig) :
    final.outcome first = final.outcome second := by
  show (⟨(final.outcome first).result, _, _⟩ : Outcome) = ⟨(final.outcome second).result, _, _⟩
  rw [outcome_result_of_settle? accepted run first, outcome_result_of_settle? accepted run second]

/--
The configuration does not change what a build finds, whatever the host answers.

Let the limit of a first configuration be no higher than that of a second one.  If a
build under the first ends otherwise than by using up its limit, a build under the
second has the same outcome: the same tree with the same number of passes or the same
error, after the same questions and with the same log.  If it uses up its limit, no
build under the second ends with a tree after as few passes as the limit allows.
-/
theorem yields_of_noHigherLimit
    {host : Host}
    {first second : BuildConfig}
    {outcome : Outcome}
    (noHigher : NoHigherLimit first.maxPasses second.maxPasses)
    (yields : host.Yields first outcome) :
    ((∀ limit,
        first.maxPasses = some limit →
        outcome.result ≠ .error (.passLimit limit)) →
      host.Yields second outcome) ∧
    ∀ limit,
      first.maxPasses = some limit →
      outcome.result = .error (.passLimit limit) →
      ∀ other tree,
        host.Yields second other →
        other.result = .ok tree →
        limit < tree.passes := by
  constructor
  · intro notUsedUp
    rcases yields.cases with
        ⟨error, refused, rfl⟩ | ⟨seed, rounds, accepted, ⟨failure, run, rfl⟩ | ⟨final, run, rfl⟩⟩
    · exact ⟨0, by simp only [build?, refused]⟩
    · rcases Progress.settle?_of_noHigherLimit noHigher run with
          sameRun | ⟨limit, _, isLimit, isCause, isFailure⟩
      · exact ⟨rounds, by simp only [build?, accepted, sameRun]⟩
      · cases isFailure
        exact absurd (congrArg Except.error isCause) (notUsedUp limit isLimit)
    · rcases Progress.settle?_of_noHigherLimit noHigher run with
          sameRun | ⟨_, _, _, _, isFailure⟩
      · rw [outcome_eq_of_settle? accepted run first second]
        exact ⟨rounds, by simp only [build?, accepted, sameRun]⟩
      · cases isFailure
  · intro limit isLimit usedUp other tree otherYields isTree
    obtain ⟨seed, more, final, accepted, settles, rfl⟩ := otherYields.exists_settle? isTree
    rcases yields.cases with
        ⟨_, refused, _⟩ | ⟨_, rounds, acceptedToo, ⟨failure, run, rfl⟩ | ⟨settled, run, rfl⟩⟩
    · rw [accepted] at refused
      cases refused
    · rw [accepted] at acceptedToo
      cases acceptedToo
      rw [isLimit] at run
      exact Progress.limit_lt_passes run settles
    · rw [outcome_result_of_settle? acceptedToo run first] at usedUp
      cases usedUp

/--
The host whose last block moves needs three passes.  A verified build with just this
limit has the outcome of a build without any; with a limit of two it has no tree, and
the build without a limit takes more than two passes.
-/
theorem movedHost_yields_of_noHigherLimit :
    (∃ outcome tree,
      movedHost.Yields (BuildConfig.strict.withMaxPasses 3) outcome ∧
        outcome.result = .ok tree ∧
          tree.passes = 3 ∧
            movedHost.Yields .fast outcome) ∧
    ∃ outcome,
      movedHost.Yields (BuildConfig.strict.withMaxPasses 2) outcome ∧
        outcome.result = .error (.passLimit 2) ∧
          ∀ other tree,
            movedHost.Yields .fast other →
            other.result = .ok tree →
            2 < tree.passes := by
  have noHigher (limit : Nat) :
      NoHigherLimit (BuildConfig.strict.withMaxPasses limit).maxPasses
        BuildConfig.fast.maxPasses :=
    trivial
  constructor
  · have yields : movedHost.Yields (BuildConfig.strict.withMaxPasses 3) _ := ⟨4, rfl⟩
    refine ⟨_, _, yields, rfl, rfl, ?_⟩
    refine (yields_of_noHigherLimit (noHigher 3) yields).1 ?_
    intro limit _ isError
    cases isError
  · have yields : movedHost.Yields (BuildConfig.strict.withMaxPasses 2) _ := ⟨4, rfl⟩
    exact ⟨_, yields, rfl, (yields_of_noHigherLimit (noHigher 2) yields).2 2 rfl rfl⟩

end Host

end Dominance
