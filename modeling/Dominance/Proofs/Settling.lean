import Dominance.Build.Run
import Dominance.Proofs.Convergence
import Dominance.Proofs.Visit

namespace Dominance.Progress

/-!
# Runs of passes

What a visit, a pass and a run of passes do to the progress of a build on a host
that does not change its answers.  The first failing visit of the first pass
decides an unsuccessful build.  If no visit of the first pass fails, none fails
later, and the run ends after at most as many passes as there are indices.
-/

/-- A pass under way at some time, with the indices from a bound on visited. -/
structure Underway
    (host : Host)
    (time : Nat)
    (before : DominatorTree)
    (bound : Nat)
    (progress : Progress) : Prop where
  passes_eq : progress.passes = time
  order_eq : progress.tree.order = before.order
  sweeping : (host.indexGraph time before).Sweeping before progress.tree bound
  changed_iff :
    progress.changed = true ↔
      ∃ index, progress.tree.link? index ≠ before.link? index

namespace Underway

variable {host : Host} {time : Nat} {before : DominatorTree} {progress : Progress}

/-- The graph of the indices stays the same during a pass. -/
theorem indexGraph_eq
    {bound : Nat}
    (underway : Underway host time before bound progress) :
    host.indexGraph progress.passes progress.tree = host.indexGraph time before :=
  Host.indexGraph_congr (congrArg host.predecessors underway.passes_eq) underway.order_eq

theorem knowsPredecessors_eq
    {bound : Nat}
    (underway : Underway host time before bound progress) :
    host.KnowsPredecessors progress.passes progress.tree =
      host.KnowsPredecessors time before :=
  Host.knowsPredecessors_congr
    (congrArg host.predecessors underway.passes_eq) underway.order_eq

/-- A visit succeeds at an index with known predecessors, one of them higher. -/
theorem visit
    {index : Nat}
    (underway : Underway host time before (index + 1) progress)
    (below : index < (host.indexGraph time before).root)
    (resolvable : host.Resolvable time before index) :
    ∃ next,
      progress.visit host index = .ok next ∧
        Underway host time before index next := by
  have sweeping := underway.sweeping
  obtain ⟨known, source, isSource, higher⟩ := resolvable
  have isOther : source ∈ (host.indexGraph time before).others index :=
    IndexGraph.mem_others.mpr ⟨isSource, by omega⟩
  have linked : progress.tree.isLinked source = true :=
    sweeping.visited higher ((host.indexGraph time before).inside index source isSource)
  rw [← underway.indexGraph_eq] at isOther
  obtain ⟨dominator, nearest, _, visited⟩ :=
    visit_of_linked sweeping.rooted
      (underway.knowsPredecessors_eq ▸ known) isOther linked
  rw [underway.indexGraph_eq] at nearest
  have dominatorHigher :=
    sweeping.lt_of_isNearest ⟨source, isSource, higher⟩ nearest
  rw [if_pos dominatorHigher] at visited
  refine ⟨progress.ask.link index dominator, visited, ?_, ?_, ?_, ?_⟩
  · rw [passes_link]
    exact underway.passes_eq
  · rw [tree_link]
    exact underway.order_eq
  · rw [tree_link]
    exact sweeping.visit ⟨source, isSource, higher⟩ nearest below
  · have inside := sweeping.rooted.lt_size below
    have sameLink := sweeping.unvisited (Nat.lt_succ_self index)
    rw [changed_link_iff, tree_link]
    show progress.changed = true ∨ progress.tree.link? index ≠ some dominator ↔
      ∃ other, (progress.tree.setLink index dominator).link? other ≠ before.link? other
    by_cases recorded : progress.tree.link? index = some dominator
    · rw [DominatorTree.setLink_eq_self recorded]
      simpa [recorded] using underway.changed_iff
    · refine ⟨fun _ => ⟨index, ?_⟩, fun _ => .inr recorded⟩
      rw [DominatorTree.link?_setLink inside, if_pos rfl, ← sameLink]
      exact fun same => recorded same.symm

/-- A sweep gets to a lower bound if no visit on the way fails. -/
theorem sweep
    {bound low : Nat}
    (underway : Underway host time before bound progress)
    (inside : bound ≤ (host.indexGraph time before).root)
    (lower : low ≤ bound)
    (resolvable :
      ∀ index,
        low ≤ index →
        index < bound →
        host.Resolvable time before index) :
    ∃ later,
      Progress.sweep host bound progress = Progress.sweep host low later ∧
        Underway host time before low later := by
  induction bound generalizing progress with
  | zero =>
      obtain rfl : low = 0 := by omega
      exact ⟨progress, rfl, underway⟩
  | succ index inductionHypothesis =>
      by_cases isLow : low = index + 1
      · subst isLow
        exact ⟨progress, rfl, underway⟩
      · obtain ⟨next, visited, nextUnderway⟩ :=
          underway.visit (by omega)
            (resolvable index (by omega) (Nat.lt_succ_self index))
        obtain ⟨later, swept, laterUnderway⟩ :=
          inductionHypothesis nextUnderway (by omega) (by omega)
            fun other isAbove isBelow => resolvable other isAbove (by omega)
        refine ⟨later, ?_, laterUnderway⟩
        simp only [Progress.sweep, visited]
        exact swept

end Underway

/-- A pass starts with everything but the root waiting for its visit. -/
theorem underway_of_approximates
    {host : Host}
    {progress : Progress}
    (approximates :
      (host.indexGraph progress.passes progress.tree).Approximates progress.tree) :
    Underway host progress.passes progress.tree
      (host.indexGraph progress.passes progress.tree).root
      { progress with changed := false } where
  passes_eq := rfl
  order_eq := rfl
  sweeping := approximates.sweeping
  changed_iff := by simp

/-- A pass succeeds if no visit fails. -/
theorem pass_eq_ok
    {host : Host}
    {progress : Progress}
    (approximates :
      (host.indexGraph progress.passes progress.tree).Approximates progress.tree)
    (resolvable :
      ∀ index < (host.indexGraph progress.passes progress.tree).root,
        host.Resolvable progress.passes progress.tree index) :
    ∃ next,
      progress.pass host = .ok next ∧
        next.passes = progress.passes + 1 ∧
          next.tree.order = progress.tree.order ∧
            (host.indexGraph progress.passes progress.tree).Sweeping
                progress.tree next.tree 0 ∧
              (next.changed = true ↔
                ∃ index, next.tree.link? index ≠ progress.tree.link? index) := by
  obtain ⟨later, swept, underway⟩ :=
    (underway_of_approximates approximates).sweep (Nat.le_refl _) (Nat.zero_le _)
      fun index _ below => resolvable index below
  refine ⟨{ later with passes := later.passes + 1 }, ?_, ?_, underway.order_eq,
    underway.sweeping, underway.changed_iff⟩
  · have isRoot :
        progress.tree.size - 1 =
          (host.indexGraph progress.passes progress.tree).root := rfl
    simp only [pass, isRoot, swept, Progress.sweep]
  · simp only [underway.passes_eq]

/-- A pass fails at the first index whose visit fails. -/
theorem pass_eq_error
    {host : Host}
    {progress : Progress}
    {cause : BuildError}
    {index : Nat}
    (approximates :
      (host.indexGraph progress.passes progress.tree).Approximates progress.tree)
    (below : index < (host.indexGraph progress.passes progress.tree).root)
    (resolvable :
      ∀ higher,
        index < higher →
        higher < (host.indexGraph progress.passes progress.tree).root →
        host.Resolvable progress.passes progress.tree higher)
    (fails :
      ∀ reached,
        Underway host progress.passes progress.tree (index + 1) reached →
        reached.visit host index = .error ⟨cause, reached.ask⟩) :
    ∃ failure, progress.pass host = .error failure ∧ failure.cause = cause := by
  obtain ⟨reached, swept, underway⟩ :=
    (underway_of_approximates approximates).sweep (Nat.le_refl _) below
      fun higher above inside => resolvable higher above inside
  refine ⟨⟨cause, reached.ask⟩, ?_, rfl⟩
  have isRoot :
      progress.tree.size - 1 =
        (host.indexGraph progress.passes progress.tree).root := rfl
  simp only [pass, isRoot, swept, Progress.sweep, fails reached underway]

/-- A limit that is not reached stops nothing. -/
theorem reachesLimit_eq_none
    {progress : Progress}
    {limit : Option Nat}
    (notReached : ∀ bound, limit = some bound → progress.passes < bound) :
    progress.reachesLimit limit = none := by
  cases limit with
  | none => rfl
  | some bound =>
      have isBelow := notReached bound rfl
      exact if_neg (Nat.not_le_of_lt isBelow)

/--
A run of passes on a host that does not change its answers.

The run started with the tree `seed`, whose index graph is the one of every pass.
-/
structure Settling
    (host : Host)
    (seed : DominatorTree)
    (progress : Progress) : Prop where
  order_eq : progress.tree.order = seed.order
  approximates : (host.indexGraph 0 seed).Approximates progress.tree
  resolved : (host.indexGraph 0 seed).ResolvedUpTo progress.tree progress.passes
  complete :
    0 < progress.passes →
    ∀ index ≤ (host.indexGraph 0 seed).root, progress.tree.isLinked index = true
  passes_le : progress.passes ≤ (host.indexGraph 0 seed).root + 1
  changed_le : progress.changed = true → progress.passes ≤ (host.indexGraph 0 seed).root
  describes :
    progress.changed = false →
    (host.indexGraph 0 seed).Describes progress.tree

namespace Settling

variable {host : Host} {seed : DominatorTree} {progress : Progress}

/-- A run starts with a tree in which only the root is linked. -/
theorem start
    (rooted : seed.Rooted (host.indexGraph 0 seed).root)
    (unlinked :
      ∀ index < (host.indexGraph 0 seed).root, seed.isLinked index = false) :
    Settling host seed (Progress.start seed) where
  order_eq := rfl
  approximates := IndexGraph.approximates_of_unlinked rooted unlinked
  resolved := by
    intro index nodes path few
    exact (Nat.not_lt_zero _ few).elim
  complete := fun some => (Nat.not_lt_zero 0 some).elim
  passes_le := Nat.zero_le _
  changed_le := fun _ => Nat.zero_le _
  describes := by
    intro unchanged
    simp [Progress.start] at unchanged

/-- A further pass succeeds. -/
theorem exists_pass
    (settled : host.SettlesAt 0)
    (resolvable :
      ∀ index < (host.indexGraph 0 seed).root, host.Resolvable 0 seed index)
    (settling : Settling host seed progress) :
    ∃ next,
      progress.pass host = .ok next ∧
        next.passes = progress.passes + 1 ∧
          next.tree.order = progress.tree.order ∧
            (host.indexGraph 0 seed).Sweeping progress.tree next.tree 0 ∧
              (next.changed = true ↔
                ∃ index, next.tree.link? index ≠ progress.tree.link? index) := by
  have sameAnswers := settled progress.passes (Nat.zero_le _)
  have sameGraph :
      host.indexGraph progress.passes progress.tree = host.indexGraph 0 seed :=
    Host.indexGraph_congr sameAnswers settling.order_eq
  rw [← sameGraph]
  refine pass_eq_ok (sameGraph ▸ settling.approximates) ?_
  rw [sameGraph, Host.resolvable_congr sameAnswers settling.order_eq]
  exact resolvable

/-- A pass carries the run on. -/
theorem of_sweeping
    (settling : Settling host seed progress)
    (changed : progress.changed = true)
    {next : Progress}
    (passes_eq : next.passes = progress.passes + 1)
    (order_eq : next.tree.order = progress.tree.order)
    (sweeping : (host.indexGraph 0 seed).Sweeping progress.tree next.tree 0)
    (changed_iff :
      next.changed = true ↔
        ∃ index, next.tree.link? index ≠ progress.tree.link? index) :
    Settling host seed next := by
  have passes_le := settling.changed_le changed
  refine
    { order_eq := order_eq.trans settling.order_eq
      approximates := sweeping.approximates_now
      resolved := ?_
      complete := fun _ index inside => sweeping.visited (Nat.zero_le index) inside
      passes_le := by omega
      changed_le := ?_
      describes := ?_ }
  · rw [passes_eq]
    exact sweeping.resolvedUpTo_succ settling.resolved
  · -- After as many passes as there are indices below the root the chains are exact.
    intro nextChanged
    by_contra tooMany
    have isRoot : progress.passes = (host.indexGraph 0 seed).root := by omega
    have complete :
        ∀ index ≤ (host.indexGraph 0 seed).root,
          progress.tree.isLinked index = true := by
      intro index inside
      by_cases first : progress.passes = 0
      · have atRoot : index = (host.indexGraph 0 seed).root := by omega
        exact atRoot ▸ settling.approximates.rooted.root_isLinked
      · exact settling.complete (by omega) index inside
    obtain ⟨index, different⟩ := changed_iff.mp nextChanged
    refine different ?_
    by_cases inside : index ≤ (host.indexGraph 0 seed).root
    · exact sweeping.link?_eq_of_resolvedUpTo complete
        (isRoot ▸ settling.resolved) inside
    · rw [sweeping.rooted.link?_of_lt (by omega),
        settling.approximates.rooted.link?_of_lt (by omega)]
  · intro unchanged
    refine ⟨sweeping.rooted, fun index => sweeping.visited (Nat.zero_le index), ?_⟩
    intro index inside target
    refine sweeping.mem_ascent_iff_of_unchanged ?_ inside
    intro other
    by_contra different
    rw [changed_iff.mpr ⟨other, different⟩] at unchanged
    cases unchanged

/-- A further pass succeeds and carries the run on. -/
theorem pass
    (settled : host.SettlesAt 0)
    (resolvable :
      ∀ index < (host.indexGraph 0 seed).root, host.Resolvable 0 seed index)
    (settling : Settling host seed progress)
    (changed : progress.changed = true) :
    ∃ next,
      progress.pass host = .ok next ∧
        Settling host seed next ∧
          next.passes = progress.passes + 1 := by
  obtain ⟨next, passed, passes_eq, order_eq, sweeping, changed_iff⟩ :=
    settling.exists_pass settled resolvable
  exact ⟨next, passed,
    settling.of_sweeping changed passes_eq order_eq sweeping changed_iff, passes_eq⟩

/-- A run ends before there are more passes than indices, unless a limit is lower. -/
theorem settle
    (limit : Option Nat)
    (rounds : Nat)
    (settled : host.SettlesAt 0)
    (resolvable :
      ∀ index < (host.indexGraph 0 seed).root, host.Resolvable 0 seed index)
    (highLimit :
      ∀ bound, limit = some bound → (host.indexGraph 0 seed).root < bound)
    (settling : Settling host seed progress)
    (enough : (host.indexGraph 0 seed).root + 2 ≤ rounds + progress.passes) :
    ∃ final,
      progress.settle? host limit rounds = some (.ok final) ∧
        Settling host seed final ∧
          final.changed = false := by
  induction rounds generalizing progress with
  | zero =>
      have := settling.passes_le
      omega
  | succ rounds inductionHypothesis =>
      cases changed : progress.changed with
      | false => exact ⟨progress, by simp [settle?, changed], settling, changed⟩
      | true =>
          have passes_le := settling.changed_le changed
          have withinLimit : progress.reachesLimit limit = none :=
            reachesLimit_eq_none fun bound isLimit =>
              Nat.lt_of_le_of_lt passes_le (highLimit bound isLimit)
          obtain ⟨next, passed, nextSettling, passes_eq⟩ :=
            settling.pass settled resolvable changed
          obtain ⟨final, finished, finalSettling, unchanged⟩ :=
            inductionHypothesis nextSettling (by omega)
          refine ⟨final, ?_, finalSettling, unchanged⟩
          simp only [settle?, changed, ↓reduceIte, withinLimit, passed]
          exact finished

end Settling

/-- More rounds do not change how a run ends. -/
theorem settle?_mono
    {host : Host}
    {limit : Option Nat}
    {progress : Progress}
    {rounds more : Nat}
    {result : Except Failure Progress}
    (ended : progress.settle? host limit rounds = some result)
    (enough : rounds ≤ more) :
    progress.settle? host limit more = some result := by
  induction rounds generalizing progress more with
  | zero => cases ended
  | succ rounds inductionHypothesis =>
      obtain ⟨further, rfl⟩ : ∃ further, more = further + 1 := ⟨more - 1, by omega⟩
      rw [settle?] at ended ⊢
      split
      · rename_i changed
        rw [if_pos changed] at ended
        split at ended
        · exact ended
        · split at ended
          · exact ended
          · exact inductionHypothesis ended (by omega)
      · rename_i unchanged
        rw [if_neg unchanged] at ended
        exact ended

end Dominance.Progress
