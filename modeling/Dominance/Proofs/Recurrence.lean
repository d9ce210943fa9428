import Mathlib.Data.Fintype.BigOperators
import Mathlib.Data.Fintype.Option
import Mathlib.Data.Fintype.Pigeonhole
import Dominance.Proofs.Configuration
import Dominance.Proofs.Relinking

namespace Dominance

/-!
# Runs of passes that repeat themselves

Once a host repeats its answers, what a pass does depends on the tree alone.  There are
only so many ways to link the indices of a tree, so a run that lasts long enough comes to
a tree for the second time, and from then on it goes round in a circle.  A build without
a limit therefore ends within a number of rounds that is known beforehand, or it never
ends.  In the latter case every limit is used up.
-/

namespace DominatorTree

/-- The links of a tree as a table. -/
def linkTable (tree : DominatorTree) (size : Nat) : Fin size → Option (Fin size) :=
  fun index =>
    (tree.link? index).bind fun dominator =>
      if inside : dominator < size then some ⟨dominator, inside⟩ else none

theorem linkTable_eq_some_iff
    (tree : DominatorTree)
    {size : Nat}
    (index dominator : Fin size) :
    tree.linkTable size index = some dominator ↔ tree.link? index = some dominator.val := by
  rw [linkTable, Option.bind_eq_some_iff]
  constructor
  · rintro ⟨link, recorded, isDominator⟩
    split at isDominator
    · cases isDominator
      exact recorded
    · cases isDominator
  · intro recorded
    exact ⟨dominator, recorded, dif_pos dominator.isLt⟩

/-- A tree is its order, its passes and its links. -/
theorem eq_of_link?
    {first second : DominatorTree}
    (sameOrder : first.order = second.order)
    (samePasses : first.passes = second.passes)
    (sameLinks : ∀ index < first.size, first.link? index = second.link? index) :
    first = second := by
  have size_eq : first.links.size = second.links.size := by
    rw [first.links_size, second.links_size, sameOrder]
  have links_eq : first.links = second.links := by
    refine Array.ext size_eq ?_
    intro index firstInside secondInside
    have inside : index < first.size := by
      rw [size, ← first.links_size]
      exact firstInside
    have same := sameLinks index inside
    simpa [link?, Array.getD_eq_getD_getElem?, firstInside, secondInside] using same
  cases first
  cases second
  simp only [mk.injEq]
  exact ⟨sameOrder, links_eq, samePasses⟩

/-- Rooted trees over the same addresses are equal if their tables are. -/
theorem Rooted.eq_of_linkTable
    {first second : DominatorTree}
    {root : Nat}
    (firstRooted : first.Rooted root)
    (secondRooted : second.Rooted root)
    (sameOrder : first.order = second.order)
    (samePasses : first.passes = second.passes)
    (sameTable : first.linkTable (root + 1) = second.linkTable (root + 1)) :
    first = second := by
  refine eq_of_link? sameOrder samePasses ?_
  intro index inside
  rw [firstRooted.size_eq] at inside
  apply Option.ext
  intro dominator
  constructor
  · intro recorded
    have below := Nat.lt_succ_of_le (firstRooted.le_of_link? recorded)
    have inTable := (first.linkTable_eq_some_iff ⟨index, inside⟩ ⟨dominator, below⟩).mpr recorded
    rw [sameTable] at inTable
    exact (second.linkTable_eq_some_iff _ _).mp inTable
  · intro recorded
    have below := Nat.lt_succ_of_le (secondRooted.le_of_link? recorded)
    have inTable := (second.linkTable_eq_some_iff ⟨index, inside⟩ ⟨dominator, below⟩).mpr recorded
    rw [← sameTable] at inTable
    exact (first.linkTable_eq_some_iff _ _).mp inTable

end DominatorTree

namespace Progress

variable {host : Host} {progress : Progress} {time : Nat}

/-! ## Runs without a limit -/

/-- The progress after a number of passes, if all of them are called for and succeed. -/
def afterPasses? (host : Host) : Nat → Progress → Option Progress
  | 0, progress => some progress
  | passes + 1, progress =>
      if progress.changed then
        match progress.pass host with
        | .error _ => none
        | .ok next => afterPasses? host passes next
      else
        none

theorem afterPasses?_succ_eq_some_iff
    {passes : Nat}
    {later : Progress} :
    progress.afterPasses? host (passes + 1) = some later ↔
      progress.changed = true ∧
        ∃ next,
          progress.pass host = .ok next ∧ next.afterPasses? host passes = some later := by
  rw [afterPasses?]
  split
  · rename_i changed
    split
    · rename_i failed
      simp [failed]
    · rename_i passed
      simp [passed, changed]
  · rename_i unchanged
    simp [unchanged]

/-- Passes can be counted in two parts. -/
theorem afterPasses?_add
    (first second : Nat) :
    progress.afterPasses? host (first + second) =
      (progress.afterPasses? host first).bind (afterPasses? host second) := by
  induction first generalizing progress with
  | zero => rw [Nat.zero_add, afterPasses?, Option.bind_some]
  | succ first inductionHypothesis =>
      rw [Nat.succ_add, afterPasses?, afterPasses?]
      split
      · split
        · rfl
        · exact inductionHypothesis
      · rfl

/-- A run that lasts is undecided after any lower number of passes. -/
theorem exists_afterPasses?_of_le
    {fewer more : Nat}
    (lasts : ∃ later, progress.afterPasses? host more = some later)
    (lower : fewer ≤ more) :
    ∃ later, progress.afterPasses? host fewer = some later := by
  obtain ⟨last, made⟩ := lasts
  rw [← Nat.add_sub_cancel' lower, afterPasses?_add, Option.bind_eq_some_iff] at made
  obtain ⟨later, madeEarlier, _⟩ := made
  exact ⟨later, madeEarlier⟩

/-- A run without a limit is undecided as long as each pass calls for another one. -/
theorem settle?_eq_none_iff
    {rounds : Nat} :
    progress.settle? host none rounds = none ↔
      ∃ later, progress.afterPasses? host rounds = some later := by
  induction rounds generalizing progress with
  | zero => simp [settle?, afterPasses?]
  | succ rounds inductionHypothesis =>
      simp only [afterPasses?_succ_eq_some_iff, settle?, reachesLimit]
      split
      · rename_i changed
        split
        · rename_i failed
          simp [failed]
        · rename_i passed
          simp [passed, changed, inductionHypothesis]
      · rename_i unchanged
        simp [unchanged]

/-- A run in which every pass calls for another one. -/
def Endless (host : Host) (progress : Progress) : Prop :=
  ∀ passes, ∃ later, progress.afterPasses? host passes = some later

/-- Passes without end begin with a pass. -/
theorem Endless.exists_pass
    (endless : Endless host progress) :
    progress.changed = true ∧
      ∃ next, progress.pass host = .ok next ∧ Endless host next := by
  obtain ⟨_, made⟩ := endless 1
  obtain ⟨changed, next, passed, _⟩ := afterPasses?_succ_eq_some_iff.mp made
  refine ⟨changed, next, passed, ?_⟩
  intro passes
  obtain ⟨later, madeMore⟩ := endless (passes + 1)
  obtain ⟨_, other, passedToo, madeThere⟩ := afterPasses?_succ_eq_some_iff.mp madeMore
  rw [passed] at passedToo
  cases passedToo
  exact ⟨later, madeThere⟩

/-- An endless run uses up every limit. -/
theorem Endless.settle?_eq_passLimit
    {limit : Nat}
    (endless : Endless host progress)
    (notYet : progress.passes ≤ limit) :
    ∃ rounds last,
      progress.settle? host (some limit) rounds = some (.error ⟨.passLimit limit, last⟩) := by
  induction missing : limit - progress.passes generalizing progress with
  | zero =>
      have reached : progress.reachesLimit (some limit) = some limit :=
        reachesLimit_eq_some_iff.mpr ⟨rfl, Nat.le_of_sub_eq_zero missing⟩
      have changed := endless.exists_pass.1
      exact ⟨1, progress, by simp only [settle?, changed, if_true, reached]⟩
  | succ fewer inductionHypothesis =>
      obtain ⟨changed, next, passed, nextEndless⟩ := endless.exists_pass
      have passes_eq := passes_of_pass passed
      have within : progress.reachesLimit (some limit) = none := by
        refine reachesLimit_eq_none ?_
        rintro bound ⟨rfl⟩
        exact Nat.lt_of_sub_eq_succ missing
      obtain ⟨rounds, last, ended⟩ := inductionHypothesis nextEndless (by omega) (by omega)
      refine ⟨rounds + 1, last, ?_⟩
      simp only [settle?, changed, if_true, within, passed]
      exact ended

/-! ## Passes on a settled host -/

/-- Progress that differs in what a pass on a settled host does not look at. -/
structure Alike (time : Nat) (first second : Progress) : Prop where
  tree_eq : first.tree = second.tree
  changed_eq : first.changed = second.changed
  first_late : time ≤ first.passes
  second_late : time ≤ second.passes

namespace Alike

variable {first second next : Progress}

/-- A visit to trees that are alike leaves them alike. -/
theorem visit
    (settled : host.SettlesAt time)
    (alike : Alike time first second)
    {index : Nat}
    (visited : first.visit host index = .ok next) :
    ∃ other, second.visit host index = .ok other ∧ Alike time next other := by
  have sameAnswers : host.predecessors second.passes = host.predecessors first.passes := by
    rw [settled _ alike.second_late, settled _ alike.first_late]
  simp only [Progress.visit] at visited ⊢
  rw [← alike.tree_eq, sameAnswers]
  split at visited
  · cases visited
  · rename_i dominator found
    cases visited
    refine ⟨second.ask.link index dominator, rfl, ?_, ?_, ?_, ?_⟩
    · rw [tree_link, tree_link, tree_ask, tree_ask, alike.tree_eq]
    · rw [Bool.eq_iff_iff, changed_link_iff, changed_link_iff, changed_ask, changed_ask,
        tree_ask, tree_ask, alike.changed_eq, alike.tree_eq]
    · rw [passes_link]
      exact alike.first_late
    · rw [passes_link]
      exact alike.second_late

theorem sweep
    (settled : host.SettlesAt time)
    (alike : Alike time first second)
    {waiting : Nat}
    (swept : first.sweep host waiting = .ok next) :
    ∃ other, second.sweep host waiting = .ok other ∧ Alike time next other := by
  induction waiting generalizing first second with
  | zero =>
      cases swept
      exact ⟨second, rfl, alike⟩
  | succ index inductionHypothesis =>
      rw [Progress.sweep] at swept
      split at swept
      · cases swept
      · rename_i visited
        obtain ⟨other, visitedToo, otherAlike⟩ := alike.visit settled visited
        simp only [Progress.sweep, visitedToo]
        exact inductionHypothesis otherAlike swept

/-- A pass over trees that are alike leaves them alike. -/
theorem pass
    (settled : host.SettlesAt time)
    (alike : Alike time first second)
    (passed : first.pass host = .ok next) :
    ∃ other, second.pass host = .ok other ∧ Alike time next other := by
  rw [Progress.pass] at passed
  split at passed
  · cases passed
  · rename_i swept
    cases passed
    have starting : Alike time { first with changed := false } { second with changed := false } :=
      ⟨alike.tree_eq, rfl, alike.first_late, alike.second_late⟩
    obtain ⟨other, sweptToo, otherAlike⟩ := starting.sweep settled swept
    rw [alike.tree_eq] at sweptToo
    refine ⟨{ other with passes := other.passes + 1 }, ?_, ?_⟩
    · simp only [Progress.pass, sweptToo]
    · exact ⟨otherAlike.tree_eq, otherAlike.changed_eq,
        Nat.le_succ_of_le otherAlike.first_late, Nat.le_succ_of_le otherAlike.second_late⟩

/-- What lasts from one progress lasts from another that is alike. -/
theorem exists_afterPasses?
    (settled : host.SettlesAt time)
    (alike : Alike time first second)
    {passes : Nat}
    (lasts : ∃ later, first.afterPasses? host passes = some later) :
    ∃ later, second.afterPasses? host passes = some later := by
  induction passes generalizing first second with
  | zero => exact ⟨second, rfl⟩
  | succ passes inductionHypothesis =>
      obtain ⟨later, made⟩ := lasts
      obtain ⟨changed, next, passed, madeThere⟩ := afterPasses?_succ_eq_some_iff.mp made
      obtain ⟨other, passedToo, otherAlike⟩ := alike.pass settled passed
      obtain ⟨last, madeToo⟩ := inductionHypothesis otherAlike ⟨later, madeThere⟩
      refine ⟨last, afterPasses?_succ_eq_some_iff.mpr ⟨?_, other, passedToo, madeToo⟩⟩
      rw [← alike.changed_eq]
      exact changed

/-- A run that comes back to where it was goes round for ever. -/
theorem endless
    (settled : host.SettlesAt time)
    (alike : Alike time first second)
    {period : Nat}
    (positive : 0 < period)
    (comesBack : first.afterPasses? host period = some second) :
    Endless host first := by
  have rounds : ∀ count, ∃ later, first.afterPasses? host (period * count) = some later := by
    intro count
    induction count with
    | zero => exact ⟨first, rfl⟩
    | succ count inductionHypothesis =>
        rw [Nat.mul_succ, Nat.add_comm, afterPasses?_add, comesBack, Option.bind_some]
        exact alike.exists_afterPasses? settled inductionHypothesis
  intro passes
  exact exists_afterPasses?_of_le (rounds passes) (Nat.le_mul_of_pos_left passes positive)

end Alike

/-- What leads to an endless run is endless. -/
theorem endless_of_afterPasses?
    {later : Progress}
    {passes : Nat}
    (made : progress.afterPasses? host passes = some later)
    (endless : Endless host later) :
    Endless host progress := by
  intro more
  have lasts : ∃ last, progress.afterPasses? host (passes + more) = some last := by
    rw [afterPasses?_add, made, Option.bind_some]
    exact endless more
  exact exists_afterPasses?_of_le lasts (Nat.le_add_left more passes)

/-! ## Repetition -/

/-- What stays the same during a run on any host. -/
structure Continues (first later : Progress) (passes : Nat) : Prop where
  passes_eq : later.passes = first.passes + passes
  order_eq : later.tree.order = first.tree.order
  tree_passes_eq : later.tree.passes = first.tree.passes
  rooted : later.tree.Rooted (first.tree.size - 1)

/-- Passes keep the order and the root, and they are counted. -/
theorem continues_of_afterPasses?
    {first later : Progress}
    {passes : Nat}
    (rooted : first.tree.Rooted (first.tree.size - 1))
    (made : first.afterPasses? host passes = some later) :
    Continues first later passes := by
  induction passes generalizing first with
  | zero =>
      cases made
      exact ⟨rfl, rfl, rfl, rooted⟩
  | succ passes inductionHypothesis =>
      obtain ⟨_, next, passed, madeThere⟩ := afterPasses?_succ_eq_some_iff.mp made
      have step := passes_of_rooted rooted passed
      have sameSize : next.tree.size = first.tree.size := by
        rw [DominatorTree.size, step.order_eq, DominatorTree.size]
      have goesOn := inductionHypothesis (sameSize ▸ step.relinking.rooted) madeThere
      refine ⟨?_, goesOn.order_eq.trans step.order_eq,
        goesOn.tree_passes_eq.trans step.tree_passes_eq, sameSize ▸ goesOn.rooted⟩
      rw [goesOn.passes_eq, step.passes_eq, Nat.add_assoc, Nat.add_comm 1]

/-- A run that lasts calls for another pass after any lower number of passes. -/
theorem changed_of_lasts
    {first reached : Progress}
    {fewer more : Nat}
    (made : first.afterPasses? host fewer = some reached)
    (lasts : ∃ later, first.afterPasses? host more = some later)
    (lower : fewer < more) :
    reached.changed = true := by
  obtain ⟨_, madeMore⟩ := exists_afterPasses?_of_le lasts (Nat.succ_le_of_lt lower)
  rw [Nat.succ_eq_add_one, afterPasses?_add, made, Option.bind_some] at madeMore
  exact (afterPasses?_succ_eq_some_iff.mp madeMore).1

/-- A run comes to a tree after a number of passes and calls for another one. -/
def ComesTo (host : Host) (first : Progress) (passes : Nat) (tree : DominatorTree) : Prop :=
  ∃ reached ∈ first.afterPasses? host passes, reached.tree = tree ∧ reached.changed = true

instance
    (host : Host)
    (first : Progress)
    (passes : Nat)
    (tree : DominatorTree) :
    Decidable (ComesTo host first passes tree) :=
  inferInstanceAs (Decidable (∃ reached ∈ first.afterPasses? host passes,
    reached.tree = tree ∧ reached.changed = true))

/-- A run on a settled host that comes to a tree for the second time never ends. -/
theorem endless_of_comesTo
    {first : Progress}
    {tree : DominatorTree}
    {early late : Nat}
    (settled : host.SettlesAt time)
    (rooted : first.tree.Rooted (first.tree.size - 1))
    (isSettled : time ≤ early)
    (isLater : early < late)
    (comes : ComesTo host first early tree)
    (comesAgain : ComesTo host first late tree) :
    Endless host first := by
  obtain ⟨reached, made, isTree, changed⟩ := comes
  obtain ⟨again, madeMore, isTreeAgain, changedAgain⟩ := comesAgain
  rw [Option.mem_def] at made madeMore
  have alike : Alike time reached again :=
    { tree_eq := isTree.trans isTreeAgain.symm
      changed_eq := changed.trans changedAgain.symm
      first_late := by
        rw [(continues_of_afterPasses? rooted made).passes_eq]
        exact Nat.le_trans isSettled (Nat.le_add_left early _)
      second_late := by
        rw [(continues_of_afterPasses? rooted madeMore).passes_eq]
        exact Nat.le_trans (Nat.le_of_lt (Nat.lt_of_le_of_lt isSettled isLater))
          (Nat.le_add_left late _) }
  obtain ⟨period, rfl⟩ := Nat.exists_eq_add_of_lt isLater
  rw [Nat.add_assoc, afterPasses?_add, made, Option.bind_some] at madeMore
  exact endless_of_afterPasses? made (alike.endless settled (Nat.succ_pos period) madeMore)

/-- A run that outlasts all tables of links comes to a tree for the second time. -/
theorem exists_comesTo_twice
    {seed : DominatorTree}
    (rooted : seed.Rooted (seed.size - 1))
    (lasts :
      ∃ later,
        (start seed).afterPasses? host (time + (seed.size + 1) ^ seed.size + 1) = some later) :
    ∃ early late tree,
      time ≤ early ∧
        early < late ∧
          ComesTo host (start seed) early tree ∧ ComesTo host (start seed) late tree := by
  have inTime (extra : Fin ((seed.size + 1) ^ seed.size + 1)) :
      time + extra < time + (seed.size + 1) ^ seed.size + 1 :=
    Nat.add_lt_add_left extra.isLt time
  have reachesEach (extra : Fin ((seed.size + 1) ^ seed.size + 1)) :
      ∃ reached, (start seed).afterPasses? host (time + extra) = some reached :=
    exists_afterPasses?_of_le lasts (Nat.le_of_lt (inTime extra))
  choose reached made using reachesEach
  have fewTables :
      Fintype.card (Fin seed.size → Option (Fin seed.size)) <
        Fintype.card (Fin ((seed.size + 1) ^ seed.size + 1)) := by
    rw [Fintype.card_fun, Fintype.card_option, Fintype.card_fin, Fintype.card_fin]
    exact Nat.lt_succ_self _
  obtain ⟨one, two, different, sameTable⟩ :=
    Fintype.exists_ne_map_eq_of_card_lt
      (fun extra => (reached extra).tree.linkTable seed.size) fewTables
  have oneContinues := continues_of_afterPasses? rooted (made one)
  have twoContinues := continues_of_afterPasses? rooted (made two)
  have sameTree : (reached one).tree = (reached two).tree := by
    refine oneContinues.rooted.eq_of_linkTable twoContinues.rooted
      (oneContinues.order_eq.trans twoContinues.order_eq.symm)
      (oneContinues.tree_passes_eq.trans twoContinues.tree_passes_eq.symm) ?_
    have size_eq : (start seed).tree.size - 1 + 1 = seed.size := rooted.size_eq.symm
    rw [size_eq]
    exact sameTable
  have comesToOne : ComesTo host (start seed) (time + one) (reached one).tree :=
    ⟨reached one, made one, rfl, changed_of_lasts (made one) lasts (inTime one)⟩
  have comesToTwo : ComesTo host (start seed) (time + two) (reached one).tree :=
    ⟨reached two, made two, sameTree.symm, changed_of_lasts (made two) lasts (inTime two)⟩
  rcases Nat.lt_or_gt_of_ne (fun same => different (Fin.ext same)) with before | after
  · exact ⟨_, _, _, Nat.le_add_right time one, Nat.add_lt_add_left before time,
      comesToOne, comesToTwo⟩
  · exact ⟨_, _, _, Nat.le_add_right time two, Nat.add_lt_add_left after time,
      comesToTwo, comesToOne⟩

/-- A run on a settled host is endless if it lasts long enough. -/
theorem endless_of_lasts
    {seed : DominatorTree}
    (settled : host.SettlesAt time)
    (rooted : seed.Rooted (seed.size - 1))
    (lasts :
      ∃ later,
        (start seed).afterPasses? host (time + (seed.size + 1) ^ seed.size + 1) = some later) :
    Endless host (start seed) := by
  obtain ⟨early, late, tree, isSettled, isLater, comes, comesAgain⟩ :=
    exists_comesTo_twice rooted lasts
  exact endless_of_comesTo settled rooted isSettled isLater comes comesAgain

end Progress

namespace Host

variable {host : Host} {config : BuildConfig} {seed : DominatorTree} {time : Nat}

theorem length_nodes_of_index (accepted : host.index = .ok seed) :
    host.nodes.length = seed.size := by
  obtain ⟨addresses, numbered, rfl⟩ := index_eq_ok_iff.mp accepted
  rw [numbered.nodes_perm.length_eq, List.length_map, placementsOf, List.length_map,
    List.length_zipIdx, DominatorTree.size, DominatorTree.ofOrder, List.size_toArray]

/-- A build whose run is endless never has an outcome, and uses up every limit. -/
theorem never_yields_of_endless
    (accepted : host.index = .ok seed)
    (endless : Progress.Endless host (Progress.start seed))
    (unlimited : config.maxPasses = none) :
    (∀ outcome, ¬ host.Yields config outcome) ∧
      ∀ limit,
        ∃ outcome,
          host.Yields (config.withMaxPasses limit) outcome ∧
            outcome.result = .error (.passLimit limit) := by
  constructor
  · rintro outcome ⟨rounds, ended⟩
    have undecided := Progress.settle?_eq_none_iff.mpr (endless rounds)
    simp only [build?, accepted, unlimited, undecided] at ended
    cases ended
  · intro limit
    obtain ⟨rounds, last, ended⟩ := endless.settle?_eq_passLimit (Nat.zero_le limit)
    refine ⟨Failure.outcome ⟨.passLimit limit, last⟩, ⟨rounds, ?_⟩, rfl⟩
    simp only [build?, accepted, BuildConfig.withMaxPasses, ended]

/--
A build without a limit on a host that repeats its answers from some time on ends within
a number of rounds that depends on this time and the number of blocks, or it never ends.
-/
theorem build?_or_never_yields
    (settled : host.SettlesAt time)
    (unlimited : config.maxPasses = none) :
    (∃ outcome, host.build? config (host.sufficientRounds time none) = some outcome) ∨
      (∀ outcome, ¬ host.Yields config outcome) ∧
        ∀ limit,
          ∃ outcome,
            host.Yields (config.withMaxPasses limit) outcome ∧
              outcome.result = .error (.passLimit limit) := by
  cases ended : host.build? config (host.sufficientRounds time none) with
  | some outcome => exact .inl ⟨outcome, rfl⟩
  | none =>
      right
      rw [build?] at ended
      split at ended
      · cases ended
      · rename_i seed accepted
        split at ended
        · rename_i run
          rw [unlimited] at run
          have lasts := Progress.settle?_eq_none_iff.mp run
          rw [sufficientRounds, length_nodes_of_index accepted] at lasts
          have endless : Progress.Endless host (Progress.start seed) :=
            Progress.endless_of_lasts settled (seededBy_of_index accepted).rooted_seed
              (Progress.exists_afterPasses?_of_le lasts (Nat.le_succ _))
          exact never_yields_of_endless accepted endless unlimited
        · cases ended
        · cases ended

end Host

end Dominance
