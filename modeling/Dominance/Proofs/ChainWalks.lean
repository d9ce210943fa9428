import Dominance.Proofs.Queries

namespace Dominance.DominatorTree

/-!
# Two walks up a chain

A chain of links is walked in two ways.  The search for a target stops as soon as it has
climbed to the target or past it.  The iteration over a chain delivers the address at each
index that it comes to, and goes on for as long as links climb.  Both read the tree at the
index where they stand, and fail if it lies outside the tree.

The walks are given by rules here, one for each way in which a turn can go.  So it is not
a matter of course that a walk comes to an end, nor that it does not fail.  Whatever the
links are, the search always ends with an answer, although the iteration may fail at an
index that the search does not read; and if no address is repeated, the answer says
whether the iteration delivers the address that was asked for.
-/

/-- The search for a target from an index on ends with an answer, or it fails. -/
inductive Searches (tree : DominatorTree) (target : Nat) :
    Nat → Except DanglingLink Bool → Prop where
  | arrives
      {current : Nat} :
      target ≤ current →
      Searches tree target current (.ok (current = target))
  | fails
      {current : Nat} :
      current < target →
      tree.size ≤ current →
      Searches tree target current (.error ⟨current⟩)
  | stops
      {current : Nat} :
      current < target →
      current < tree.size →
      tree.climb? current = none →
      Searches tree target current (.ok false)
  | climbs
      {current next : Nat}
      {answer : Except DanglingLink Bool} :
      current < target →
      current < tree.size →
      tree.climb? current = some next →
      Searches tree target next answer →
      Searches tree target current answer

/-- The question whether an address dominates another one is answered, or it fails. -/
inductive Answers (tree : DominatorTree) (first second : Address) :
    Except DanglingLink Bool → Prop where
  | unknown :
      tree.postorder? first = none ∨ tree.postorder? second = none →
      Answers tree first second (.ok false)
  | known
      {target current : Nat}
      {answer : Except DanglingLink Bool} :
      tree.postorder? first = some target →
      tree.postorder? second = some current →
      tree.Searches target current answer →
      Answers tree first second answer

/-- The addresses that an iteration delivers, and how it fails if it does not end. -/
structure Iteration where
  delivered : List Address
  failure? : Option DanglingLink
  deriving DecidableEq

namespace Iteration

/-- An iteration that delivers one address more, before all others. -/
def prepend (address : Address) (iteration : Iteration) : Iteration where
  delivered := address :: iteration.delivered
  failure? := iteration.failure?

/-- The whole list of the addresses delivered, unless the iteration fails. -/
def result (iteration : Iteration) : Except DanglingLink (List Address) :=
  match iteration.failure? with
  | none => .ok iteration.delivered
  | some failure => .error failure

theorem result_prepend (address : Address) (iteration : Iteration) :
    (iteration.prepend address).result = iteration.result.map (address :: ·) := by
  simp only [result, prepend]
  cases iteration.failure? <;> rfl

end Iteration

/-- The iteration from an index on, or from the end of a chain. -/
inductive Iterates (tree : DominatorTree) : Option Nat → Iteration → Prop where
  | ends : Iterates tree none ⟨[], none⟩
  | fails
      {current : Nat} :
      tree.size ≤ current →
      Iterates tree (some current) ⟨[], some ⟨current⟩⟩
  | delivers
      {current : Nat}
      {address : Address}
      {rest : Iteration} :
      tree.address? current = some address →
      Iterates tree (tree.climb? current) rest →
      Iterates tree (some current) (rest.prepend address)

variable {tree : DominatorTree}

/-! ## The search -/

theorem reaches_of_le
    {target current : Nat}
    (above : target ≤ current) :
    tree.reaches target current = decide (current = target) := by
  rw [reaches, if_neg (Nat.not_lt.mpr above)]

theorem reaches_of_ends
    {target current : Nat}
    (below : current < target)
    (ends : tree.climb? current = none) :
    tree.reaches target current = false := by
  rw [reaches, if_pos below]
  split <;> simp_all

theorem reaches_of_climbs
    {target current next : Nat}
    (below : current < target)
    (climbs : tree.climb? current = some next) :
    tree.reaches target current = tree.reaches target next := by
  rw [reaches.eq_def tree target current, if_pos below]
  split <;> simp_all

/-- The search for a target inside the tree stays below it, where there are links to read. -/
theorem searches_iff
    {target current : Nat}
    {answer : Except DanglingLink Bool}
    (targetInside : target < tree.size) :
    tree.Searches target current answer ↔ answer = .ok (tree.reaches target current) := by
  constructor
  · intro searches
    induction searches with
    | arrives above => rw [reaches_of_le above]
    | fails below outside => omega
    | stops below _ ends => rw [reaches_of_ends below ends]
    | climbs below _ climbs _ inductionHypothesis =>
        rw [reaches_of_climbs below climbs]
        exact inductionHypothesis
  · rintro rfl
    fun_induction tree.reaches target current with
    | case1 current below ends => exact .stops below (by omega) ends
    | case2 current below dominator climbs inductionHypothesis =>
        exact .climbs below (by omega) climbs inductionHypothesis
    | case3 current notBelow => exact .arrives (Nat.not_lt.mp notBelow)

/-- The question has one answer, and it never fails. -/
theorem answers_iff
    {first second : Address}
    {answer : Except DanglingLink Bool} :
    tree.Answers first second answer ↔ answer = .ok (tree.dominates first second) := by
  constructor
  · rintro (notFound | ⟨targetFound, found, searches⟩)
    · rw [dominates]
      split
      · simp_all
      · rfl
    · have targetInside := (address?_of_postorder? targetFound).1
      rw [(searches_iff targetInside).mp searches, dominates, targetFound, found]
  · rintro rfl
    rw [dominates]
    split
    · rename_i target current targetFound found
      have targetInside := (address?_of_postorder? targetFound).1
      exact .known targetFound found ((searches_iff targetInside).mpr rfl)
    · rename_i notBoth
      refine .unknown ?_
      by_contra bothFound
      obtain ⟨firstFound, secondFound⟩ := not_or.mp bothFound
      obtain ⟨target, targetFound⟩ := Option.ne_none_iff_exists'.mp firstFound
      obtain ⟨current, found⟩ := Option.ne_none_iff_exists'.mp secondFound
      exact notBoth target current targetFound found

/-! ## The iteration -/

theorem address?_of_size_le
    {index : Nat}
    (outside : tree.size ≤ index) :
    tree.address? index = none :=
  Array.getElem?_eq_none outside

/-- No link starts outside the tree. -/
theorem climb?_of_size_le
    {index : Nat}
    (outside : tree.size ≤ index) :
    tree.climb? index = none :=
  Option.eq_none_iff_forall_ne_some.mpr fun _ climbs =>
    Nat.not_lt.mpr outside (lt_of_climb?_eq_some climbs).1

/-- The iteration comes to an end, since it fails or climbs. -/
theorem exists_iterates (tree : DominatorTree) (start : Option Nat) :
    ∃ iteration, tree.Iterates start iteration := by
  cases start with
  | none => exact ⟨_, .ends⟩
  | some index =>
      fun_induction tree.ascent index with
      | case1 index ends =>
          rcases Nat.lt_or_ge index tree.size with inside | outside
          · have goesOn : tree.Iterates (tree.climb? index) ⟨[], none⟩ := ends ▸ .ends
            exact ⟨_, .delivers (blockAt_of_lt inside) goesOn⟩
          · exact ⟨_, .fails outside⟩
      | case2 index dominator climbs inductionHypothesis =>
          obtain ⟨rest, iterates⟩ := inductionHypothesis
          rw [← climbs] at iterates
          exact ⟨_, .delivers (blockAt_of_lt (lt_of_climb?_eq_some climbs).1) iterates⟩

/-- An iteration goes one way only. -/
theorem Iterates.unique
    {start : Option Nat}
    {first second : Iteration}
    (iterates : tree.Iterates start first)
    (again : tree.Iterates start second) :
    first = second := by
  induction iterates generalizing second with
  | ends =>
      cases again
      rfl
  | fails outside =>
      cases again with
      | fails _ => rfl
      | delivers stands _ => simp [address?_of_size_le outside] at stands
  | delivers stands _ inductionHypothesis =>
      cases again with
      | fails outside => simp [address?_of_size_le outside] at stands
      | delivers standsToo goesOn =>
          rw [stands, Option.some.injEq] at standsToo
          rw [standsToo, inductionHypothesis goesOn]

/-- The indices that a walk comes to from a start on. -/
def indicesFrom (tree : DominatorTree) (start : Option Nat) : List Nat :=
  start.elim [] tree.ascent

theorem indicesFrom_some (index : Nat) :
    tree.indicesFrom (some index) = index :: tree.indicesFrom (tree.climb? index) := by
  cases climbs : tree.climb? index with
  | none => exact ascent_of_ends climbs
  | some dominator => exact ascent_of_climbs climbs

/-- The list of addresses along a chain is what the iteration comes to. -/
theorem Iterates.mapM_addressAt
    {start : Option Nat}
    {iteration : Iteration}
    (iterates : tree.Iterates start iteration) :
    (tree.indicesFrom start).mapM tree.addressAt = iteration.result := by
  induction iterates with
  | ends => rfl
  | @fails current outside =>
      have noAddress : tree.addressAt current = .error ⟨current⟩ := by
        rw [addressAt, address?_of_size_le outside]
      rw [indicesFrom_some, List.mapM_cons, noAddress]
      rfl
  | @delivers current address rest stands _ inductionHypothesis =>
      have isAddress : tree.addressAt current = .ok address := by
        rw [addressAt, stands]
      rw [indicesFrom_some, List.mapM_cons, isAddress, inductionHypothesis,
        Iteration.result_prepend]
      cases rest.result <;> rfl

/-- The iteration delivers the addresses of all indices that have one. -/
theorem Iterates.mem_delivered_iff
    {start : Option Nat}
    {iteration : Iteration}
    {address : Address}
    (iterates : tree.Iterates start iteration) :
    address ∈ iteration.delivered ↔
      ∃ index ∈ tree.indicesFrom start, tree.address? index = some address := by
  induction iterates with
  | ends => simp [indicesFrom]
  | @fails current outside =>
      -- No index comes after the one where the iteration fails.
      rw [indicesFrom_some, climb?_of_size_le outside]
      simp [indicesFrom, address?_of_size_le outside]
  | delivers stands _ inductionHypothesis =>
      rw [indicesFrom_some, Iteration.prepend, List.mem_cons, inductionHypothesis]
      simp [stands, eq_comm]

/-- The iteration from an address goes along the indices of its dominators. -/
theorem indicesFrom_postorder? (address : Address) :
    tree.indicesFrom (tree.postorder? address) = tree.dominatorIndices address := by
  rw [dominatorIndices]
  cases tree.postorder? address <;> rfl

/-- Without repetitions the iteration delivers what the search finds. -/
theorem Distinct.dominates_iff_mem_delivered
    (distinct : tree.Distinct)
    {first second : Address}
    {iteration : Iteration}
    (iterates : tree.Iterates (tree.postorder? second) iteration) :
    tree.dominates first second = true ↔ first ∈ iteration.delivered := by
  rw [iterates.mem_delivered_iff, dominates_eq_true_iff]
  cases tree.postorder? second with
  | none => simp [indicesFrom]
  | some index => simp [indicesFrom, distinct.postorder?_eq_some_iff, and_comm]

/--
On every tree without repetitions, however broken, the search and the iteration agree.

Each question whether an address dominates another one is answered and never fails.  The
iteration over the dominators of an address ends or fails in one way, and the list of the
dominators is what it delivers, unless it fails.  An address dominates another one exactly
if the iteration delivers it.  So two addresses dominate each other only if they are one,
and dominance goes on from address to address.
-/
theorem dominates_iff_delivered
    (tree : DominatorTree)
    (noRepetition : tree.order.toList.Nodup) :
    (∀ first second,
      (∀ answer,
        tree.Answers first second answer ↔ answer = .ok (tree.dominates first second)) ∧
      ∃ iteration,
        (∀ other, tree.Iterates (tree.postorder? second) other ↔ other = iteration) ∧
          tree.dominators second = iteration.result ∧
            (tree.dominates first second = true ↔ first ∈ iteration.delivered)) ∧
    (∀ first second,
      tree.dominates first second = true → tree.dominates second first = true → first = second) ∧
    ∀ first second third,
      tree.dominates first second = true →
        tree.dominates second third = true → tree.dominates first third = true := by
  have distinct := distinct_of_nodup noRepetition
  refine ⟨?_, fun _ _ => dominates_antisymm, fun _ _ _ => dominates_trans⟩
  intro first second
  refine ⟨fun _ => answers_iff, ?_⟩
  obtain ⟨iteration, iterates⟩ := tree.exists_iterates (tree.postorder? second)
  refine ⟨iteration, ?_, ?_, distinct.dominates_iff_mem_delivered iterates⟩
  · intro other
    constructor
    · exact fun again => again.unique iterates
    · rintro rfl
      exact iterates
  · rw [dominators, ← indicesFrom_postorder?, iterates.mapM_addressAt]

/-- Links that descend, lead out of the tree or are missing, and a root that links elsewhere. -/
def strayLinks : DominatorTree :=
  ((((ofOrder #[⟨10⟩, ⟨11⟩, ⟨12⟩, ⟨13⟩, ⟨14⟩]).setLink 0 2).setLink 1 0).setLink 2 7).setLink 4 1

/--
Above the lowest index the iteration delivers two addresses before it fails, and both
dominate; the root does not, as the search finds out without failing.
-/
theorem strayLinks_dominates_iff_delivered :
    strayLinks.order.toList.Nodup ∧
      strayLinks.dominators ⟨10⟩ = .error ⟨7⟩ ∧
        (strayLinks.dominates ⟨12⟩ ⟨10⟩ = true ↔ (⟨12⟩ : Address) ∈ [⟨10⟩, ⟨12⟩]) ∧
          (strayLinks.dominates ⟨14⟩ ⟨10⟩ = true ↔ (⟨14⟩ : Address) ∈ [⟨10⟩, ⟨12⟩]) ∧
            strayLinks.Answers ⟨14⟩ ⟨10⟩ (.ok (strayLinks.dominates ⟨14⟩ ⟨10⟩)) := by
  have noRepetition : strayLinks.order.toList.Nodup := by decide
  have iterates :
      strayLinks.Iterates (strayLinks.postorder? ⟨10⟩) ⟨[⟨10⟩, ⟨12⟩], some ⟨7⟩⟩ := by
    have fails : strayLinks.Iterates (some 7) ⟨[], some ⟨7⟩⟩ := .fails (by decide)
    have delivers := Iterates.delivers (rfl : strayLinks.address? 2 = some ⟨12⟩) fails
    exact Iterates.delivers (rfl : strayLinks.address? 0 = some ⟨10⟩) delivers
  obtain ⟨agree, _⟩ := dominates_iff_delivered strayLinks noRepetition
  obtain ⟨_, iteration, isIteration, dominators_eq, middle_iff⟩ := agree ⟨12⟩ ⟨10⟩
  obtain ⟨answered, other, isOther, _, root_iff⟩ := agree ⟨14⟩ ⟨10⟩
  obtain rfl := (isIteration _).mp iterates
  obtain rfl := (isOther _).mp iterates
  exact ⟨noRepetition, dominators_eq, middle_iff, root_iff, (answered _).mpr rfl⟩

end Dominance.DominatorTree
