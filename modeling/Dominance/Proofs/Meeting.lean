import Mathlib.Order.Bounds.Basic
import Dominance.Proofs.Verification

namespace Dominance.DominatorTree

/-!
# Where two climbs meet

The nearest common index is found with two fingers.  A loop goes on until the fingers agree.
Each round of it holds two more loops: one raises the first finger for as long as it is the
lower one, and then the other raises the second finger for as long as that is the lower one.
Either finger may be raised past the other, and the search breaks off at a link that does not
climb.

The loops are taken turn by turn here, and a turn that reads a link outside the tree fails.
So it is not a matter of course that the loops come to an end, nor that they do not fail.
What carries the proof is that no turn changes what `meet` finds for the two fingers, and
that a bound on the turns to come goes down.

What `meet` finds is the lowest index that the climbs from two indices share.  Nothing else
is needed for its laws: it is commutative and idempotent, and it is associative wherever
one of the two sides has a value.
-/

/-- No link leads out of the tree. -/
def LinksInside (tree : DominatorTree) : Prop :=
  ∀ index < tree.size, ∀ dominator ∈ tree.link? index, dominator < tree.size

instance (tree : DominatorTree) : Decidable tree.LinksInside :=
  inferInstanceAs
    (Decidable (∀ index < tree.size, ∀ dominator ∈ tree.link? index, dominator < tree.size))

/-- The indices that the climbs from two indices share. -/
def shared (tree : DominatorTree) (first second : Nat) : Set Nat :=
  {index |
    (∃ met, tree.IsClimb first met ∧ index ∈ met) ∧
      ∃ met, tree.IsClimb second met ∧ index ∈ met}

/-- The climb from an index stops at another one. -/
def StopsAt (tree : DominatorTree) (index last : Nat) : Prop :=
  ∃ met, tree.IsClimb index met ∧ met.getLast? = some last

/-! ## The loops -/

/-- The loops of the search. -/
inductive Loop where
  /-- The loop that ends when the fingers agree. -/
  | compare
  /-- The loop that raises the first finger. -/
  | raiseFirst
  /-- The loop that raises the second finger. -/
  | raiseSecond
  deriving DecidableEq, Repr

/-- The state of a search: the loop whose condition is looked at next, and two fingers. -/
structure Fingers where
  loop : Loop
  first : Nat
  second : Nat
  deriving DecidableEq, Repr

namespace Fingers

/-- What a turn comes to. -/
inductive Turn where
  | goesOn (next : Fingers)
  | ends (outcome : Except BrokenChain Nat)
  | fails (link : DanglingLink)

/-- The search for two indices before its first turn. -/
def start (first second : Nat) : Fingers :=
  ⟨.compare, first, second⟩

/-- Follow the link of an index, which has to climb. -/
def raise (tree : DominatorTree) (index : Nat) (moved : Nat → Fingers) : Turn :=
  if index < tree.size then
    (tree.climb? index).elim (.ends (.error ⟨index⟩)) fun dominator => .goesOn (moved dominator)
  else
    .fails ⟨index⟩

/-- One turn: look at the condition of a loop, and take one round of it or leave it. -/
def turn (tree : DominatorTree) (fingers : Fingers) : Turn :=
  match fingers.loop with
  | .compare =>
      if fingers.first = fingers.second then
        .ends (.ok fingers.first)
      else
        .goesOn { fingers with loop := .raiseFirst }
  | .raiseFirst =>
      if fingers.first < fingers.second then
        raise tree fingers.first fun dominator => { fingers with first := dominator }
      else
        .goesOn { fingers with loop := .raiseSecond }
  | .raiseSecond =>
      if fingers.second < fingers.first then
        raise tree fingers.second fun dominator => { fingers with second := dominator }
      else
        .goesOn { fingers with loop := .compare }

/-- What a search comes to, if it ends within so many turns. -/
def run
    (tree : DominatorTree) :
    Nat → Fingers → Option (Except DanglingLink (Except BrokenChain Nat))
  | 0, _ => none
  | turns + 1, fingers =>
      match fingers.turn tree with
      | .goesOn next => run tree turns next
      | .ends outcome => some (.ok outcome)
      | .fails link => some (.error link)

/-- The number of turns before a finger is raised or the search ends. -/
def idle (fingers : Fingers) : Nat :=
  match fingers.loop with
  | .compare =>
      if fingers.first = fingers.second then 0
      else if fingers.first < fingers.second then 1
      else 2
  | .raiseFirst =>
      if fingers.first < fingers.second then 0
      else if fingers.second < fingers.first then 1
      else 2
  | .raiseSecond =>
      if fingers.second < fingers.first then 0
      else if fingers.first = fingers.second then 1
      else 2

/-- A bound on the turns that come before the last one. -/
def remaining (tree : DominatorTree) (fingers : Fingers) : Nat :=
  3 * ((tree.size - fingers.first) + (tree.size - fingers.second)) + fingers.idle

/-- Both fingers point into the tree. -/
def Inside (tree : DominatorTree) (fingers : Fingers) : Prop :=
  fingers.first < tree.size ∧ fingers.second < tree.size

/--
A turn serves the search for the common index: it goes on with fingers for which the same is
found, in fewer turns, or it ends with what is found.
-/
inductive Turn.Serves (tree : DominatorTree) (fingers : Fingers) : Turn → Prop where
  | goesOn
      {next : Fingers} :
      next.Inside tree →
      tree.meet next.first next.second = tree.meet fingers.first fingers.second →
      next.remaining tree < fingers.remaining tree →
      Serves tree fingers (.goesOn next)
  | ends :
      Serves tree fingers (.ends (tree.meet fingers.first fingers.second))

end Fingers

variable {tree : DominatorTree} {first second : Nat}

/-! ## One turn -/

@[simp] theorem meet_self (index : Nat) : tree.meet index index = .ok index := by
  rw [meet, if_pos rfl]

/-- The first finger climbs while it is the lower one. -/
theorem meet_of_first_lt
    (lower : first < second) :
    tree.meet first second =
      (tree.climb? first).elim (.error ⟨first⟩) fun dominator => tree.meet dominator second := by
  rw [meet, if_neg (Nat.ne_of_lt lower), if_pos lower]
  split <;> simp_all

/-- The second finger climbs while it is the lower one. -/
theorem meet_of_second_lt
    (lower : second < first) :
    tree.meet first second =
      (tree.climb? second).elim (.error ⟨second⟩) fun dominator => tree.meet first dominator := by
  rw [meet, if_neg (Nat.ne_of_gt lower), if_neg (Nat.lt_asymm lower)]
  split <;> simp_all

theorem LinksInside.lt_size_of_climb
    {index dominator : Nat}
    (linksInside : tree.LinksInside)
    (climbs : tree.climb? index = some dominator) :
    dominator < tree.size :=
  linksInside index (lt_of_climb?_eq_some climbs).1 dominator (climb?_eq_some_iff.mp climbs).2

namespace Fingers

variable {fingers : Fingers}

theorem idle_le (fingers : Fingers) : fingers.idle ≤ 2 := by
  rw [idle]
  split <;> split_ifs <;> omega

/-- The idle turns that a raised finger may bring do not outweigh what it gains. -/
theorem remaining_lt_of_raised
    {next : Fingers}
    (raised :
      (tree.size - next.first) + (tree.size - next.second) <
        (tree.size - fingers.first) + (tree.size - fingers.second)) :
    next.remaining tree < fingers.remaining tree := by
  have := idle_le next
  rw [remaining, remaining]
  omega

/-- To change the loop and nothing else serves the search if a finger is raised sooner. -/
theorem serves_of_idle
    {loop : Loop}
    (inside : fingers.Inside tree)
    (sooner : { fingers with loop := loop }.idle < fingers.idle) :
    Turn.Serves tree fingers (.goesOn { fingers with loop := loop }) :=
  .goesOn inside rfl (Nat.add_lt_add_left sooner _)

/--
To raise a finger serves the search, whether or not its link climbs, if what is found is
found where the link leads.
-/
theorem serves_raise
    {index : Nat}
    {moved : Nat → Fingers}
    (linksInside : tree.LinksInside)
    (indexInside : index < tree.size)
    (found :
      tree.meet fingers.first fingers.second =
        (tree.climb? index).elim (.error ⟨index⟩) fun dominator =>
          tree.meet (moved dominator).first (moved dominator).second)
    (advances :
      ∀ dominator, index < dominator → dominator < tree.size →
        (moved dominator).Inside tree ∧
          (tree.size - (moved dominator).first) + (tree.size - (moved dominator).second) <
            (tree.size - fingers.first) + (tree.size - fingers.second)) :
    Turn.Serves tree fingers (raise tree index moved) := by
  rw [raise, if_pos indexInside]
  cases climbs : tree.climb? index with
  | none =>
      rw [climbs, Option.elim_none] at found
      rw [Option.elim_none, ← found]
      exact .ends
  | some dominator =>
      rw [climbs, Option.elim_some] at found
      obtain ⟨movedInside, raised⟩ :=
        advances dominator (lt_of_climb?_eq_some climbs).2 (linksInside.lt_size_of_climb climbs)
      exact .goesOn movedInside found.symm (remaining_lt_of_raised raised)

/-- Each turn serves the search, and so none fails. -/
theorem serves_turn
    (linksInside : tree.LinksInside)
    (inside : fingers.Inside tree) :
    Turn.Serves tree fingers (fingers.turn tree) := by
  obtain ⟨loop, first, second⟩ := fingers
  cases loop with
  | compare =>
      by_cases agree : first = second
      · subst agree
        have found : Turn.Serves tree ⟨.compare, first, first⟩ (.ends (tree.meet first first)) :=
          .ends
        simpa [turn] using found
      · simp only [turn, if_neg agree]
        refine serves_of_idle inside ?_
        simp only [idle, if_neg agree]
        split_ifs <;> omega
  | raiseFirst =>
      by_cases lower : first < second
      · simp only [turn, if_pos lower]
        refine serves_raise linksInside inside.1 (tree.meet_of_first_lt lower) ?_
        intro dominator higher dominatorInside
        have gained : tree.size - dominator < tree.size - first := by omega
        exact ⟨⟨dominatorInside, inside.2⟩, Nat.add_lt_add_right gained _⟩
      · simp only [turn, if_neg lower]
        refine serves_of_idle inside ?_
        simp only [idle, if_neg lower]
        split_ifs <;> omega
  | raiseSecond =>
      by_cases lower : second < first
      · simp only [turn, if_pos lower]
        refine serves_raise linksInside inside.2 (tree.meet_of_second_lt lower) ?_
        intro dominator higher dominatorInside
        have gained : tree.size - dominator < tree.size - second := by omega
        exact ⟨⟨inside.1, dominatorInside⟩, Nat.add_lt_add_left gained _⟩
      · -- The second finger agrees with the first, or it was raised past it.
        simp only [turn, if_neg lower]
        refine serves_of_idle inside ?_
        simp only [idle, if_neg lower]
        split_ifs <;> omega

/-! ## Whole searches -/

/-- Given more turns than the bound, a search ends with what is found for its fingers. -/
theorem run_eq_meet
    (linksInside : tree.LinksInside)
    (inside : fingers.Inside tree)
    {turns : Nat}
    (enough : fingers.remaining tree < turns) :
    fingers.run tree turns = some (.ok (tree.meet fingers.first fingers.second)) := by
  -- The induction is on the turns: each that goes on takes at least one off the bound.
  induction turns generalizing fingers with
  | zero => exact absurd enough (Nat.not_lt_zero _)
  | succ turns inductionHypothesis =>
      have serves := serves_turn linksInside inside
      rw [run]
      generalize fingers.turn tree = turn at serves ⊢
      cases serves with
      | goesOn nextInside sameFound fewer =>
          rw [← sameFound]
          exact inductionHypothesis nextInside (by omega)
      | ends => rfl

/-- The search for two indices takes at most six turns for each index and three more. -/
theorem run_start
    (linksInside : tree.LinksInside)
    (firstInside : first < tree.size)
    (secondInside : second < tree.size)
    {turns : Nat}
    (enough : 6 * tree.size + 3 ≤ turns) :
    (start first second).run tree turns = some (.ok (tree.meet first second)) := by
  refine run_eq_meet linksInside ⟨firstInside, secondInside⟩ ?_
  have := idle_le (start first second)
  rw [remaining]
  omega

-- Fingers that have both left the tree make a turn fail.
example :
    (start 0 1).run (((ofOrder #[⟨10⟩, ⟨11⟩]).setLink 0 5).setLink 1 6) 15 =
      some (.error ⟨5⟩) := by
  decide

end Fingers

/-! ## What is found -/

theorem mem_shared_iff
    {index : Nat} :
    index ∈ tree.shared first second ↔ index ∈ tree.ascent first ∧ index ∈ tree.ascent second := by
  simp only [shared, isClimb_iff, exists_eq_left, Set.mem_ofPred_eq]

theorem shared_comm
    (tree : DominatorTree)
    (first second : Nat) :
    tree.shared first second = tree.shared second first :=
  Set.ext fun _ => and_comm

/-- The meeting is the lowest index that is shared. -/
theorem isLeast_of_meet
    {common : Nat}
    (found : tree.meet first second = .ok common) :
    IsLeast (tree.shared first second) common := by
  constructor
  · exact mem_shared_iff.mpr ((mem_ascent_meet found common).mp (by simp))
  · intro index isShared
    exact le_of_mem_ascent ((mem_ascent_meet found index).mpr (mem_shared_iff.mp isShared))

/-- Two fingers meet exactly if their chains share an index. -/
theorem exists_meet_iff :
    (∃ common, tree.meet first second = .ok common) ↔ (tree.shared first second).Nonempty := by
  constructor
  · rintro ⟨common, found⟩
    exact (isLeast_of_meet found).nonempty
  · rintro ⟨index, isShared⟩
    obtain ⟨onFirst, onSecond⟩ := mem_shared_iff.mp isShared
    exact exists_meet_of_shared onFirst onSecond

/-- The search finds the lowest index that both climbs share. -/
theorem meet_eq_ok_iff
    {common : Nat} :
    tree.meet first second = .ok common ↔ IsLeast (tree.shared first second) common := by
  constructor
  · exact isLeast_of_meet
  · intro isLeast
    obtain ⟨other, found⟩ := exists_meet_iff.mpr isLeast.nonempty
    rw [found, (isLeast_of_meet found).unique isLeast]

/-! ## Where the search breaks off -/

theorem stopsAt_iff
    {index last : Nat} :
    tree.StopsAt index last ↔ (tree.ascent index).getLast? = some last := by
  simp only [StopsAt, isClimb_iff, exists_eq_left]

theorem stopsAt_of_ends
    {index last : Nat}
    (ends : tree.climb? index = none) :
    tree.StopsAt index last ↔ index = last := by
  rw [stopsAt_iff, ascent_of_ends ends, List.getLast?_singleton, Option.some.injEq]

theorem stopsAt_of_climbs
    {index dominator last : Nat}
    (climbs : tree.climb? index = some dominator) :
    tree.StopsAt index last ↔ tree.StopsAt dominator last := by
  obtain ⟨above, ascent_eq⟩ := List.head?_eq_some_iff.mp (tree.head?_ascent dominator)
  rw [stopsAt_iff, stopsAt_iff, ascent_of_climbs climbs, ascent_eq, List.getLast?_cons_cons]

/-- Every chain stops. -/
theorem exists_stopsAt
    (tree : DominatorTree)
    (index : Nat) :
    ∃ last, tree.StopsAt index last := by
  fun_induction tree.ascent index with
  | case1 index ends => exact ⟨index, (stopsAt_of_ends ends).mpr rfl⟩
  | case2 index dominator climbs inductionHypothesis =>
      obtain ⟨last, stops⟩ := inductionHypothesis
      exact ⟨last, (stopsAt_of_climbs climbs).mpr stops⟩

theorem StopsAt.le
    {index last : Nat}
    (stops : tree.StopsAt index last) :
    index ≤ last :=
  le_of_mem_ascent (List.mem_of_getLast? (stopsAt_iff.mp stops))

/-- The search breaks off at the end of the climb that stops first. -/
theorem index_of_meet_eq_error
    {broken : BrokenChain}
    {firstLast secondLast : Nat}
    (breaks : tree.meet first second = .error broken)
    (firstStops : tree.StopsAt first firstLast)
    (secondStops : tree.StopsAt second secondLast) :
    broken.index = min firstLast secondLast := by
  fun_induction tree.meet first second with
  | case1 first => cases breaks
  | case2 first second different lower ends =>
      cases breaks
      obtain rfl := (stopsAt_of_ends ends).mp firstStops
      exact (Nat.min_eq_left (Nat.le_trans (Nat.le_of_lt lower) secondStops.le)).symm
  | case3 first second different lower dominator climbs inductionHypothesis =>
      exact inductionHypothesis breaks ((stopsAt_of_climbs climbs).mp firstStops) secondStops
  | case4 first second different notLower ends =>
      cases breaks
      obtain rfl := (stopsAt_of_ends ends).mp secondStops
      exact (Nat.min_eq_right (Nat.le_trans (Nat.not_lt.mp notLower) firstStops.le)).symm
  | case5 first second different notLower dominator climbs inductionHypothesis =>
      exact inductionHypothesis breaks firstStops ((stopsAt_of_climbs climbs).mp secondStops)

/-- Where the climbs share nothing the search breaks off. -/
theorem meet_of_shared_eq_empty
    {firstLast secondLast : Nat}
    (nothing : tree.shared first second = ∅)
    (firstStops : tree.StopsAt first firstLast)
    (secondStops : tree.StopsAt second secondLast) :
    tree.meet first second = .error ⟨min firstLast secondLast⟩ := by
  cases outcome : tree.meet first second with
  | ok common =>
      have isShared := (isLeast_of_meet outcome).1
      rw [nothing] at isShared
      exact absurd isShared (Set.notMem_empty common)
  | error broken => rw [← index_of_meet_eq_error outcome firstStops secondStops]

/-! ## Laws -/

/-- It does not matter which finger starts where. -/
theorem meet_comm
    (tree : DominatorTree)
    (first second : Nat) :
    tree.meet first second = tree.meet second first := by
  rcases (tree.shared first second).eq_empty_or_nonempty with nothing | nonempty
  · obtain ⟨firstLast, firstStops⟩ := tree.exists_stopsAt first
    obtain ⟨secondLast, secondStops⟩ := tree.exists_stopsAt second
    have breaks := meet_of_shared_eq_empty nothing firstStops secondStops
    rw [shared_comm] at nothing
    rw [breaks, meet_of_shared_eq_empty nothing secondStops firstStops, Nat.min_comm]
  · obtain ⟨common, found⟩ := exists_meet_iff.mpr nonempty
    rw [found, eq_comm, meet_eq_ok_iff, shared_comm]
    exact isLeast_of_meet found

/-- Two searches in a row find the lowest index on all three climbs. -/
theorem meet_bind_meet_eq_ok_iff
    {third common : Nat} :
    (tree.meet first second >>= fun between => tree.meet between third) = .ok common ↔
      IsLeast (tree.shared first second ∩ tree.shared second third) common := by
  cases outcome : tree.meet first second with
  | error broken =>
      constructor
      · intro found
        cases found
      · intro isLeast
        obtain ⟨between, found⟩ := exists_meet_iff.mpr ⟨common, isLeast.1.1⟩
        rw [outcome] at found
        cases found
  | ok between =>
      have sameShared :
          tree.shared between third = tree.shared first second ∩ tree.shared second third := by
        ext index
        rw [Set.mem_inter_iff, mem_shared_iff, mem_shared_iff, mem_shared_iff,
          mem_ascent_meet outcome]
        tauto
      rw [← sameShared, ← meet_eq_ok_iff]
      rfl

/-- If one side has a value then so has the other, and it is the same. -/
theorem meet_assoc
    (tree : DominatorTree)
    (first second third common : Nat) :
    (tree.meet first second >>= fun between => tree.meet between third) = .ok common ↔
      (tree.meet second third >>= fun between => tree.meet first between) = .ok common := by
  -- With the indices in the opposite order the second side has the form of the first.
  have turned :
      (tree.meet second third >>= fun between => tree.meet first between) =
        (tree.meet third second >>= fun between => tree.meet between first) := by
    rw [tree.meet_comm second third, funext (tree.meet_comm first)]
  rw [turned, meet_bind_meet_eq_ok_iff, meet_bind_meet_eq_ok_iff, Set.inter_comm,
    tree.shared_comm first second, tree.shared_comm second third]

/--
On links that do not lead out of the tree, climbing or not, the loops of the search end.

They come to what `meet` finds, in at most six turns for each index and three more.  An index
is found exactly if the climbs from the two indices share one, and it is the lowest of those.
Otherwise the links are reported as malformed, at the end of the climb that stops first.  So
the order of the two indices does not matter, an index is found for itself, three indices may
be taken two at a time in either way, and nothing lower than the two indices is found.
-/
theorem meet_finds_lowest_shared
    (tree : DominatorTree)
    (linksInside : tree.LinksInside) :
    (∀ first < tree.size, ∀ second < tree.size,
      (∀ turns ≥ 6 * tree.size + 3,
        (Fingers.start first second).run tree turns = some (.ok (tree.meet first second))) ∧
      ((∃ common, tree.meet first second = .ok common) ↔ (tree.shared first second).Nonempty) ∧
      (∀ common,
        tree.meet first second = .ok common ↔ IsLeast (tree.shared first second) common) ∧
      (tree.shared first second = ∅ →
        ∃ broken,
          tree.meet first second = .error broken ∧
            (BuildError.brokenChain broken).isMalformed = true ∧
              ∃ firstLast secondLast,
                tree.StopsAt first firstLast ∧
                  tree.StopsAt second secondLast ∧ broken.index = min firstLast secondLast) ∧
      ∀ common, tree.meet first second = .ok common → first ≤ common ∧ second ≤ common) ∧
    (∀ first second, tree.meet first second = tree.meet second first) ∧
    (∀ index, tree.meet index index = .ok index) ∧
    ∀ first second third common,
      (tree.meet first second >>= fun between => tree.meet between third) = .ok common ↔
        (tree.meet second third >>= fun between => tree.meet first between) = .ok common := by
  refine ⟨?_, tree.meet_comm, fun _ => meet_self _, tree.meet_assoc⟩
  intro first firstInside second secondInside
  refine ⟨fun turns => Fingers.run_start linksInside firstInside secondInside, exists_meet_iff,
    fun _ => meet_eq_ok_iff, ?_, ?_⟩
  · intro nothing
    obtain ⟨firstLast, firstStops⟩ := tree.exists_stopsAt first
    obtain ⟨secondLast, secondStops⟩ := tree.exists_stopsAt second
    exact ⟨_, meet_of_shared_eq_empty nothing firstStops secondStops, rfl, firstLast, secondLast,
      firstStops, secondStops, rfl⟩
  · intro common found
    obtain ⟨onFirst, onSecond⟩ := mem_shared_iff.mp (isLeast_of_meet found).1
    exact ⟨le_of_mem_ascent onFirst, le_of_mem_ascent onSecond⟩

/-- Two climbs that pass each other by turns, an index without a link, and links that descend. -/
def crossedClimbs : DominatorTree :=
  [(0, 2), (1, 4), (2, 4), (4, 5), (5, 1), (6, 0)].foldl
    (fun tree link => tree.setLink link.1 link.2)
    (ofOrder #[⟨10⟩, ⟨11⟩, ⟨12⟩, ⟨13⟩, ⟨14⟩, ⟨15⟩, ⟨16⟩])

/-- Both climbs come to index `4`, past the index `3`, which shares nothing with the first. -/
theorem crossedClimbs_meet :
    crossedClimbs.LinksInside ∧
      (Fingers.start 0 1).run crossedClimbs 45 = some (.ok (.ok 4)) ∧
        IsLeast (crossedClimbs.shared 0 1) 4 ∧
          crossedClimbs.shared 0 3 = ∅ ∧
            (Fingers.start 0 3).run crossedClimbs 45 = some (.ok (.error ⟨3⟩)) := by
  have linksInside : crossedClimbs.LinksInside := by decide
  have found : crossedClimbs.meet 0 1 = .ok 4 := by decide +kernel
  have breaks : crossedClimbs.meet 0 3 = .error ⟨3⟩ := by decide +kernel
  obtain ⟨finds, _⟩ := meet_finds_lowest_shared crossedClimbs linksInside
  obtain ⟨ends, _, isLeast_iff, _⟩ := finds 0 (by decide) 1 (by decide)
  obtain ⟨breaksOff, found_iff, _⟩ := finds 0 (by decide) 3 (by decide)
  have nothing : crossedClimbs.shared 0 3 = ∅ := by
    rw [← Set.not_nonempty_iff_eq_empty, ← found_iff, breaks]
    rintro ⟨common, found⟩
    cases found
  rw [found] at ends
  rw [breaks] at breaksOff
  exact ⟨linksInside, ends 45 (by decide), (isLeast_iff 4).mp found, nothing,
    breaksOff 45 (by decide)⟩

end Dominance.DominatorTree
