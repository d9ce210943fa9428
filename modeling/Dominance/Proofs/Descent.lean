import Dominance.Proofs.Path
import Dominance.Proofs.Rooted

namespace Dominance

/-!
# What a pass does to the chains

Here a pass is looked at on its own: postorder indices, their predecessors, and a
tree whose links are recorded from the highest index down.  The numbering need
not come from a depth-first walk.  All that is used of it is that every index that
has been visited has some predecessor with a higher index.

Between passes a tree approximates dominance from above: the chain of an index
holds all that lies on every path to it.  A pass may only take members out of
chains.  This is not obvious, because a changed link changes all chains through
it.  The reason is the order of the visits: edges from higher to lower indices are
up to date as soon as their target has been visited, so what has left the chain of
an index has left the chains of everything below it that such edges lead to.
-/

/-- Indices up to a root, each with the indices of its predecessors. -/
structure IndexGraph where
  root : Nat
  sources : Nat → List Nat
  inside : ∀ index, ∀ source ∈ sources index, source ≤ root

namespace IndexGraph

/-- An edge to an index below the root. -/
def Edge (graph : IndexGraph) (source target : Nat) : Prop :=
  target < graph.root ∧ source ∈ graph.sources target

/-- An index lies on every path from the root to another. -/
def Dominates (graph : IndexGraph) (dominator index : Nat) : Prop :=
  OnEveryPath graph.Edge graph.root dominator index

/-- The predecessors of an index, without the index itself. -/
def others (graph : IndexGraph) (index : Nat) : List Nat :=
  (graph.sources index).filter (· ≠ index)

/-- An index that has a predecessor with a higher index. -/
def Supported (graph : IndexGraph) (index : Nat) : Prop :=
  ∃ source ∈ graph.sources index, index < source

theorem mem_others
    {graph : IndexGraph}
    {index source : Nat} :
    source ∈ graph.others index ↔
      source ∈ graph.sources index ∧ source ≠ index := by
  simp [others]

/-- A tree as it is between passes. -/
structure Approximates (graph : IndexGraph) (tree : DominatorTree) : Prop where
  rooted : tree.Rooted graph.root
  supported :
    ∀ {index : Nat},
      index < graph.root →
      tree.isLinked index = true →
      graph.Supported index
  /-- A chain goes on among the members of the chains of higher predecessors. -/
  forward :
    ∀ {index source : Nat},
      index < graph.root →
      tree.isLinked index = true →
      source ∈ graph.sources index →
      index < source →
      tree.isLinked source = true ∧
        ∀ target ∈ tree.ascent index,
          target ≠ index →
          target ∈ tree.ascent source
  /-- A chain holds what is on the chains of all predecessors. -/
  covers :
    ∀ {index target : Nat},
      index < graph.root →
      tree.isLinked index = true →
      (∀ source ∈ graph.others index,
        tree.isLinked source = true →
        target ∈ tree.ascent source) →
      target ∈ tree.ascent index
  /-- A chain holds all dominators. -/
  sound :
    ∀ {index dominator : Nat},
      tree.isLinked index = true →
      graph.Dominates dominator index →
      dominator ∈ tree.ascent index

/-- A tree in which only the root is linked. -/
theorem approximates_of_unlinked
    {graph : IndexGraph}
    {tree : DominatorTree}
    (rooted : tree.Rooted graph.root)
    (unlinked : ∀ index < graph.root, tree.isLinked index = false) :
    graph.Approximates tree := by
  have isRoot
      {index : Nat}
      (linked : tree.isLinked index = true) :
      index = graph.root := by
    rcases Nat.lt_or_eq_of_le (rooted.le_of_isLinked linked) with below | isRoot
    · rw [unlinked index below] at linked
      cases linked
    · exact isRoot
  refine
    { rooted := rooted
      supported := fun below linked => absurd (isRoot linked) (Nat.ne_of_lt below)
      forward := fun below linked => absurd (isRoot linked) (Nat.ne_of_lt below)
      covers := fun below linked => absurd (isRoot linked) (Nat.ne_of_lt below)
      sound := ?_ }
  intro index dominator linked dominates
  rw [isRoot linked] at dominates ⊢
  rw [List.mem_singleton.mp (dominates _ .start)]
  exact tree.self_mem_ascent graph.root

/--
What holds for a member of a chain, given that it holds for the index at which the
chain starts and is handed on to predecessors with higher indices.
-/
theorem Approximates.climb_induction
    {graph : IndexGraph}
    {tree : DominatorTree}
    (approximates : graph.Approximates tree)
    {motive : Nat → Prop}
    {index target : Nat}
    (linked : tree.isLinked index = true)
    (member : target ∈ tree.ascent index)
    (base : motive index)
    (step :
      ∀ current source,
        index ≤ current →
        current < target →
        current < graph.root →
        source ∈ graph.sources current →
        current < source →
        motive current →
        motive source) :
    motive target := by
  by_cases same : target = index
  · exact same ▸ base
  · have climbs := DominatorTree.le_of_mem_ascent member
    have targetInside :=
      approximates.rooted.le_of_isLinked
        (approximates.rooted.isLinked_of_mem_ascent linked member)
    have below : index < graph.root := by omega
    obtain ⟨source, isSource, higher⟩ := approximates.supported below linked
    obtain ⟨sourceLinked, goesOn⟩ := approximates.forward below linked isSource higher
    have sourceInside := approximates.rooted.le_of_isLinked sourceLinked
    exact approximates.climb_induction sourceLinked (goesOn target member same)
      (step index source (Nat.le_refl index) (by omega) below isSource higher base)
      fun current next isAbove => step current next (by omega)
termination_by graph.root - index

/-- What dominates an index from above a member of its chain dominates the member. -/
theorem Approximates.dominates_member
    {graph : IndexGraph}
    {tree : DominatorTree}
    (approximates : graph.Approximates tree)
    {index member dominator : Nat}
    (linked : tree.isLinked index = true)
    (isMember : member ∈ tree.ascent index)
    (above : member < dominator)
    (dominates : graph.Dominates dominator index) :
    graph.Dominates dominator member := by
  refine approximates.climb_induction linked isMember dominates ?_
  intro current source _ belowMember belowRoot isSource _ dominatesCurrent
  exact dominatesCurrent.of_edge ⟨belowRoot, isSource⟩ (by omega)

/--
A pass under way.

The indices from a bound on have been visited; `before` is the tree with which
the pass started.
-/
structure Sweeping
    (graph : IndexGraph)
    (before now : DominatorTree)
    (bound : Nat) : Prop where
  approximates : graph.Approximates before
  rooted : now.Rooted graph.root
  supported :
    ∀ {index : Nat},
      bound ≤ index →
      index < graph.root →
      graph.Supported index
  visited :
    ∀ {index : Nat},
      bound ≤ index →
      index ≤ graph.root →
      now.isLinked index = true
  unvisited :
    ∀ {index : Nat},
      index < bound →
      now.link? index = before.link? index
  /-- Chains only lose members. -/
  shrinks :
    ∀ {index target : Nat},
      before.isLinked index = true →
      target ∈ now.ascent index →
      target ∈ before.ascent index
  forward :
    ∀ {index source target : Nat},
      bound ≤ index →
      index < graph.root →
      source ∈ graph.sources index →
      index < source →
      target ∈ now.ascent index →
      target ≠ index →
      target ∈ now.ascent source
  covers :
    ∀ {index target : Nat},
      bound ≤ index →
      index < graph.root →
      (∀ source ∈ graph.others index,
        now.isLinked source = true →
        target ∈ now.ascent source) →
      target ∈ now.ascent index
  sound :
    ∀ {index dominator : Nat},
      now.isLinked index = true →
      graph.Dominates dominator index →
      dominator ∈ now.ascent index
  /-- A chain goes on among the members that the predecessors had before the pass. -/
  backward :
    ∀ {index source target : Nat},
      bound ≤ index →
      index < graph.root →
      source ∈ graph.others index →
      before.isLinked source = true →
      target ∈ now.ascent index →
      target ≠ index →
      target ∈ before.ascent source

/-- A pass starts with the tree of the pass before it. -/
theorem Approximates.sweeping
    {graph : IndexGraph}
    {tree : DominatorTree}
    (approximates : graph.Approximates tree) :
    graph.Sweeping tree tree graph.root where
  approximates := approximates
  rooted := approximates.rooted
  supported := by omega
  visited := by
    intro index isVisited isInside
    have isRoot : index = graph.root := by omega
    exact isRoot ▸ approximates.rooted.root_isLinked
  unvisited := fun _ => rfl
  shrinks := fun _ member => member
  forward := by omega
  covers := by omega
  sound := approximates.sound
  backward := by omega

namespace Sweeping

variable {graph : IndexGraph} {before now : DominatorTree}

/-- What was linked before a pass stays linked. -/
theorem isLinked_of_before
    {bound index : Nat}
    (sweeping : graph.Sweeping before now bound)
    (linked : before.isLinked index = true) :
    now.isLinked index = true := by
  by_cases isVisited : bound ≤ index
  · exact sweeping.visited isVisited
      (sweeping.approximates.rooted.le_of_isLinked linked)
  · rw [DominatorTree.isLinked, sweeping.unvisited (by omega)]
    exact linked

/-- An index that is not visited yet is linked only if it was before. -/
theorem isLinked_before
    {bound index : Nat}
    (sweeping : graph.Sweeping before now bound)
    (isUnvisited : index < bound)
    (linked : now.isLinked index = true) :
    before.isLinked index = true := by
  rw [DominatorTree.isLinked, ← sweeping.unvisited isUnvisited]
  exact linked

/-- A complete pass leaves a tree from which the next pass can start. -/
theorem approximates_now
    (sweeping : graph.Sweeping before now 0) :
    graph.Approximates now where
  rooted := sweeping.rooted
  supported := fun below _ => sweeping.supported (Nat.zero_le _) below
  forward := fun below _ isSource higher =>
    ⟨sweeping.visited (Nat.zero_le _) (graph.inside _ _ isSource),
      fun _ member different =>
        sweeping.forward (Nat.zero_le _) below isSource higher member different⟩
  covers := fun below _ => sweeping.covers (Nat.zero_le _) below
  sound := sweeping.sound

section Visit

variable {index dominator : Nat}
  (sweeping : graph.Sweeping before now (index + 1))
  (supported : graph.Supported index)
  (nearest : now.IsNearest (graph.others index) dominator)

include sweeping supported nearest

/-- The nearest index is on the chain of some predecessor that has been visited. -/
theorem exists_visited_source :
    ∃ source ∈ graph.sources index,
      index < source ∧
        now.isLinked source = true ∧
          dominator ∈ now.ascent source := by
  obtain ⟨source, isSource, higher⟩ := supported
  have isOther : source ∈ graph.others index :=
    mem_others.mpr ⟨isSource, by omega⟩
  have linked : now.isLinked source = true :=
    sweeping.visited higher (graph.inside _ _ isSource)
  exact ⟨source, isSource, higher, linked,
    (nearest dominator).mp (now.self_mem_ascent dominator) source isOther linked⟩

theorem lt_of_isNearest : index < dominator := by
  obtain ⟨source, _, higher, _, member⟩ :=
    sweeping.exists_visited_source supported nearest
  exact Nat.lt_of_lt_of_le higher (DominatorTree.le_of_mem_ascent member)

theorem isLinked_of_isNearest : now.isLinked dominator = true := by
  obtain ⟨source, _, _, linked, member⟩ :=
    sweeping.exists_visited_source supported nearest
  exact sweeping.rooted.isLinked_of_mem_ascent linked member

variable (below : index < graph.root)

include below

/-- A link that is replaced gives way to a member of its own chain. -/
theorem mem_ascent_of_replaced
    {replaced : Nat}
    (recorded : now.climb? index = some replaced) :
    dominator ∈ now.ascent replaced := by
  have higher := sweeping.lt_of_isNearest supported nearest
  have sameClimb : now.climb? index = before.climb? index := by
    rw [DominatorTree.climb?, sweeping.unvisited (Nat.lt_succ_self index),
      DominatorTree.climb?]
  have recordedBefore : before.climb? index = some replaced := sameClimb ▸ recorded
  have linkedBefore : before.isLinked index = true :=
    (sweeping.approximates.rooted.isLinked_of_climb recordedBefore).1
  have replacedMember : replaced ∈ before.ascent index :=
    DominatorTree.mem_ascent_of_climb recordedBefore (before.self_mem_ascent replaced)
  have replacedHigher := (DominatorTree.lt_of_climb?_eq_some recorded).2
  -- The new link was on the old chain: all predecessors had it before the pass.
  have dominatorMember : dominator ∈ before.ascent index := by
    refine sweeping.approximates.covers below linkedBefore ?_
    intro source isOther sourceLinked
    exact sweeping.shrinks sourceLinked
      ((nearest dominator).mp (now.self_mem_ascent dominator) source isOther
        (sweeping.isLinked_of_before sourceLinked))
  have replacedLe : replaced ≤ dominator :=
    DominatorTree.le_of_mem_ascent
      (DominatorTree.mem_ascent_of_ne recordedBefore dominatorMember (by omega))
  -- From a higher predecessor the old chain leads to the replaced link along edges
  -- that are up to date, and the new link stays on the chain all the way.
  obtain ⟨source, isSource, sourceHigher, _, dominatorOnSource⟩ :=
    sweeping.exists_visited_source supported nearest
  obtain ⟨sourceLinked, goesOn⟩ :=
    sweeping.approximates.forward below linkedBefore isSource sourceHigher
  refine sweeping.approximates.climb_induction
    (motive := fun current => dominator ∈ now.ascent current)
    sourceLinked (goesOn replaced replacedMember (by omega)) dominatorOnSource ?_
  intro current next isAbove belowReplaced belowRoot isNext nextHigher member
  exact sweeping.forward (by omega) belowRoot isNext nextHigher member (by omega)

/-- A visit takes members out of chains, and adds none. -/
theorem mem_ascent_of_setLink
    {other target : Nat}
    (linked : now.isLinked other = true)
    (member : target ∈ (now.setLink index dominator).ascent other) :
    target ∈ now.ascent other := by
  have higher := sweeping.lt_of_isNearest supported nearest
  have inside := sweeping.rooted.lt_size below
  rcases DominatorTree.mem_ascent_iff.mp member with isOther | ⟨next, climbs, isAbove⟩
  · exact isOther ▸ now.self_mem_ascent other
  · have nextHigher := (DominatorTree.lt_of_climb?_eq_some climbs).2
    by_cases isIndex : other = index
    · subst isIndex
      rw [DominatorTree.climb?_setLink_self inside higher] at climbs
      cases climbs
      rw [DominatorTree.ascent_setLink_of_lt inside dominator higher] at isAbove
      obtain ⟨replaced, _, recorded, _⟩ := sweeping.rooted.exists_climb linked below
      exact DominatorTree.mem_ascent_of_climb recorded
        (DominatorTree.mem_ascent_trans
          (sweeping.mem_ascent_of_replaced supported nearest below recorded) isAbove)
    · rw [DominatorTree.climb?_setLink_of_ne inside dominator isIndex] at climbs
      have nextLinked := (sweeping.rooted.isLinked_of_climb climbs).2
      have nextInside := sweeping.rooted.le_of_isLinked nextLinked
      exact DominatorTree.mem_ascent_of_climb climbs
        (mem_ascent_of_setLink nextLinked isAbove)
termination_by graph.root - other

omit supported nearest in
/-- Dominators stay on the chains of indices that wait for their visit. -/
theorem sound_of_unvisited
    {other target : Nat}
    (isUnvisited : other < index)
    (linked : now.isLinked other = true)
    (dominates : graph.Dominates target other)
    (soundAbove :
      ∀ {above : Nat},
        index ≤ above →
        (now.setLink index dominator).isLinked above = true →
        graph.Dominates target above →
        target ∈ (now.setLink index dominator).ascent above) :
    target ∈ (now.setLink index dominator).ascent other := by
  have inside := sweeping.rooted.lt_size below
  have member := sweeping.sound linked dominates
  rcases DominatorTree.mem_ascent_iff.mp member with isOther | ⟨next, climbs, isAbove⟩
  · exact DominatorTree.mem_ascent_iff.mpr (.inl isOther)
  · have nextHigher := (DominatorTree.lt_of_climb?_eq_some climbs).2
    have nextLinked := (sweeping.rooted.isLinked_of_climb climbs).2
    have linkedBefore := sweeping.isLinked_before (by omega) linked
    have nextOnBefore : next ∈ before.ascent other :=
      sweeping.shrinks linkedBefore
        (DominatorTree.mem_ascent_of_climb climbs (now.self_mem_ascent next))
    have stillClimbs :
        (now.setLink index dominator).climb? other = some next := by
      rw [DominatorTree.climb?_setLink_of_ne inside dominator (by omega)]
      exact climbs
    refine DominatorTree.mem_ascent_of_climb stillClimbs ?_
    rcases Nat.lt_or_eq_of_le (DominatorTree.le_of_mem_ascent isAbove) with
        nextBelow | isNext
    · have nextDominated : graph.Dominates target next :=
        sweeping.approximates.dominates_member linkedBefore nextOnBefore
          nextBelow dominates
      by_cases stillUnvisited : next < index
      · exact sound_of_unvisited stillUnvisited nextLinked nextDominated soundAbove
      · exact soundAbove (by omega)
          ((DominatorTree.isLinked_setLink inside dominator next).mpr (.inr nextLinked))
          nextDominated
    · exact isNext ▸ DominatorTree.self_mem_ascent _ next
termination_by index - other

/-- Dominators stay on the chains of visited indices. -/
theorem sound_of_visited
    {other target : Nat}
    (isVisited : index ≤ other)
    (linked : (now.setLink index dominator).isLinked other = true)
    (dominates : graph.Dominates target other) :
    target ∈ (now.setLink index dominator).ascent other := by
  have higher := sweeping.lt_of_isNearest supported nearest
  have inside := sweeping.rooted.lt_size below
  rcases Nat.lt_or_eq_of_le isVisited with above | isIndex
  · rw [DominatorTree.isLinked_setLink inside] at linked
    rw [DominatorTree.ascent_setLink_of_lt inside dominator above]
    exact sweeping.sound (linked.resolve_left (by omega)) dominates
  · subst isIndex
    by_cases isTarget : target = index
    · exact isTarget ▸ DominatorTree.self_mem_ascent _ target
    · refine DominatorTree.mem_ascent_of_climb
        (DominatorTree.climb?_setLink_self inside higher) ?_
      rw [DominatorTree.ascent_setLink_of_lt inside dominator higher, nearest target]
      intro source isOther sourceLinked
      have isSource := (mem_others.mp isOther).1
      exact sweeping.sound sourceLinked
        (dominates.of_edge ⟨below, isSource⟩ isTarget)

/-- What is above the visited index on its new chain is on the chains of its predecessors. -/
theorem mem_ascent_source
    {source target : Nat}
    (isOther : source ∈ graph.others index)
    (linked : now.isLinked source = true)
    (member : target ∈ (now.setLink index dominator).ascent index)
    (different : target ≠ index) :
    target ∈ now.ascent source := by
  have higher := sweeping.lt_of_isNearest supported nearest
  have inside := sweeping.rooted.lt_size below
  have onDominator :=
    DominatorTree.mem_ascent_of_ne
      (DominatorTree.climb?_setLink_self inside higher) member different
  rw [DominatorTree.ascent_setLink_of_lt inside dominator higher] at onDominator
  exact (nearest target).mp onDominator source isOther linked

/-- What is on the chains of all predecessors of a visited index is on its chain. -/
theorem covers_setLink
    {other target : Nat}
    (isVisited : index ≤ other)
    (belowRoot : other < graph.root)
    (onAll :
      ∀ source ∈ graph.others other,
        (now.setLink index dominator).isLinked source = true →
        target ∈ (now.setLink index dominator).ascent source) :
    target ∈ (now.setLink index dominator).ascent other := by
  have higher := sweeping.lt_of_isNearest supported nearest
  have inside := sweeping.rooted.lt_size below
  have onAllNow :
      ∀ source ∈ graph.others other,
        now.isLinked source = true → target ∈ now.ascent source := by
    intro source isOther linked
    exact sweeping.mem_ascent_of_setLink supported nearest below linked
      (onAll source isOther
        ((DominatorTree.isLinked_setLink inside dominator source).mpr (.inr linked)))
  rcases Nat.lt_or_eq_of_le isVisited with above | isIndex
  · rw [DominatorTree.ascent_setLink_of_lt inside dominator above]
    exact sweeping.covers above belowRoot onAllNow
  · subst isIndex
    refine DominatorTree.mem_ascent_of_climb
      (DominatorTree.climb?_setLink_self inside higher) ?_
    rw [DominatorTree.ascent_setLink_of_lt inside dominator higher]
    exact (nearest target).mpr onAllNow

/-- A visit carries a pass on by one index. -/
theorem visit : graph.Sweeping before (now.setLink index dominator) index := by
  have higher := sweeping.lt_of_isNearest supported nearest
  have dominatorLinked := sweeping.isLinked_of_isNearest supported nearest
  have inside := sweeping.rooted.lt_size below
  have sameAbove
      {other : Nat}
      (above : index < other) :
      (now.setLink index dominator).ascent other = now.ascent other :=
    DominatorTree.ascent_setLink_of_lt inside dominator above
  refine
    { approximates := sweeping.approximates
      rooted := sweeping.rooted.setLink below higher dominatorLinked
      supported := ?_
      visited := ?_
      unvisited := ?_
      shrinks := ?_
      forward := ?_
      covers := ?_
      sound := ?_
      backward := ?_ }
  · intro other isVisited belowRoot
    rcases Nat.lt_or_eq_of_le isVisited with above | isIndex
    · exact sweeping.supported above belowRoot
    · exact isIndex ▸ supported
  · intro other isVisited isInside
    rw [DominatorTree.isLinked_setLink inside]
    rcases Nat.lt_or_eq_of_le isVisited with above | isIndex
    · exact .inr (sweeping.visited above isInside)
    · exact .inl isIndex.symm
  · intro other isUnvisited
    rw [DominatorTree.link?_setLink inside, if_neg (by omega)]
    exact sweeping.unvisited (by omega)
  · intro other target linked member
    exact sweeping.shrinks linked
      (sweeping.mem_ascent_of_setLink supported nearest below
        (sweeping.isLinked_of_before linked) member)
  · intro other source target isVisited belowRoot isSource sourceHigher member different
    rw [sameAbove (by omega)]
    rcases Nat.lt_or_eq_of_le isVisited with above | isIndex
    · rw [sameAbove above] at member
      exact sweeping.forward above belowRoot isSource sourceHigher member different
    · subst isIndex
      exact sweeping.mem_ascent_source supported nearest below
        (mem_others.mpr ⟨isSource, by omega⟩)
        (sweeping.visited sourceHigher (graph.inside _ _ isSource)) member different
  · intro other target isVisited belowRoot onAll
    exact sweeping.covers_setLink supported nearest below isVisited belowRoot onAll
  · intro other target linked dominates
    by_cases isVisited : index ≤ other
    · exact sweeping.sound_of_visited supported nearest below isVisited linked dominates
    · rw [DominatorTree.isLinked_setLink inside] at linked
      exact sweeping.sound_of_unvisited below (by omega)
        (linked.resolve_left (by omega)) dominates
        (sweeping.sound_of_visited supported nearest below)
  · intro other source target isVisited belowRoot isOther linked member different
    rcases Nat.lt_or_eq_of_le isVisited with above | isIndex
    · rw [sameAbove above] at member
      exact sweeping.backward above belowRoot isOther linked member different
    · subst isIndex
      exact sweeping.shrinks linked
        (sweeping.mem_ascent_source supported nearest below isOther
          (sweeping.isLinked_of_before linked) member different)

end Visit

end Sweeping

end IndexGraph

end Dominance
