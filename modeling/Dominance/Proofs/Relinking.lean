import Dominance.Build.Pass
import Dominance.Proofs.Visit

namespace Dominance

/-!
# What a pass does to any rooted tree

A pass links the indices from the highest down, each to the nearest of its predecessors.
When an index is visited the higher ones have their new links, while it and the lower ones
still have the old ones.  The new chain of the index therefore holds what the chains of
all its predecessors hold in a tree that is partly new and partly old.

Nothing is assumed of the tree but that it is rooted.  It may be left over from passes on
other predecessors, and its chains need not hold what dominates their indices.
-/

namespace DominatorTree

/-- A chain is the same in trees that agree on the links of its members. -/
theorem ascent_eq_of_links
    {first second : DominatorTree}
    {index : Nat}
    (agree : ∀ member ∈ first.ascent index, second.link? member = first.link? member) :
    second.ascent index = first.ascent index := by
  fun_induction first.ascent index with
  | case1 index ends =>
      have sameLink := agree index List.mem_cons_self
      rw [climb?, ← sameLink] at ends
      exact ascent_of_ends ends
  | case2 index dominator climbs inductionHypothesis =>
      have sameLink := agree index List.mem_cons_self
      rw [climb?, ← sameLink] at climbs
      rw [ascent_of_climbs climbs, inductionHypothesis fun member isMember =>
        agree member (List.mem_cons_of_mem index isMember)]

end DominatorTree

namespace IndexGraph

variable {graph : IndexGraph} {before now midway : DominatorTree} {index : Nat}

/-- A tree in which the indices above one have their new links, and no others do. -/
structure Midway
    (graph : IndexGraph)
    (before now : DominatorTree)
    (index : Nat)
    (midway : DominatorTree) : Prop where
  rooted : midway.Rooted graph.root
  link?_eq :
    ∀ other,
      midway.link? other = if index < other then now.link? other else before.link? other

/-- A pass over a tree that has linked the indices from a bound on. -/
structure Relinking
    (graph : IndexGraph)
    (before now : DominatorTree)
    (bound : Nat) : Prop where
  rooted : now.Rooted graph.root
  waiting : ∀ index < bound, now.link? index = before.link? index
  visited :
    ∀ index,
      bound ≤ index →
      index < graph.root →
      ∃ midway dominator,
        graph.Midway before now index midway ∧
          midway.IsNearest (graph.others index) dominator ∧
            index < dominator ∧ now.link? index = some dominator

/-- A pass starts without any new link. -/
theorem relinking_root (rooted : before.Rooted graph.root) :
    graph.Relinking before before graph.root where
  rooted := rooted
  waiting := fun _ _ => rfl
  visited := fun _ above below => absurd below (Nat.not_lt.mpr above)

/-- A visit links one more index. -/
theorem Relinking.visit
    {dominator : Nat}
    (relinking : graph.Relinking before now (index + 1))
    (below : index < graph.root)
    (nearest : now.IsNearest (graph.others index) dominator)
    (linked : now.isLinked dominator = true)
    (higher : index < dominator) :
    graph.Relinking before (now.setLink index dominator) index := by
  have inside := relinking.rooted.lt_size below
  have otherLink
      {other : Nat}
      (different : other ≠ index) :
      (now.setLink index dominator).link? other = now.link? other := by
    rw [DominatorTree.link?_setLink inside, if_neg different]
  refine ⟨relinking.rooted.setLink below higher linked, ?_, ?_⟩
  · intro other isWaiting
    rw [otherLink (Nat.ne_of_lt isWaiting)]
    exact relinking.waiting other (Nat.lt_succ_of_lt isWaiting)
  · intro other notBelow belowRoot
    rcases Nat.lt_or_eq_of_le notBelow with above | isIndex
    · obtain ⟨midway, target, isMidway, isNearest, targetHigher, recorded⟩ :=
        relinking.visited other above belowRoot
      refine ⟨midway, target, ⟨isMidway.rooted, ?_⟩, isNearest, targetHigher, ?_⟩
      · intro member
        rw [isMidway.link?_eq member]
        by_cases isNew : other < member
        · rw [if_pos isNew, if_pos isNew,
            otherLink (Nat.ne_of_gt (Nat.lt_trans above isNew))]
        · rw [if_neg isNew, if_neg isNew]
      · rw [otherLink (Nat.ne_of_gt above)]
        exact recorded
    · subst isIndex
      refine ⟨now, dominator, ⟨relinking.rooted, ?_⟩, nearest, higher, ?_⟩
      · intro member
        by_cases isNew : index < member
        · rw [if_pos isNew, otherLink (Nat.ne_of_gt isNew)]
        · rw [if_neg isNew]
          exact relinking.waiting member (Nat.lt_succ_of_le (Nat.le_of_not_lt isNew))
      · rw [DominatorTree.link?_setLink inside, if_pos rfl]

/-! ## Complete passes -/

/-- Above the index the chains are those of the tree after the pass. -/
theorem Midway.ascent_of_lt
    {other : Nat}
    (isMidway : graph.Midway before now index midway)
    (above : index < other) :
    midway.ascent other = now.ascent other := by
  apply DominatorTree.ascent_congr
  intro higher isAbove
  rw [DominatorTree.climb?, isMidway.link?_eq, if_pos (Nat.lt_of_lt_of_le above isAbove),
    DominatorTree.climb?]

/-- A pass links everything. -/
theorem Relinking.isLinked
    (relinking : graph.Relinking before now 0)
    (inside : index ≤ graph.root) :
    now.isLinked index = true := by
  rcases Nat.lt_or_eq_of_le inside with below | isRoot
  · obtain ⟨_, dominator, _, _, _, recorded⟩ :=
      relinking.visited index (Nat.zero_le index) below
    exact DominatorTree.isLinked_iff.mpr ⟨dominator, recorded⟩
  · exact isRoot ▸ relinking.rooted.root_isLinked

/-- All indices stay linked midway. -/
theorem Midway.isLinked
    {other : Nat}
    (isMidway : graph.Midway before now index midway)
    (relinking : graph.Relinking before now 0)
    (complete : ∀ index ≤ graph.root, before.isLinked index = true)
    (inside : other ≤ graph.root) :
    midway.isLinked other = true := by
  rw [DominatorTree.isLinked, isMidway.link?_eq]
  split
  · exact relinking.isLinked inside
  · exact complete other inside

/-- The new chain of an index holds what the chains of its predecessors share midway. -/
theorem Relinking.exists_midway
    (relinking : graph.Relinking before now 0)
    (complete : ∀ index ≤ graph.root, before.isLinked index = true)
    (below : index < graph.root) :
    ∃ midway,
      graph.Midway before now index midway ∧
        ∀ target,
          target ∈ now.ascent index ↔
            target = index ∨
              ∀ source ∈ graph.others index, target ∈ midway.ascent source := by
  obtain ⟨midway, dominator, isMidway, nearest, higher, recorded⟩ :=
    relinking.visited index (Nat.zero_le index) below
  refine ⟨midway, isMidway, ?_⟩
  intro target
  have climbs : now.climb? index = some dominator :=
    Option.filter_eq_some_iff.mpr ⟨recorded, decide_eq_true higher⟩
  rw [DominatorTree.ascent_of_climbs climbs, List.mem_cons, ← isMidway.ascent_of_lt higher,
    nearest target]
  refine or_congr_right (forall₂_congr fun source isOther => ?_)
  have linked :=
    isMidway.isLinked relinking complete (graph.inside index source (mem_others.mp isOther).1)
  exact forall_prop_of_true linked

/-- What the new chain of an index holds is on the new chains of higher predecessors. -/
theorem Relinking.forward
    {source target : Nat}
    (relinking : graph.Relinking before now 0)
    (complete : ∀ index ≤ graph.root, before.isLinked index = true)
    (edge : graph.Edge source index)
    (higher : index < source)
    (member : target ∈ now.ascent index)
    (different : target ≠ index) :
    target ∈ now.ascent source := by
  obtain ⟨midway, isMidway, mem_iff⟩ := relinking.exists_midway complete edge.1
  rcases (mem_iff target).mp member with isIndex | onAll
  · exact absurd isIndex different
  · rw [← isMidway.ascent_of_lt higher]
    exact onAll source (mem_others.mpr ⟨edge.2, Nat.ne_of_gt higher⟩)

end IndexGraph

namespace Progress

/-- A pass under way over any rooted tree, with the indices from a bound on visited. -/
structure Passing
    (host : Host)
    (before : Progress)
    (bound : Nat)
    (progress : Progress) : Prop where
  passes_eq : progress.passes = before.passes
  order_eq : progress.tree.order = before.tree.order
  tree_passes_eq : progress.tree.passes = before.tree.passes
  relinking :
    (host.indexGraph before.passes before.tree).Relinking before.tree progress.tree bound
  changed_iff :
    progress.changed = true ↔
      ∃ index, progress.tree.link? index ≠ before.tree.link? index

namespace Passing

variable {host : Host} {before progress : Progress}

theorem start
    (rooted : before.tree.Rooted (host.indexGraph before.passes before.tree).root) :
    Passing host before (host.indexGraph before.passes before.tree).root
      { before with changed := false } where
  passes_eq := rfl
  order_eq := rfl
  tree_passes_eq := rfl
  relinking := IndexGraph.relinking_root rooted
  changed_iff := by simp

/-- A visit that succeeds carries the pass on. -/
theorem visit
    {index : Nat}
    {next : Progress}
    (passing : Passing host before (index + 1) progress)
    (below : index < (host.indexGraph before.passes before.tree).root)
    (visited : progress.visit host index = .ok next) :
    Passing host before index next := by
  have relinking := passing.relinking
  have sameGraph :
      host.indexGraph progress.passes progress.tree =
        host.indexGraph before.passes before.tree :=
    Host.indexGraph_congr (congrArg host.predecessors passing.passes_eq) passing.order_eq
  obtain ⟨dominator, _, nearest, linked, higher, rfl⟩ :=
    exists_link_of_visit relinking.rooted visited
  rw [sameGraph] at nearest
  refine ⟨?_, ?_, ?_, ?_, ?_⟩
  · rw [passes_link]
    exact passing.passes_eq
  · rw [tree_link]
    exact passing.order_eq
  · rw [tree_link]
    exact passing.tree_passes_eq
  · rw [tree_link]
    exact relinking.visit below nearest linked higher
  · have inside := relinking.rooted.lt_size below
    have sameLink := relinking.waiting index (Nat.lt_succ_self index)
    rw [changed_link_iff, tree_link]
    show progress.changed = true ∨ progress.tree.link? index ≠ some dominator ↔
      ∃ other, (progress.tree.setLink index dominator).link? other ≠ before.tree.link? other
    by_cases recorded : progress.tree.link? index = some dominator
    · rw [DominatorTree.setLink_eq_self recorded]
      simpa [recorded] using passing.changed_iff
    · refine ⟨fun _ => ⟨index, ?_⟩, fun _ => .inr recorded⟩
      rw [DominatorTree.link?_setLink inside, if_pos rfl, ← sameLink]
      exact fun same => recorded same.symm

/-- A sweep that succeeds visits everything. -/
theorem sweep
    {bound : Nat}
    {final : Progress}
    (passing : Passing host before bound progress)
    (inside : bound ≤ (host.indexGraph before.passes before.tree).root)
    (swept : progress.sweep host bound = .ok final) :
    Passing host before 0 final := by
  induction bound generalizing progress with
  | zero =>
      cases swept
      exact passing
  | succ index inductionHypothesis =>
      rw [Progress.sweep] at swept
      split at swept
      · cases swept
      · rename_i visited
        exact inductionHypothesis (passing.visit inside visited)
          (Nat.le_of_succ_le inside) swept

end Passing

/-- All that a pass does if it succeeds, whatever the tree was. -/
structure Passes (host : Host) (before now : Progress) : Prop where
  passes_eq : now.passes = before.passes + 1
  order_eq : now.tree.order = before.tree.order
  tree_passes_eq : now.tree.passes = before.tree.passes
  relinking :
    (host.indexGraph before.passes before.tree).Relinking before.tree now.tree 0
  changed_iff :
    now.changed = true ↔ ∃ index, now.tree.link? index ≠ before.tree.link? index

/-- A pass over a rooted tree relinks it. -/
theorem passes_of_rooted
    {host : Host}
    {before now : Progress}
    (rooted : before.tree.Rooted (host.indexGraph before.passes before.tree).root)
    (passed : before.pass host = .ok now) :
    Passes host before now := by
  rw [pass] at passed
  split at passed
  · cases passed
  · rename_i swept
    cases passed
    have passing := (Passing.start rooted).sweep (Nat.le_refl _) swept
    exact ⟨congrArg (· + 1) passing.passes_eq, passing.order_eq, passing.tree_passes_eq,
      passing.relinking, passing.changed_iff⟩

end Progress

end Dominance
