import Dominance.Proofs.Descent

namespace Dominance

/-!
# How many passes are needed

An edge retreats if it leads to a higher index.  Every pass sees through one more
retreating edge: after some passes a chain holds only what lies on all the paths
to its index that retreat less often than that.  A path that repeats no node
retreats less often than there are indices below the root, since its first edge
leaves the root.  So the chains are exact after as many passes as that, and from
then on a pass changes nothing.
-/

/-- How often a path retreats, given its nodes with the latest first. -/
def retreats : List Nat → Nat
  | later :: earlier :: rest =>
      (if earlier < later then 1 else 0) + retreats (earlier :: rest)
  | _ => 0

namespace IndexGraph

variable {graph : IndexGraph}

/-- One step more retreats if it leads to a higher index. -/
theorem retreats_extend
    {start last : Nat}
    {nodes : List Nat}
    (path : Path graph.Edge start last nodes)
    (next : Nat) :
    retreats (next :: nodes) = (if last < next then 1 else 0) + retreats nodes := by
  cases path <;> rfl

/-- If every index has a higher predecessor, the root reaches every index from above. -/
theorem exists_path_above
    (supported : ∀ index < graph.root, graph.Supported index)
    {index : Nat}
    (inside : index ≤ graph.root) :
    ∃ nodes, Path graph.Edge graph.root index nodes ∧ ∀ node ∈ nodes, index ≤ node := by
  rcases Nat.lt_or_eq_of_le inside with below | isRoot
  · obtain ⟨source, isSource, higher⟩ := supported index below
    obtain ⟨nodes, path, above⟩ :=
      exists_path_above supported (graph.inside index source isSource)
    refine ⟨index :: nodes, path.extend ⟨below, isSource⟩, ?_⟩
    intro node member
    rcases List.mem_cons.mp member with isIndex | earlier
    · exact Nat.le_of_eq isIndex.symm
    · exact Nat.le_trans (Nat.le_of_lt higher) (above node earlier)
  · subst isRoot
    exact ⟨[graph.root], .start, by simp⟩
termination_by graph.root - index

/-- If every index is supported, a path leads to each of them. -/
theorem exists_path
    (supported : ∀ index < graph.root, graph.Supported index)
    {index : Nat}
    (inside : index ≤ graph.root) :
    ∃ nodes, Path graph.Edge graph.root index nodes := by
  obtain ⟨nodes, path, _⟩ := exists_path_above supported inside
  exact ⟨nodes, path⟩

/-- A path from the root does not lead above it. -/
theorem le_root_of_mem_path
    {index : Nat}
    {nodes : List Nat}
    (path : Path graph.Edge graph.root index nodes) :
    ∀ node ∈ nodes, node ≤ graph.root := by
  induction path with
  | start => simp
  | @extend last next nodes path edge inductionHypothesis =>
      intro node member
      rcases List.mem_cons.mp member with isNext | isEarlier
      · exact isNext ▸ Nat.le_of_lt edge.1
      · exact inductionHypothesis node isEarlier

/-- The first edge of a path that does not come back to the root does not retreat. -/
theorem retreats_add_two_le
    {index : Nat}
    {nodes : List Nat}
    (path : Path graph.Edge graph.root index nodes)
    (noRepetition : nodes.Nodup) :
    nodes = [graph.root] ∨ retreats nodes + 2 ≤ nodes.length := by
  induction path with
  | start => exact .inl rfl
  | @extend last next nodes path edge inductionHypothesis =>
      right
      have below := edge.1
      rw [retreats_extend path]
      rcases inductionHypothesis (List.nodup_cons.mp noRepetition).2 with atRoot | longer
      · subst atRoot
        have isRoot : last = graph.root := List.mem_singleton.mp path.node_mem
        have forward : ¬ last < next := by omega
        simp [forward, retreats]
      · simp only [List.length_cons]
        split <;> omega

/-- A path without repetition has no more nodes than there are indices. -/
theorem length_le_of_nodup
    {index : Nat}
    {nodes : List Nat}
    (path : Path graph.Edge graph.root index nodes)
    (noRepetition : nodes.Nodup) :
    nodes.length ≤ graph.root + 1 := by
  rw [← List.length_range (n := graph.root + 1)]
  refine noRepetition.length_le_of_subset ?_
  intro node member
  exact List.mem_range.mpr (Nat.lt_succ_of_le (le_root_of_mem_path path node member))

/-- A path without repetition retreats less often than there are indices below the root. -/
theorem retreats_lt_root
    {index : Nat}
    {nodes : List Nat}
    (path : Path graph.Edge graph.root index nodes)
    (noRepetition : nodes.Nodup)
    (notRoot : index ≠ graph.root) :
    retreats nodes < graph.root := by
  have short := length_le_of_nodup path noRepetition
  rcases retreats_add_two_le path noRepetition with atRoot | longer
  · subst atRoot
    exact (notRoot (List.mem_singleton.mp path.node_mem)).elim
  · omega

/-- Chains hold only what lies on all paths that retreat less often than a bound. -/
def ResolvedUpTo
    (graph : IndexGraph)
    (tree : DominatorTree)
    (bound : Nat) : Prop :=
  ∀ {index : Nat} {nodes : List Nat},
    Path graph.Edge graph.root index nodes →
    retreats nodes < bound →
    tree.isLinked index = true ∧ ∀ target ∈ tree.ascent index, target ∈ nodes

/-- A pass sees through one more retreating edge. -/
theorem Sweeping.resolvedUpTo_succ
    {before now : DominatorTree}
    {bound : Nat}
    (sweeping : graph.Sweeping before now 0)
    (resolved : graph.ResolvedUpTo before bound) :
    graph.ResolvedUpTo now (bound + 1) := by
  intro index nodes path fewRetreats
  induction path with
  | start =>
      refine ⟨sweeping.rooted.root_isLinked, ?_⟩
      intro target member
      exact List.mem_singleton.mpr
        (DominatorTree.eq_of_mem_ascent sweeping.rooted.climb?_root member)
  | @extend last next nodes path edge inductionHypothesis =>
      obtain ⟨below, isSource⟩ := edge
      refine ⟨sweeping.visited (Nat.zero_le next) (Nat.le_of_lt below), ?_⟩
      intro target member
      rw [retreats_extend path] at fewRetreats
      by_cases isNext : target = next
      · exact isNext ▸ List.mem_cons_self
      refine List.mem_cons_of_mem next ?_
      rcases Nat.lt_trichotomy last next with retreating | loop | forward
      -- The chain of the lower end may have changed since, but not grown.
      · rw [if_pos retreating] at fewRetreats
        obtain ⟨lastLinked, onNodes⟩ := resolved path (by omega)
        exact onNodes target
          (sweeping.backward (Nat.zero_le next) below
            (mem_others.mpr ⟨isSource, by omega⟩) lastLinked member isNext)
      · subst loop
        exact (inductionHypothesis (by omega)).2 target member
      · exact (inductionHypothesis (by omega)).2 target
          (sweeping.forward (Nat.zero_le next) below isSource forward member isNext)

/-- A chain that sees through every path without repetition holds dominators only. -/
theorem ResolvedUpTo.dominates
    {tree : DominatorTree}
    {bound index target : Nat}
    (resolved : graph.ResolvedUpTo tree bound)
    (few :
      ∀ nodes, nodes.Nodup → Path graph.Edge graph.root index nodes → retreats nodes < bound)
    (member : target ∈ tree.ascent index) :
    graph.Dominates target index := by
  refine OnEveryPath.of_nodup ?_
  intro nodes noRepetition path
  exact (resolved path (few nodes noRepetition path)).2 target member

/-- Chains that go on among the members of the chains of all predecessors hold dominators only. -/
theorem dominates_of_closed
    {tree : DominatorTree}
    (rooted : tree.Rooted graph.root)
    (closed :
      ∀ {index source target : Nat},
        index < graph.root →
        source ∈ graph.others index →
        target ∈ tree.ascent index →
        target ≠ index →
        target ∈ tree.ascent source)
    {index target : Nat}
    (member : target ∈ tree.ascent index) :
    graph.Dominates target index := by
  intro nodes path
  induction path with
  | start =>
      exact List.mem_singleton.mpr
        (DominatorTree.eq_of_mem_ascent rooted.climb?_root member)
  | @extend last next nodes path edge inductionHypothesis =>
      by_cases isNext : target = next
      · exact isNext ▸ List.mem_cons_self
      refine List.mem_cons_of_mem next (inductionHypothesis ?_)
      by_cases loop : last = next
      · exact loop ▸ member
      · exact closed edge.1 (mem_others.mpr ⟨edge.2, loop⟩) member isNext

/-- A pass that changed nothing leaves exact chains. -/
theorem Sweeping.mem_ascent_iff_of_unchanged
    {before now : DominatorTree}
    (sweeping : graph.Sweeping before now 0)
    (unchanged : ∀ index, now.link? index = before.link? index)
    {index target : Nat}
    (inside : index ≤ graph.root) :
    target ∈ now.ascent index ↔ graph.Dominates target index := by
  have sameLinks : now.link? = before.link? := funext unchanged
  have sameChain (index : Nat) : now.ascent index = before.ascent index :=
    DominatorTree.ascent_congr fun higher _ => by
      rw [DominatorTree.climb?, sameLinks, DominatorTree.climb?]
  constructor
  · intro member
    refine dominates_of_closed sweeping.rooted ?_ member
    intro lower source target below isOther onLower different
    have sourceInside := graph.inside lower source (mem_others.mp isOther).1
    have sourceLinked : before.isLinked source = true := by
      rw [DominatorTree.isLinked, ← unchanged source]
      exact sweeping.visited (Nat.zero_le source) sourceInside
    rw [sameChain source]
    exact sweeping.backward (Nat.zero_le lower) below isOther sourceLinked
      onLower different
  · exact sweeping.sound (sweeping.visited (Nat.zero_le index) inside)

/-- The link of an index is known from the members of its chain. -/
theorem link?_eq_of_ascent
    {first second : DominatorTree}
    {root index : Nat}
    (firstRooted : first.Rooted root)
    (secondRooted : second.Rooted root)
    (firstLinked : first.isLinked index = true)
    (secondLinked : second.isLinked index = true)
    (below : index < root)
    (agree : ∀ target, target ∈ first.ascent index ↔ target ∈ second.ascent index) :
    first.link? index = second.link? index := by
  obtain ⟨firstLink, firstRecorded, firstClimbs, _⟩ :=
    firstRooted.exists_climb firstLinked below
  obtain ⟨secondLink, secondRecorded, secondClimbs, _⟩ :=
    secondRooted.exists_climb secondLinked below
  have firstHigher := (DominatorTree.lt_of_climb?_eq_some firstClimbs).2
  have secondHigher := (DominatorTree.lt_of_climb?_eq_some secondClimbs).2
  have firstOnSecond : firstLink ∈ second.ascent secondLink :=
    DominatorTree.mem_ascent_of_ne secondClimbs
      ((agree firstLink).mp
        (DominatorTree.mem_ascent_of_climb firstClimbs (first.self_mem_ascent firstLink)))
      (by omega)
  have secondOnFirst : secondLink ∈ first.ascent firstLink :=
    DominatorTree.mem_ascent_of_ne firstClimbs
      ((agree secondLink).mpr
        (DominatorTree.mem_ascent_of_climb secondClimbs
          (second.self_mem_ascent secondLink)))
      (by omega)
  rw [firstRecorded, secondRecorded,
    Nat.le_antisymm (DominatorTree.le_of_mem_ascent secondOnFirst)
      (DominatorTree.le_of_mem_ascent firstOnSecond)]

/-- A pass over a chain that holds dominators only does not change its link. -/
theorem Sweeping.link?_eq_of_dominates
    {before now : DominatorTree}
    (sweeping : graph.Sweeping before now 0)
    {index : Nat}
    (inside : index ≤ graph.root)
    (wasLinked : before.isLinked index = true)
    (dominated : ∀ target ∈ before.ascent index, graph.Dominates target index) :
    now.link? index = before.link? index := by
  rcases Nat.lt_or_eq_of_le inside with below | isRoot
  · have linked := sweeping.visited (Nat.zero_le index) inside
    refine link?_eq_of_ascent sweeping.rooted sweeping.approximates.rooted
      linked wasLinked below ?_
    intro target
    constructor
    · exact sweeping.shrinks wasLinked
    · intro member
      exact sweeping.sound linked (dominated target member)
  · rw [isRoot, sweeping.rooted.root_link, sweeping.approximates.rooted.root_link]

/-- A pass over chains that see through every path changes no link. -/
theorem Sweeping.link?_eq_of_resolvedUpTo
    {before now : DominatorTree}
    (sweeping : graph.Sweeping before now 0)
    (complete : ∀ index ≤ graph.root, before.isLinked index = true)
    (resolved : graph.ResolvedUpTo before graph.root)
    {index : Nat}
    (inside : index ≤ graph.root) :
    now.link? index = before.link? index := by
  rcases Nat.lt_or_eq_of_le inside with below | isRoot
  · refine sweeping.link?_eq_of_dominates inside (complete index inside) ?_
    intro target member
    refine resolved.dominates ?_ member
    intro nodes noRepetition path
    exact retreats_lt_root path noRepetition (Nat.ne_of_lt below)
  · rw [isRoot, sweeping.rooted.root_link, sweeping.approximates.rooted.root_link]

/-- A tree whose chains are exactly the dominators of their indices. -/
structure Describes (graph : IndexGraph) (tree : DominatorTree) : Prop where
  rooted : tree.Rooted graph.root
  complete : ∀ index ≤ graph.root, tree.isLinked index = true
  exact :
    ∀ index ≤ graph.root,
      ∀ target,
        target ∈ tree.ascent index ↔ graph.Dominates target index

end IndexGraph

end Dominance
