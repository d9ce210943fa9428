import Mathlib.Data.List.Nodup
import Mathlib.Data.List.Infix

namespace Dominance

/-!
# Paths and what lies on all of them

A path starts at a fixed node and follows edges.  It is given with the list of
its nodes, the latest first, so that the rest of a path is the path without its
last edge.

A node dominates another when it lies on every path to it.  Two changes to the
edges do not matter for that: a path can be shortened until it repeats no node,
and edges that lead back to the start can be left out.
-/

/-- A path from a start to a node, with its nodes from the latest to the start. -/
inductive Path (edge : α → α → Prop) (start : α) : α → List α → Prop where
  | start :
      Path edge start start [start]
  | extend
      {last next : α}
      {nodes : List α} :
      Path edge start last nodes →
      edge last next →
      Path edge start next (next :: nodes)

/-- Some path leads from a start to a node. -/
def Reaches (edge : α → α → Prop) (start node : α) : Prop :=
  ∃ nodes, Path edge start node nodes

/-- A node lies on every path from a start to another node. -/
def OnEveryPath (edge : α → α → Prop) (start dominator node : α) : Prop :=
  ∀ nodes, Path edge start node nodes → dominator ∈ nodes

/-- A strict dominator that every strict dominator of the same node dominates. -/
structure IsImmediateDominator
    (edge : α → α → Prop)
    (start nearest node : α) : Prop where
  different : nearest ≠ node
  dominates : OnEveryPath edge start nearest node
  nearest :
    ∀ dominator,
      dominator ≠ node →
      OnEveryPath edge start dominator node →
      OnEveryPath edge start dominator nearest

namespace Path

variable {edge : α → α → Prop} {start node : α} {nodes : List α}

theorem node_mem (path : Path edge start node nodes) : node ∈ nodes := by
  cases path <;> simp

theorem start_mem (path : Path edge start node nodes) : start ∈ nodes := by
  induction path with
  | start => simp
  | extend _ _ inductionHypothesis => simp [inductionHypothesis]

/-- A path can be cut off at each of its nodes. -/
theorem cut
    (path : Path edge start node nodes)
    {middle : α}
    (member : middle ∈ nodes) :
    ∃ earlier, earlier <:+ nodes ∧ Path edge start middle earlier := by
  induction path with
  | start =>
      obtain rfl := List.mem_singleton.mp member
      exact ⟨_, List.suffix_refl _, .start⟩
  | @extend last next nodes path step inductionHypothesis =>
      rcases List.mem_cons.mp member with isNext | isEarlier
      · subst isNext
        exact ⟨_, List.suffix_refl _, path.extend step⟩
      · obtain ⟨earlier, isSuffix, cutPath⟩ := inductionHypothesis isEarlier
        exact ⟨earlier, isSuffix.trans (List.suffix_cons next nodes), cutPath⟩

/-- A path leads from its start to each of its nodes. -/
theorem reaches_start
    (path : Path edge start node nodes)
    {middle : α}
    (member : middle ∈ nodes) :
    Reaches edge start middle := by
  obtain ⟨earlier, _, cutPath⟩ := path.cut member
  exact ⟨earlier, cutPath⟩

/-- A path back to its start that repeats no node stays at its start. -/
theorem eq_singleton
    (path : Path edge start start nodes)
    (noRepetition : nodes.Nodup) :
    nodes = [start] := by
  cases path with
  | start => rfl
  | extend path _ => exact absurd path.start_mem (List.nodup_cons.mp noRepetition).1

/-- Only an edge leads to a node that nothing but the start leads to. -/
theorem eq_pair
    (path : Path edge start node nodes)
    (noRepetition : nodes.Nodup)
    (different : node ≠ start)
    (onlySource : ∀ last, edge last node → last = start) :
    nodes = [node, start] := by
  cases path with
  | start => exact absurd rfl different
  | @extend last _ nodes path step =>
      obtain rfl := onlySource last step
      rw [path.eq_singleton (List.nodup_cons.mp noRepetition).2]

/-- A path leads on from each of its nodes. -/
theorem reaches_of_mem
    (path : Path edge start node nodes)
    {middle : α}
    (member : middle ∈ nodes) :
    Reaches edge middle node := by
  induction path with
  | start =>
      obtain rfl := List.mem_singleton.mp member
      exact ⟨_, .start⟩
  | @extend last next nodes path step inductionHypothesis =>
      rcases List.mem_cons.mp member with isNext | isEarlier
      · subst isNext
        exact ⟨_, .start⟩
      · obtain ⟨later, laterPath⟩ := inductionHypothesis isEarlier
        exact ⟨_, laterPath.extend step⟩

/-- A path can be shortened to one that repeats no node. -/
theorem exists_nodup
    (path : Path edge start node nodes) :
    ∃ short, short ⊆ nodes ∧ short.Nodup ∧ Path edge start node short := by
  classical
  induction path with
  | start =>
      exact ⟨[start], List.Subset.refl _, List.nodup_singleton start, .start⟩
  | @extend last next nodes path step inductionHypothesis =>
      obtain ⟨short, isPart, noRepetition, shortPath⟩ := inductionHypothesis
      by_cases repeated : next ∈ short
      · obtain ⟨earlier, isSuffix, cutPath⟩ := shortPath.cut repeated
        exact ⟨earlier,
          fun _ member => List.mem_cons_of_mem next (isPart (isSuffix.subset member)),
          noRepetition.sublist isSuffix.sublist, cutPath⟩
      · exact ⟨next :: short, List.cons_subset_cons next isPart,
          List.nodup_cons.mpr ⟨repeated, noRepetition⟩, shortPath.extend step⟩

/-- A path can be shortened to one that does not come back to its start. -/
theorem exists_noReturn
    (path : Path edge start node nodes) :
    ∃ short, short ⊆ nodes ∧
      Path (fun last next => next ≠ start ∧ edge last next) start node short := by
  classical
  induction path with
  | start => exact ⟨[start], List.Subset.refl _, .start⟩
  | @extend last next nodes path step inductionHypothesis =>
      obtain ⟨short, isPart, shortPath⟩ := inductionHypothesis
      by_cases isStart : next = start
      · subst isStart
        exact ⟨[next], by simp, .start⟩
      · exact ⟨next :: short, List.cons_subset_cons next isPart,
          shortPath.extend ⟨isStart, step⟩⟩

/--
A map that keeps the edges into known nodes maps paths to known nodes.

Knowing a node is assumed to imply knowing the nodes before it, so that the whole
path is known.
-/
theorem mapKnown
    {target : β → β → Prop}
    (known : α → Prop)
    (rename : α → β)
    (keeps :
      ∀ last next,
        known next →
        edge last next →
        known last ∧ target (rename last) (rename next))
    (path : Path edge start node nodes)
    (isKnown : known node) :
    Path target (rename start) (rename node) (nodes.map rename) ∧
      ∀ member ∈ nodes, known member := by
  induction path with
  | start => exact ⟨.start, by simpa using isKnown⟩
  | @extend last next nodes path step inductionHypothesis =>
      obtain ⟨lastKnown, renamedStep⟩ := keeps last next isKnown step
      obtain ⟨renamedPath, nodesKnown⟩ := inductionHypothesis lastKnown
      refine ⟨renamedPath.extend renamedStep, ?_⟩
      intro member isMember
      rcases List.mem_cons.mp isMember with isNext | isEarlier
      · exact isNext ▸ isKnown
      · exact nodesKnown member isEarlier

/-- A map that keeps the edges maps paths. -/
theorem map
    {target : β → β → Prop}
    (rename : α → β)
    (keeps : ∀ last next, edge last next → target (rename last) (rename next))
    (path : Path edge start node nodes) :
    Path target (rename start) (rename node) (nodes.map rename) :=
  (path.mapKnown (fun _ => True) rename
    (fun last next _ step => ⟨trivial, keeps last next step⟩) trivial).1

/-- A path stays one if there are more edges. -/
theorem weaken
    {more : α → α → Prop}
    (included : ∀ last next, edge last next → more last next)
    (path : Path edge start node nodes) :
    Path more start node nodes := by
  induction path with
  | start => exact .start
  | extend _ step inductionHypothesis =>
      exact inductionHypothesis.extend (included _ _ step)

end Path

/-- Paths can be put together. -/
theorem Reaches.trans
    {edge : α → α → Prop}
    {first second third : α}
    (earlier : Reaches edge first second)
    (later : Reaches edge second third) :
    Reaches edge first third := by
  obtain ⟨nodes, path⟩ := later
  induction path with
  | start => exact earlier
  | extend _ step inductionHypothesis =>
      obtain ⟨joined, joinedPath⟩ := inductionHypothesis
      exact ⟨_, joinedPath.extend step⟩

namespace OnEveryPath

variable {edge : α → α → Prop} {start dominator node : α}

/-- What lies on every path to a node, other than the node, lies on every path to its predecessors. -/
theorem of_edge
    {previous : α}
    (always : OnEveryPath edge start dominator node)
    (step : edge previous node)
    (different : dominator ≠ node) :
    OnEveryPath edge start dominator previous := by
  intro nodes path
  rcases List.mem_cons.mp (always _ (path.extend step)) with isNode | isEarlier
  · exact (different isNode).elim
  · exact isEarlier

/-- Edges back to the start do not matter. -/
theorem noReturn_iff :
    OnEveryPath (fun last next => next ≠ start ∧ edge last next) start dominator node ↔
      OnEveryPath edge start dominator node := by
  constructor
  · intro always nodes path
    obtain ⟨short, isPart, shortPath⟩ := path.exists_noReturn
    exact isPart (always short shortPath)
  · intro always nodes path
    exact always nodes (path.weaken fun _ _ step => step.2)

/-- It is enough to look at the paths that repeat no node. -/
theorem of_nodup
    (always :
      ∀ nodes, nodes.Nodup → Path edge start node nodes → dominator ∈ nodes) :
    OnEveryPath edge start dominator node := by
  intro nodes path
  obtain ⟨short, isPart, noRepetition, shortPath⟩ := path.exists_nodup
  exact isPart (always short noRepetition shortPath)

end OnEveryPath

end Dominance
