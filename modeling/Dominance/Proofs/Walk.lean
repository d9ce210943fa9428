import Mathlib.Data.List.Basic
import Dominance.Proofs.Path
import Dominance.Walk

namespace Dominance.Digraph

/-!
# What a depth-first walk visits

A walk marks a node when it is entered, and from then on the node is either on the
stack, to be left, or finished; it is never both.  Whatever a marked node leads to
is marked or on the stack, so in the end nothing that can be reached is missing.

On the stack each node stands above a node that leads to it.  It is therefore left
first, and this is how the walk orders its nodes: every node but the start is left
before one of its predecessors.
-/

/-- An edge that does not lead out of the graph. -/
def Edge (graph : Digraph) (source target : Nat) : Prop :=
  target ∈ graph.successors source ∧ target < graph.size

/-- The node that is entered or left. -/
def Frame.node : Frame → Nat
  | .enter node => node
  | .leave node => node

/-- Each node on a stack is the start or a successor of a node that is left further down. -/
def Supported (graph : Digraph) (start : Nat) : List Frame → Prop
  | [] => True
  | frame :: rest =>
      (frame.node = start ∨
        ∃ parent, .leave parent ∈ rest ∧ frame.node ∈ graph.successors parent) ∧
        graph.Supported start rest

/-- A node that the walk has to visit: the start or a successor of a marked node. -/
def Wanted
    (graph : Digraph)
    (start : Nat)
    (marked : Array Bool)
    (node : Nat) : Prop :=
  node = start ∨
    ∃ source < graph.size,
      isMarked marked source = true ∧ node ∈ graph.successors source

/-- The state of a walk. -/
structure Walking
    (graph : Digraph)
    (start : Nat)
    (marked : Array Bool)
    (finished : List Nat)
    (stack : List Frame) : Prop where
  size_eq : marked.size = graph.size
  once :
    ∀ node,
      finished.count node + stack.count (.leave node) =
        if node < graph.size ∧ isMarked marked node = true then 1 else 0
  known :
    ∀ node,
      graph.Wanted start marked node →
      isMarked marked node = true ∨ .enter node ∈ stack
  reached :
    ∀ node < graph.size,
      isMarked marked node = true →
      Reaches graph.Edge start node
  supported : graph.Supported start stack
  followed :
    ∀ node ∈ finished,
      node = start ∨
        ∃ parent,
          node ∈ graph.successors parent ∧
            (.leave parent ∈ stack ∨ [parent, node].Sublist finished)

theorem lt_size_of_isMarked_eq_false
    {marked : Array Bool}
    {node : Nat}
    (new : isMarked marked node = false) :
    node < marked.size := by
  apply Nat.lt_of_not_le
  intro outside
  simp [isMarked, Array.getD_eq_getD_getElem?, Array.getElem?_eq_none outside] at new

theorem isMarked_mark_eq_true_iff
    {marked : Array Bool}
    {node other : Nat} :
    isMarked (mark marked node) other = true ↔
      isMarked marked other = true ∨ other = node := by
  rw [isMarked_mark, Bool.or_eq_true, decide_eq_true_eq]

/-- Marking a node adds its successors to the nodes that the walk has to visit. -/
theorem Wanted.of_mark
    {graph : Digraph}
    {start node other : Nat}
    {marked : Array Bool}
    (wanted : graph.Wanted start (mark marked node) other) :
    graph.Wanted start marked other ∨ other ∈ graph.successors node := by
  rcases wanted with isStart | ⟨source, inside, sourceMarked, isSuccessor⟩
  · exact .inl (.inl isStart)
  · rcases isMarked_mark_eq_true_iff.mp sourceMarked with before | isNode
    · exact .inl (.inr ⟨source, inside, before, isSuccessor⟩)
    · exact .inr (isNode ▸ isSuccessor)

/-- The successors of a node are supported by the frame that leaves it. -/
theorem supported_enter
    {graph : Digraph}
    {start node : Nat}
    {rest : List Frame}
    (supported : graph.Supported start (.enter node :: rest))
    {successors : List Nat}
    (included : successors ⊆ graph.successors node) :
    graph.Supported start (successors.map .enter ++ .leave node :: rest) := by
  induction successors with
  | nil => exact supported
  | cons first later inductionHypothesis =>
      rw [List.cons_subset] at included
      exact ⟨.inr ⟨node, by simp, included.1⟩, inductionHypothesis included.2⟩

namespace Walking

variable {graph : Digraph} {start node : Nat} {marked : Array Bool} {finished : List Nat}
  {rest stack : List Frame}

/-- A walk starts with nothing but its first node on the stack. -/
theorem begin
    (graph : Digraph)
    (start : Nat) :
    graph.Walking start (Array.replicate graph.size false) [] [.enter start] := by
  have unmarked
      (node : Nat)
      (inside : node < graph.size) :
      isMarked (Array.replicate graph.size false) node = false := by
    simp [isMarked, Array.getD_eq_getD_getElem?, inside]
  refine ⟨by simp, ?_, ?_, ?_, ⟨.inl rfl, trivial⟩, by simp⟩
  · intro node
    have notMarked :
        ¬ (node < graph.size ∧
          isMarked (Array.replicate graph.size false) node = true) := by
      rintro ⟨inside, isMarked⟩
      rw [unmarked node inside] at isMarked
      cases isMarked
    simp [notMarked]
  · rintro node (rfl | ⟨source, inside, isMarked, _⟩)
    · simp
    · rw [unmarked source inside] at isMarked
      cases isMarked
  · intro node inside isMarked
    rw [unmarked node inside] at isMarked
    cases isMarked

/-- A node that is to be left is marked. -/
theorem isMarked_of_leave
    (walking : graph.Walking start marked finished stack)
    (onStack : .leave node ∈ stack) :
    node < graph.size ∧ isMarked marked node = true := by
  have once := walking.once node
  have := List.count_pos_iff.mpr onStack
  split at once
  · assumption
  · omega

/-- A marked node has been left or is to be left. -/
theorem finished_or_leave
    (walking : graph.Walking start marked finished stack)
    (inside : node < graph.size)
    (isMarked : Digraph.isMarked marked node = true) :
    node ∈ finished ∨ .leave node ∈ stack := by
  have once := walking.once node
  rw [if_pos ⟨inside, isMarked⟩] at once
  rw [← List.count_pos_iff, ← List.count_pos_iff]
  omega

/-- A node is left: it is finished before the nodes that support it. -/
theorem leave
    (walking : graph.Walking start marked finished (.leave node :: rest)) :
    graph.Walking start marked (node :: finished) rest where
  size_eq := walking.size_eq
  once := by
    intro other
    rw [← walking.once other]
    simp only [List.count_cons, beq_iff_eq, Frame.leave.injEq]
    omega
  known := by
    intro other wanted
    simpa using walking.known other wanted
  reached := walking.reached
  supported := walking.supported.2
  followed := by
    intro other isFinished
    rcases List.mem_cons.mp isFinished with rfl | before
    · rcases walking.supported.1 with isStart | ⟨parent, onStack, isSuccessor⟩
      · exact .inl isStart
      · exact .inr ⟨parent, isSuccessor, .inl onStack⟩
    · rcases walking.followed other before with isStart | ⟨parent, isSuccessor, later⟩
      · exact .inl isStart
      · refine .inr ⟨parent, isSuccessor, ?_⟩
        rcases later with onStack | earlier
        · rcases List.mem_cons.mp onStack with isFirst | below
          · cases isFirst
            exact .inr ((List.singleton_sublist.mpr before).cons_cons node)
          · exact .inl below
        · exact .inr (earlier.cons node)

/-- A new node is entered: it is marked, and its successors go on the stack. -/
theorem enter
    (walking : graph.Walking start marked finished (.enter node :: rest))
    (new : isMarked marked node = false) :
    graph.Walking start (mark marked node) finished
      ((graph.successors node).map .enter ++ .leave node :: rest) where
  size_eq := by
    rw [← walking.size_eq]
    simp [mark]
  once := by
    intro other
    have inside : node < graph.size :=
      walking.size_eq ▸ lt_size_of_isMarked_eq_false new
    have noLeave :
        ((graph.successors node).map Frame.enter).count (.leave other) = 0 :=
      List.count_eq_zero.mpr (by simp)
    have once := walking.once other
    simp only [List.count_append, noLeave, List.count_cons, beq_iff_eq, reduceCtorEq,
      Frame.leave.injEq, isMarked_mark_eq_true_iff] at once ⊢
    by_cases same : other = node
    · subst same
      simp_all
    · have different : ¬ node = other := fun equal => same equal.symm
      simp_all
  known := by
    intro other wanted
    rw [isMarked_mark_eq_true_iff]
    rcases wanted.of_mark with before | isSuccessor
    · rcases walking.known other before with otherMarked | onStack
      · exact .inl (.inl otherMarked)
      · rcases List.mem_cons.mp onStack with isFirst | below
        · cases isFirst
          exact .inl (.inr rfl)
        · exact .inr (by simp [below])
    · exact .inr (by simp [isSuccessor])
  reached := by
    intro other inside otherMarked
    rcases isMarked_mark_eq_true_iff.mp otherMarked with before | rfl
    · exact walking.reached other inside before
    · rcases walking.supported.1 with rfl | ⟨parent, onStack, isSuccessor⟩
      · exact ⟨_, .start⟩
      · obtain ⟨parentInside, parentMarked⟩ :=
          walking.isMarked_of_leave (List.mem_cons_of_mem _ onStack)
        obtain ⟨nodes, path⟩ := walking.reached parent parentInside parentMarked
        exact ⟨_, path.extend ⟨isSuccessor, inside⟩⟩
  supported := supported_enter walking.supported (List.Subset.refl _)
  followed := by
    intro other isFinished
    rcases walking.followed other isFinished with isStart | ⟨parent, isSuccessor, later⟩
    · exact .inl isStart
    · refine .inr ⟨parent, isSuccessor, ?_⟩
      rcases later with onStack | earlier
      · exact .inl (by simpa using .inr (List.mem_of_ne_of_mem (by simp) onStack))
      · exact .inr earlier

/-- A node that was entered before is passed over. -/
theorem skip
    (walking : graph.Walking start marked finished (.enter node :: rest))
    (old : isMarked marked node = true) :
    graph.Walking start marked finished rest where
  size_eq := walking.size_eq
  once := by
    intro other
    rw [← walking.once other]
    simp
  known := by
    intro other wanted
    rcases walking.known other wanted with otherMarked | onStack
    · exact .inl otherMarked
    · rcases List.mem_cons.mp onStack with isFirst | below
      · cases isFirst
        exact .inl old
      · exact .inr below
  reached := walking.reached
  supported := walking.supported.2
  followed := by
    intro other isFinished
    simpa using walking.followed other isFinished

/-- Working off the stack leads to a state in which it is empty. -/
theorem work
    (walking : graph.Walking start marked finished stack) :
    ∃ final, graph.Walking start final (graph.work marked finished stack) [] := by
  fun_induction Digraph.work graph marked finished stack with
  | case1 marked finished => exact ⟨marked, walking⟩
  | case2 marked finished node rest inductionHypothesis =>
      exact inductionHypothesis walking.leave
  | case3 marked finished node rest new inductionHypothesis =>
      exact inductionHypothesis (walking.enter new)
  | case4 marked finished node rest old inductionHypothesis =>
      exact inductionHypothesis (walking.skip (by simpa using old))

/-- At the end the marked nodes have been left. -/
theorem mem_finished_iff
    (walking : graph.Walking start marked finished []) :
    node ∈ finished ↔ node < graph.size ∧ isMarked marked node = true := by
  rw [← List.count_pos_iff]
  have once := walking.once node
  rw [List.count_nil] at once
  split at once
  · simp_all
  · simp_all

end Walking

variable {graph : Digraph} {start node : Nat}

/-- A walk ends with an empty stack and its nodes finished, the last one first. -/
theorem exists_walking
    (graph : Digraph)
    (start : Nat) :
    ∃ final, graph.Walking start final (graph.postorder start).reverse [] := by
  rw [postorder, List.reverse_reverse]
  exact (Walking.begin graph start).work

/-- The walk visits no node twice. -/
theorem nodup_postorder
    (graph : Digraph)
    (start : Nat) :
    (graph.postorder start).Nodup := by
  obtain ⟨final, walking⟩ := exists_walking graph start
  rw [← List.nodup_reverse, List.nodup_iff_count_le_one]
  intro node
  have once := walking.once node
  split at once <;> omega

/-- A walk visits exactly the nodes that can be reached. -/
theorem mem_postorder_iff
    (inside : start < graph.size) :
    node ∈ graph.postorder start ↔ Reaches graph.Edge start node := by
  obtain ⟨final, walking⟩ := exists_walking graph start
  rw [← List.mem_reverse, walking.mem_finished_iff]
  constructor
  · rintro ⟨nodeInside, isMarked⟩
    exact walking.reached node nodeInside isMarked
  · rintro ⟨nodes, path⟩
    have marked
        {other : Nat}
        (wanted : graph.Wanted start final other) :
        isMarked final other = true := by
      simpa using walking.known other wanted
    induction path with
    | start => exact ⟨inside, marked (.inl rfl)⟩
    | extend _ step inductionHypothesis =>
        obtain ⟨lastInside, lastMarked⟩ := inductionHypothesis
        exact ⟨step.2, marked (.inr ⟨_, lastInside, lastMarked, step.1⟩)⟩

/-- Every node but the start is left before one of its predecessors. -/
theorem exists_later_source
    (visited : node ∈ graph.postorder start)
    (notStart : node ≠ start) :
    ∃ source,
      node ∈ graph.successors source ∧
        [node, source].Sublist (graph.postorder start) := by
  obtain ⟨final, walking⟩ := exists_walking graph start
  rcases walking.followed node (List.mem_reverse.mpr visited) with
    isStart | ⟨source, isSuccessor, later⟩
  · exact (notStart isStart).elim
  · refine ⟨source, isSuccessor, ?_⟩
    rcases later with onStack | later
    · cases onStack
    · simpa using later.reverse

/-- In a list without repetitions a node that stands before another has the lower index. -/
theorem idxOf_lt_of_sublist
    {nodes : List Nat}
    {first second : Nat}
    (nodup : nodes.Nodup)
    (before : [first, second].Sublist nodes) :
    nodes.idxOf first < nodes.idxOf second := by
  induction nodes with
  | nil => cases before
  | cons head tail inductionHypothesis =>
      rw [List.nodup_cons] at nodup
      cases before with
      | cons _ inTail =>
          have firstDifferent : head ≠ first :=
            fun same => nodup.1 (same ▸ inTail.subset (by simp))
          have secondDifferent : head ≠ second :=
            fun same => nodup.1 (same ▸ inTail.subset (by simp))
          rw [List.idxOf_cons_ne tail firstDifferent, List.idxOf_cons_ne tail secondDifferent]
          exact Nat.succ_lt_succ (inductionHypothesis nodup.2 inTail)
      | cons_cons _ inTail =>
          have different : first ≠ second :=
            fun same => nodup.1 (same ▸ List.singleton_sublist.mp inTail)
          rw [List.idxOf_cons_self, List.idxOf_cons_ne tail different]
          exact Nat.succ_pos _

/-- The start is left last. -/
theorem getLast?_postorder
    (inside : start < graph.size) :
    (graph.postorder start).getLast? = some start := by
  have visited : start ∈ graph.postorder start :=
    (mem_postorder_iff inside).mpr ⟨_, .start⟩
  have nodup := nodup_postorder graph start
  rcases List.eq_nil_or_concat (graph.postorder start) with isEmpty | ⟨earlier, last, isWalk⟩
  · rw [isEmpty] at visited
    cases visited
  · rw [isWalk, List.concat_eq_append, List.getLast?_concat, Option.some.injEq]
    by_contra notStart
    -- A predecessor that is left after the last node would have to stand behind it.
    have lastVisited : last ∈ graph.postorder start := by simp [isWalk]
    obtain ⟨source, _, later⟩ := exists_later_source lastVisited notStart
    have higher := idxOf_lt_of_sublist nodup later
    have bounded := List.idxOf_lt_length_of_mem (later.subset (by simp : source ∈ [last, source]))
    rw [isWalk, List.concat_eq_append] at nodup higher bounded
    have isLast : (earlier ++ [last]).idxOf last = earlier.length := by
      have notEarlier : last ∉ earlier := by
        intro member
        exact (List.nodup_append.mp nodup).2.2 last member last (by simp) rfl
      simp [List.idxOf_append_of_notMem notEarlier]
    simp only [List.length_append, List.length_singleton] at bounded
    omega

theorem lt_size_of_mem_postorder
    (visited : node ∈ graph.postorder start) :
    node < graph.size := by
  obtain ⟨final, walking⟩ := exists_walking graph start
  exact (walking.mem_finished_iff.mp (List.mem_reverse.mpr visited)).1

/-! ## Edges that lead out of the graph -/

/-- No edge from a node leads out of the graph. -/
def Inward (graph : Digraph) (node : Nat) : Prop :=
  ∀ target ∈ graph.successors node, target < graph.size

instance (graph : Digraph) (node : Nat) : Decidable (graph.Inward node) :=
  inferInstanceAs (Decidable (∀ target ∈ graph.successors node, target < graph.size))

/-- No edge leads out of the graph. -/
def Closed (graph : Digraph) : Prop :=
  ∀ node < graph.size, graph.Inward node

instance (graph : Digraph) : Decidable graph.Closed :=
  inferInstanceAs (Decidable (∀ node < graph.size, graph.Inward node))

/-- No edge out of the graph is found if all nodes keep their edges inside. -/
theorem danglingEdge?_eq_none_iff
    {nodes : List Nat} :
    graph.danglingEdge? nodes = none ↔ ∀ node ∈ nodes, graph.Inward node := by
  simp [danglingEdge?, Inward]

/-- The walk succeeds if none of its nodes has an edge that leads out of the graph. -/
theorem postorder?_of_inward
    (inward : ∀ node ∈ graph.postorder start, graph.Inward node) :
    graph.postorder? start = .ok (graph.postorder start) := by
  simp only [postorder?, danglingEdge?_eq_none_iff.mpr inward]

/-- The walk fails if one of its nodes has an edge that leads out of the graph. -/
theorem exists_postorder?_eq_error
    (visited : node ∈ graph.postorder start)
    (outward : ¬ graph.Inward node) :
    ∃ edge, graph.postorder? start = .error edge := by
  cases found : graph.danglingEdge? (graph.postorder start) with
  | none => exact absurd (danglingEdge?_eq_none_iff.mp found node visited) outward
  | some edge => exact ⟨edge, by simp only [postorder?, found]⟩

end Dominance.Digraph
