import Mathlib.Data.List.Chain
import Dominance.Proofs.Walk

namespace Dominance.Digraph

/-!
# In which order a walk leaves its nodes

At any time the order in which the marked nodes are left is known: first come those that
are finished, then those that stand on the stack, from the top down.  To enter a node
inserts it between the two, so this order only grows.

Each node that the stack leaves leads to the next one above it.  An edge to a node that
is marked already therefore leads to a node that is left earlier, or to one that is still
on the stack further down, and from there the walk came down to the source of the edge
along edges that lead to nodes left earlier.
-/

/-- The nodes that a stack leaves, in the order in which it leaves them. -/
def leaving : List Frame → List Nat
  | [] => []
  | .enter _ :: rest => leaving rest
  | .leave node :: rest => node :: leaving rest

/-- The marked nodes in the order in which they are left. -/
def timeline (finished : List Nat) (stack : List Frame) : List Nat :=
  finished.reverse ++ leaving stack

/-- An edge to a node that is left earlier. -/
def Descends (graph : Digraph) (order : List Nat) (source target : Nat) : Prop :=
  graph.Edge source target ∧ [target, source].Sublist order

/-- The target is left before the source, or descending edges lead from it to the source. -/
def InOrder (graph : Digraph) (order : List Nat) (source target : Nat) : Prop :=
  [target, source].Sublist order ∨ Reaches (graph.Descends order) target source

/-- The target is to be entered before the source is left. -/
def Waiting (stack : List Frame) (source target : Nat) : Prop :=
  ∃ above below, stack = above ++ .leave source :: below ∧ .enter target ∈ above

/-- Each node on a stack is a successor of the next node that is left further down. -/
def Nested (graph : Digraph) : List Frame → Prop
  | [] => True
  | frame :: rest =>
      (∀ parent ∈ (leaving rest).head?, frame.node ∈ graph.successors parent) ∧
        graph.Nested rest

/-- The state of a walk, as far as the order of its nodes is concerned. -/
structure Arranged
    (graph : Digraph)
    (marked : Array Bool)
    (finished : List Nat)
    (stack : List Frame) : Prop where
  nested : graph.Nested stack
  followed :
    ∀ source target,
      source < graph.size →
      isMarked marked source = true →
      graph.Edge source target →
      graph.InOrder (timeline finished stack) source target ∨ Waiting stack source target

/-! ## Stacks -/

@[simp] theorem leaving_append (above below : List Frame) :
    leaving (above ++ below) = leaving above ++ leaving below := by
  induction above with
  | nil => rfl
  | cons frame rest inductionHypothesis =>
      cases frame with
      | enter node => exact inductionHypothesis
      | leave node => exact congrArg (node :: ·) inductionHypothesis

@[simp] theorem leaving_map_enter (nodes : List Nat) : leaving (nodes.map .enter) = [] := by
  induction nodes with
  | nil => rfl
  | cons _ _ inductionHypothesis => exact inductionHypothesis

theorem mem_leaving_iff
    {stack : List Frame}
    {node : Nat} :
    node ∈ leaving stack ↔ .leave node ∈ stack := by
  induction stack with
  | nil => simp [leaving]
  | cons frame rest inductionHypothesis =>
      cases frame <;> simp [leaving, inductionHypothesis]

/-- Leaving a node does not move it on the timeline. -/
theorem timeline_leave
    (finished : List Nat)
    (node : Nat)
    (rest : List Frame) :
    timeline (node :: finished) rest = timeline finished (.leave node :: rest) := by
  simp [timeline, leaving]

/-- To enter a node inserts it before all that the stack leaves. -/
theorem timeline_enter
    (finished : List Nat)
    (node : Nat)
    (successors : List Nat)
    (rest : List Frame) :
    timeline finished (successors.map .enter ++ .leave node :: rest) =
      finished.reverse ++ node :: leaving rest := by
  simp [timeline, leaving]

/-- Of two frames on a stack that leave nodes, the upper one is left first. -/
theorem sublist_timeline_of_leave
    {finished : List Nat}
    {above below : List Frame}
    {first second : Nat}
    (earlier : first ∈ finished ∨ first ∈ leaving above) :
    [first, second].Sublist (timeline finished (above ++ .leave second :: below)) := by
  have shape :
      timeline finished (above ++ .leave second :: below) =
        (finished.reverse ++ leaving above) ++ second :: leaving below := by
    simp [timeline, leaving]
  have member : first ∈ finished.reverse ++ leaving above := by
    simpa using earlier
  rw [shape]
  exact (List.singleton_sublist.mpr member).append
    (List.singleton_sublist.mpr List.mem_cons_self)

/-- From a node that is left to the next one above it leads an edge. -/
theorem Nested.isChain_leaving
    {graph : Digraph}
    {stack : List Frame}
    (nested : graph.Nested stack) :
    (leaving stack).IsChain fun upper lower => upper ∈ graph.successors lower := by
  induction stack with
  | nil => exact List.isChain_nil
  | cons frame rest inductionHypothesis =>
      cases frame with
      | enter node => exact inductionHypothesis nested.2
      | leave node => exact List.isChain_cons.mpr ⟨nested.1, inductionHypothesis nested.2⟩

/-- The successors of a node nest above the frame that leaves it. -/
theorem nested_enter
    {graph : Digraph}
    {node : Nat}
    {rest : List Frame}
    (nested : graph.Nested (.enter node :: rest))
    {successors : List Nat}
    (included : successors ⊆ graph.successors node) :
    graph.Nested (successors.map .enter ++ .leave node :: rest) := by
  induction successors with
  | nil => exact nested
  | cons first later inductionHypothesis =>
      rw [List.cons_subset] at included
      refine ⟨?_, inductionHypothesis included.2⟩
      intro parent isNext
      have isNode : parent = node := by
        simpa [leaving, eq_comm] using isNext
      exact isNode ▸ included.1

/-- Descending edges lead up a stack. -/
theorem reaches_of_isChain
    {graph : Digraph}
    {order upper : List Nat}
    {first node : Nat}
    (chain : (first :: upper).IsChain fun upper lower => upper ∈ graph.successors lower)
    (inside : ∀ other ∈ first :: upper, other < graph.size)
    (ordered : (first :: upper).Sublist order)
    (member : node ∈ upper) :
    Reaches (graph.Descends order) node first := by
  induction upper generalizing first with
  | nil => cases member
  | cons next rest inductionHypothesis =>
      obtain ⟨isSuccessor, restChain⟩ := List.isChain_cons_cons.mp chain
      have step : graph.Descends order next first := by
        refine ⟨⟨isSuccessor, inside first List.mem_cons_self⟩, ?_⟩
        exact ((List.singleton_sublist.mpr List.mem_cons_self).cons_cons first).trans ordered
      rcases List.mem_cons.mp member with isNext | further
      · subst isNext
        exact ⟨_, Path.start.extend step⟩
      · obtain ⟨nodes, path⟩ :=
          inductionHypothesis restChain
            (fun other isOther => inside other (List.mem_cons_of_mem first isOther))
            ((List.sublist_cons_self first (next :: rest)).trans ordered) further
        exact ⟨_, path.extend step⟩

/-- A longer order keeps what is in order. -/
theorem InOrder.mono
    {graph : Digraph}
    {order more : List Nat}
    {source target : Nat}
    (inOrder : graph.InOrder order source target)
    (included : order.Sublist more) :
    graph.InOrder more source target := by
  rcases inOrder with earlier | ⟨nodes, path⟩
  · exact .inl (earlier.trans included)
  · exact .inr ⟨nodes, path.weaken fun _ _ step => ⟨step.1, step.2.trans included⟩⟩

/-- Whatever waits below the top of a stack waits above a frame further down. -/
theorem Waiting.of_cons
    {frame : Frame}
    {rest : List Frame}
    {source target : Nat}
    (waiting : Waiting (frame :: rest) source target) :
    ∃ above below,
      rest = above ++ .leave source :: below ∧
        (frame = .enter target ∨ .enter target ∈ above) := by
  obtain ⟨above, below, isStack, isAbove⟩ := waiting
  cases above with
  | nil => cases isAbove
  | cons first above =>
      obtain ⟨isFirst, isRest⟩ := List.cons.inj isStack
      refine ⟨above, below, isRest, ?_⟩
      rcases List.mem_cons.mp isAbove with isTarget | further
      · exact .inl (isFirst.trans isTarget.symm)
      · exact .inr further

/-! ## One step -/

namespace Arranged

variable {graph : Digraph} {start node : Nat} {marked : Array Bool} {finished : List Nat}
  {rest stack : List Frame}

theorem begin
    (graph : Digraph)
    (start : Nat) :
    graph.Arranged (Array.replicate graph.size false) [] [.enter start] where
  nested := ⟨by simp [leaving], trivial⟩
  followed := by
    intro source target inside isMarked
    simp [Digraph.isMarked, Array.getD_eq_getD_getElem?, inside] at isMarked

/-- A node is left: all its successors have been looked at. -/
theorem leave
    (arranged : graph.Arranged marked finished (.leave node :: rest)) :
    graph.Arranged marked (node :: finished) rest where
  nested := arranged.nested.2
  followed := by
    intro source target inside isMarked edge
    rw [timeline_leave]
    rcases arranged.followed source target inside isMarked edge with inOrder | waiting
    · exact .inl inOrder
    · obtain ⟨above, below, isRest, isTop | further⟩ := waiting.of_cons
      · cases isTop
      · exact .inr ⟨above, below, isRest, further⟩

/-- A new node is entered: it is left before all nodes that are on the stack. -/
theorem enter
    (arranged : graph.Arranged marked finished (.enter node :: rest)) :
    graph.Arranged (mark marked node) finished
      ((graph.successors node).map .enter ++ .leave node :: rest) where
  nested := nested_enter arranged.nested (List.Subset.refl _)
  followed := by
    intro source target inside sourceMarked edge
    rw [isMarked_mark_eq_true_iff] at sourceMarked
    rcases sourceMarked with before | isNode
    · rcases arranged.followed source target inside before edge with inOrder | waiting
      · refine .inl (inOrder.mono ?_)
        rw [timeline_enter]
        exact (List.sublist_cons_self node (leaving rest)).append_left finished.reverse
      · obtain ⟨above, below, rfl, isTop | further⟩ := waiting.of_cons
        · cases isTop
          have shape :
              (graph.successors node).map Frame.enter ++
                  .leave node :: (above ++ .leave source :: below) =
                ((graph.successors node).map Frame.enter ++ .leave node :: above) ++
                  .leave source :: below := by
            simp
          rw [shape]
          exact .inl (.inl (sublist_timeline_of_leave (.inr (by simp [leaving]))))
        · refine .inr
            ⟨(graph.successors node).map .enter ++ .leave node :: above, below, by simp, ?_⟩
          exact List.mem_append_right _ (List.mem_cons_of_mem _ further)
    · subst isNode
      exact .inr ⟨_, rest, rfl, List.mem_map_of_mem edge.1⟩

/-- A node that was entered before is passed over: its place in the order is known. -/
theorem skip
    (walking : graph.Walking start marked finished (.enter node :: rest))
    (arranged : graph.Arranged marked finished (.enter node :: rest))
    (old : isMarked marked node = true) :
    graph.Arranged marked finished rest where
  nested := arranged.nested.2
  followed := by
    intro source target inside sourceMarked edge
    rcases arranged.followed source target inside sourceMarked edge with inOrder | waiting
    · exact .inl inOrder
    · obtain ⟨above, below, rfl, isTop | further⟩ := waiting.of_cons
      · left
        cases isTop
        rcases walking.finished_or_leave edge.2 old with isFinished | onStack
        · exact .inl (sublist_timeline_of_leave (.inl isFinished))
        · have isLeaving := mem_leaving_iff.mpr onStack
          simp only [leaving, leaving_append, List.mem_append, List.mem_cons] at isLeaving
          rcases isLeaving with isAbove | isSource | isBelow
          · exact .inl (sublist_timeline_of_leave (.inr isAbove))
          · subst isSource
            exact .inr ⟨_, .start⟩
          · -- The target is still on the stack, and the walk came from it to the source.
            right
            have chain := arranged.nested.2.isChain_leaving
            rw [leaving_append] at chain
            refine reaches_of_isChain chain.right_of_append ?_ ?_ isBelow
            · intro other isOther
              refine (walking.isMarked_of_leave ?_).1
              exact List.mem_cons_of_mem _
                (List.mem_append_right _ (mem_leaving_iff.mp isOther))
            · rw [timeline, leaving_append, ← List.append_assoc]
              exact List.sublist_append_right _ _
      · exact .inr ⟨above, below, rfl, further⟩

/-- Working off the stack leads to a state in which it is empty. -/
theorem work
    (walking : graph.Walking start marked finished stack)
    (arranged : graph.Arranged marked finished stack) :
    ∃ final,
      graph.Walking start final (graph.work marked finished stack) [] ∧
        graph.Arranged final (graph.work marked finished stack) [] := by
  fun_induction Digraph.work graph marked finished stack with
  | case1 marked finished => exact ⟨marked, walking, arranged⟩
  | case2 marked finished node rest inductionHypothesis =>
      exact inductionHypothesis walking.leave arranged.leave
  | case3 marked finished node rest new inductionHypothesis =>
      exact inductionHypothesis (walking.enter new) arranged.enter
  | case4 marked finished node rest old inductionHypothesis =>
      have isMarked : isMarked marked node = true := by simpa using old
      exact inductionHypothesis (walking.skip isMarked) (arranged.skip walking isMarked)

end Arranged

/-! ## Whole walks -/

/--
An edge between nodes of a walk leads to a node that is left earlier, or descending edges
lead back from its target to its source.
-/
theorem inOrder_postorder
    {graph : Digraph}
    {start source target : Nat}
    (visited : source ∈ graph.postorder start)
    (edge : graph.Edge source target) :
    graph.InOrder (graph.postorder start) source target := by
  obtain ⟨final, walking, arranged⟩ :=
    (Arranged.begin graph start).work (Walking.begin graph start)
  have isFinished : source ∈ graph.reversePostorder start := List.mem_reverse.mp visited
  obtain ⟨inside, isMarked⟩ := walking.mem_finished_iff.mp isFinished
  rcases arranged.followed source target inside isMarked edge with inOrder | waiting
  · rw [timeline, leaving, List.append_nil] at inOrder
    exact inOrder
  · obtain ⟨above, below, isStack, _⟩ := waiting
    simp at isStack

end Dominance.Digraph
