import Dominance.Proofs.WalkOrder

namespace Dominance.Digraph

/-!
# Walks as orders of the nodes

In a graph that no edge leaves, a walk succeeds and lists what can be reached.  Along an edge
the target is left before the source, unless some way leads back from it.  Without cycles
there is no way back, so a walk that is read from its end is a topological order.
-/

/-- The order in which a depth-first walk from a node leaves the nodes. -/
structure FinishingOrder
    (graph : Digraph)
    (start : Nat)
    (order : List Nat) : Prop where
  mem_iff : ∀ node, node ∈ order ↔ Reaches graph.Edge start node
  nodup : order.Nodup
  start_last : order.getLast? = some start
  /-- Every other node is left before one of its predecessors. -/
  later_source :
    ∀ node ∈ order,
      node ≠ start →
      ∃ source, node ∈ graph.successors source ∧ [node, source].Sublist order
  /-- The target of an edge is left before its source, or a way leads back. -/
  target_first :
    ∀ source ∈ order,
      ∀ target ∈ order,
        target ∈ graph.successors source →
        ¬ Reaches graph.Edge target source →
        [target, source].Sublist order

/-- No node that can be reached lies on a cycle. -/
def AcyclicFrom (graph : Digraph) (start : Nat) : Prop :=
  ∀ node next,
    Reaches graph.Edge start node → graph.Edge node next → ¬ Reaches graph.Edge next node

/-- The nodes that can be reached, each before its successors. -/
structure TopologicalFrom
    (graph : Digraph)
    (start : Nat)
    (order : List Nat) : Prop where
  mem_iff : ∀ node, node ∈ order ↔ Reaches graph.Edge start node
  nodup : order.Nodup
  source_first :
    ∀ source ∈ order,
      ∀ target ∈ graph.successors source, [source, target].Sublist order

variable {graph : Digraph} {start : Nat}

theorem edge_of_closed
    (closed : graph.Closed)
    {source target : Nat}
    (inside : source < graph.size)
    (isSuccessor : target ∈ graph.successors source) :
    graph.Edge source target :=
  ⟨isSuccessor, closed source inside target isSuccessor⟩

/-- The walk leaves nodes in a finishing order. -/
theorem finishingOrder_postorder
    (closed : graph.Closed)
    (inside : start < graph.size) :
    graph.FinishingOrder start (graph.postorder start) where
  mem_iff := fun _ => mem_postorder_iff inside
  nodup := nodup_postorder graph start
  start_last := getLast?_postorder inside
  later_source := fun _ => exists_later_source
  target_first := by
    intro source sourceVisited target _ isSuccessor noWayBack
    have edge : graph.Edge source target :=
      edge_of_closed closed (lt_size_of_mem_postorder sourceVisited) isSuccessor
    rcases inOrder_postorder sourceVisited edge with earlier | ⟨nodes, path⟩
    · exact earlier
    · exact absurd ⟨nodes, path.weaken fun _ _ step => step.1⟩ noWayBack

/-- Without cycles the order of leaving is a topological order backwards. -/
theorem FinishingOrder.reverse
    {order : List Nat}
    (finishing : graph.FinishingOrder start order)
    (closed : graph.Closed)
    (inside : ∀ node ∈ order, node < graph.size)
    (acyclic : graph.AcyclicFrom start) :
    graph.TopologicalFrom start order.reverse where
  mem_iff := by
    intro node
    rw [List.mem_reverse]
    exact finishing.mem_iff node
  nodup := List.nodup_reverse.mpr finishing.nodup
  source_first := by
    intro source listed target isSuccessor
    rw [List.mem_reverse] at listed
    have edge := edge_of_closed closed (inside source listed) isSuccessor
    obtain ⟨nodes, path⟩ := (finishing.mem_iff source).mp listed
    have targetListed : target ∈ order := (finishing.mem_iff target).mpr ⟨_, path.extend edge⟩
    have earlier : [target, source].Sublist order :=
      finishing.target_first source listed target targetListed isSuccessor
        (acyclic source target ⟨nodes, path⟩ edge)
    simpa using earlier.reverse

/--
In a graph that no edge leaves, the walk from each node succeeds.  It lists what can be
reached in the order of leaving, and read backwards in a topological order if what can be
reached has no cycle.
-/
theorem postorder?_finishes_in_order
    (graph : Digraph)
    (start : Nat)
    (closed : graph.Closed)
    (inside : start < graph.size) :
    ∃ order,
      graph.postorder? start = .ok order ∧
        graph.FinishingOrder start order ∧
          graph.reversePostorder? start = .ok order.reverse ∧
            (graph.AcyclicFrom start → graph.TopologicalFrom start order.reverse) := by
  have succeeds : graph.postorder? start = .ok (graph.postorder start) :=
    postorder?_of_inward fun node visited => closed node (lt_size_of_mem_postorder visited)
  have finishing := finishingOrder_postorder closed inside
  refine ⟨graph.postorder start, succeeds, finishing, ?_, ?_⟩
  · rw [reversePostorder?, succeeds]
    rfl
  · exact finishing.reverse closed fun _ => lt_size_of_mem_postorder

/-- Edges that all lead to higher nodes make no cycle. -/
theorem acyclicFrom_of_rising
    (rises : ∀ source < graph.size, ∀ target ∈ graph.successors source, source < target)
    (start : Nat) :
    graph.AcyclicFrom start := by
  have risesAlong {source target : Nat} (edge : graph.Edge source target) : source < target := by
    by_cases inside : source < graph.size
    · exact rises source inside target edge.1
    · have noSuccessor : graph.successors source = [] := by
        rw [successors, Array.getD_eq_getD_getElem?,
          Array.getElem?_eq_none (Nat.le_of_not_lt inside), Option.getD_none]
      rw [Edge, noSuccessor] at edge
      cases edge.1
  have neverFalls {first last : Nat} (reaches : Reaches graph.Edge first last) : first ≤ last := by
    obtain ⟨nodes, path⟩ := reaches
    induction path with
    | start => exact Nat.le_refl first
    | extend _ step inductionHypothesis =>
        exact Nat.le_trans inductionHypothesis (Nat.le_of_lt (risesAlong step))
  intro node next _ edge wayBack
  exact Nat.not_lt_of_le (neverFalls wayBack) (risesAlong edge)

/-- Two branches that join, with one edge twice. -/
def joiningBranches : Digraph := ⟨#[[1, 2, 2], [3], [3], []]⟩

/-- The second branch is walked first backwards, and the node where they join comes last. -/
theorem joiningBranches_finish_in_order :
    joiningBranches.postorder? 0 = .ok [3, 1, 2, 0] ∧
      joiningBranches.FinishingOrder 0 [3, 1, 2, 0] ∧
        joiningBranches.AcyclicFrom 0 ∧
          joiningBranches.TopologicalFrom 0 [0, 2, 1, 3] := by
  have walked : joiningBranches.postorder? 0 = .ok [3, 1, 2, 0] := by decide +kernel
  have acyclic : joiningBranches.AcyclicFrom 0 := acyclicFrom_of_rising (by decide) 0
  obtain ⟨order, succeeds, finishing, _, topological⟩ :=
    postorder?_finishes_in_order joiningBranches 0 (by decide) (by decide)
  rw [walked] at succeeds
  cases succeeds
  exact ⟨walked, finishing, acyclic, topological acyclic⟩

end Dominance.Digraph
