import Mathlib.Data.Finset.Card
import Dominance.Proofs.Walk

namespace Dominance.Digraph

/-!
# Depth-first search by recursion

The search through a list of nodes takes them one after the other.  A node that was seen
before is passed over.  Any other is seen from now on; the search goes through its
successors, emits the node, and only then takes the next node of the list.

A walk with a stack does the same.  A run of frames at the top of its stack stands for a
call of the search that is still to be made, and whatever lies below does not matter until
that call is over.
-/

/-- What a search leaves behind that began with some nodes seen. -/
structure Exploration (seen : Finset Nat) where
  /-- The nodes that have been seen in the end. -/
  reached : Finset Nat
  /-- The nodes that were emitted, in order. -/
  emitted : List Nat
  grows : seen ⊆ reached

/-- The nodes that a search may still see. -/
def unseen (graph : Digraph) (seen : Finset Nat) : Finset Nat :=
  Finset.range graph.size \ seen

theorem card_unseen_le
    (graph : Digraph)
    {seen more : Finset Nat}
    (grows : seen ⊆ more) :
    (graph.unseen more).card ≤ (graph.unseen seen).card :=
  Finset.card_le_card (Finset.sdiff_subset_sdiff (Finset.Subset.refl _) grows)

/-- A new node is left no longer once it is seen. -/
theorem card_unseen_insert_lt
    {graph : Digraph}
    {seen : Finset Nat}
    {node : Nat}
    (new : node < graph.size ∧ node ∉ seen) :
    (graph.unseen (insert node seen)).card < (graph.unseen seen).card := by
  apply Finset.card_lt_card
  refine Finset.ssubset_iff_subset_ne.mpr ⟨?_, ?_⟩
  · exact Finset.sdiff_subset_sdiff (Finset.Subset.refl _) (Finset.subset_insert node seen)
  · intro same
    have isUnseen : node ∈ graph.unseen seen := by
      simpa [unseen] using new
    rw [← same] at isUnseen
    simp [unseen] at isUnseen

/--
Search through a list of nodes after some nodes have been seen.

A node outside the graph is passed over like one that was seen.
-/
def explore
    (graph : Digraph)
    (seen : Finset Nat)
    (nodes : List Nat) :
    Exploration seen :=
  match nodes with
  | [] => ⟨seen, [], Finset.Subset.refl seen⟩
  | node :: rest =>
      if _new : node < graph.size ∧ node ∉ seen then
        let inner := graph.explore (insert node seen) (graph.successors node)
        let later := graph.explore inner.reached rest
        { reached := later.reached
          emitted := inner.emitted ++ node :: later.emitted
          grows := (Finset.subset_insert node seen).trans (inner.grows.trans later.grows) }
      else
        graph.explore seen rest
-- The successors are searched with one more node seen, the rest with no fewer nodes seen.
termination_by ((graph.unseen seen).card, nodes.length)
decreasing_by
  · exact Prod.Lex.left _ _ (card_unseen_insert_lt ‹node < graph.size ∧ node ∉ seen›)
  · have fewer := graph.card_unseen_le ((Finset.subset_insert node seen).trans inner.grows)
    rcases Nat.lt_or_eq_of_le fewer with less | same
    · exact Prod.Lex.left _ _ less
    · rw [same]
      exact Prod.Lex.right _ (by simp)
  · exact Prod.Lex.right _ (by simp)

/-- Induction over the calls of a search. -/
@[elab_as_elim]
theorem explore_induction
    (graph : Digraph)
    {motive : Finset Nat → List Nat → Prop}
    (done : ∀ seen, motive seen [])
    (enter :
      ∀ seen node rest,
        node < graph.size ∧ node ∉ seen →
        motive (insert node seen) (graph.successors node) →
        motive (graph.explore (insert node seen) (graph.successors node)).reached rest →
        motive seen (node :: rest))
    (pass :
      ∀ seen node rest,
        ¬ (node < graph.size ∧ node ∉ seen) → motive seen rest → motive seen (node :: rest))
    (seen : Finset Nat)
    (nodes : List Nat) :
    motive seen nodes :=
  explore.induct graph motive done
    (fun seen node rest new inner later _ => enter seen node rest new inner later) pass seen nodes

/-- The nodes in the order in which the recursive search from a node emits them. -/
def search (graph : Digraph) (start : Nat) : List Nat :=
  (graph.explore ∅ [start]).emitted

section

variable {graph : Digraph} {seen : Finset Nat} {node : Nat}

@[simp] theorem emitted_explore_nil (graph : Digraph) (seen : Finset Nat) :
    (graph.explore seen []).emitted = [] := by
  rw [explore]

@[simp] theorem reached_explore_nil (graph : Digraph) (seen : Finset Nat) :
    (graph.explore seen []).reached = seen := by
  rw [explore]

theorem explore_cons_of_old
    (old : ¬ (node < graph.size ∧ node ∉ seen))
    (rest : List Nat) :
    graph.explore seen (node :: rest) = graph.explore seen rest := by
  rw [explore, dif_neg old]

/-- A new node comes after what is found from it and before the rest. -/
theorem emitted_explore_cons
    (new : node < graph.size ∧ node ∉ seen)
    (rest : List Nat) :
    (graph.explore seen (node :: rest)).emitted =
      (graph.explore (insert node seen) (graph.successors node)).emitted ++
        node ::
          (graph.explore
            (graph.explore (insert node seen) (graph.successors node)).reached rest).emitted := by
  rw [explore, dif_pos new]

/-- The rest is explored after what is found from a new node. -/
theorem reached_explore_cons
    (new : node < graph.size ∧ node ∉ seen)
    (rest : List Nat) :
    (graph.explore seen (node :: rest)).reached =
      (graph.explore
        (graph.explore (insert node seen) (graph.successors node)).reached rest).reached := by
  rw [explore, dif_pos new]

end

/-! ## Marks -/

/-- Inside the graph, the marked nodes are those that have been seen. -/
structure Marks
    (graph : Digraph)
    (marked : Array Bool)
    (seen : Finset Nat) : Prop where
  size_eq : marked.size = graph.size
  isMarked_iff : ∀ node < graph.size, isMarked marked node = true ↔ node ∈ seen

namespace Marks

variable {graph : Digraph} {marked : Array Bool} {seen : Finset Nat}

theorem begin (graph : Digraph) :
    graph.Marks (Array.replicate graph.size false) ∅ where
  size_eq := Array.size_replicate
  isMarked_iff := by
    intro node inside
    simp [isMarked, Array.getD_eq_getD_getElem?, inside]

theorem mark
    (marks : graph.Marks marked seen)
    (node : Nat) :
    graph.Marks (Digraph.mark marked node) (insert node seen) where
  size_eq := by
    rw [← marks.size_eq]
    exact Array.size_setIfInBounds
  isMarked_iff := by
    intro other inside
    rw [isMarked_mark_eq_true_iff, marks.isMarked_iff other inside, Finset.mem_insert, or_comm]

/-- The walk enters a node exactly if the search does not pass it over. -/
theorem isMarked_eq_false_iff
    (marks : graph.Marks marked seen)
    {node : Nat} :
    isMarked marked node = false ↔ node < graph.size ∧ node ∉ seen := by
  constructor
  · intro new
    have inside : node < graph.size := marks.size_eq ▸ lt_size_of_isMarked_eq_false new
    refine ⟨inside, fun isSeen => ?_⟩
    rw [(marks.isMarked_iff node inside).mpr isSeen] at new
    cases new
  · rintro ⟨inside, isNew⟩
    exact Bool.eq_false_iff.mpr fun isMarked => isNew ((marks.isMarked_iff node inside).mp isMarked)

end Marks

/-! ## The walk -/

section

variable {graph : Digraph} {marked : Array Bool} {finished : List Nat} {node : Nat}
  {below : List Frame}

theorem work_leave :
    graph.work marked finished (.leave node :: below) =
      graph.work marked (node :: finished) below := by
  rw [work]

theorem work_enter_of_new (new : isMarked marked node = false) :
    graph.work marked finished (.enter node :: below) =
      graph.work (mark marked node) finished
        ((graph.successors node).map .enter ++ .leave node :: below) := by
  rw [work, dif_pos new]

theorem work_enter_of_old (old : ¬ isMarked marked node = false) :
    graph.work marked finished (.enter node :: below) = graph.work marked finished below := by
  rw [work, dif_neg old]

/--
Working off the frames that enter some nodes is the search through these nodes: it
finishes what the search emits and then goes on with the frames below.
-/
theorem work_explore
    {seen : Finset Nat}
    (marks : graph.Marks marked seen)
    (finished nodes : List Nat)
    (below : List Frame) :
    ∃ later,
      graph.Marks later (graph.explore seen nodes).reached ∧
        graph.work marked finished (nodes.map .enter ++ below) =
          graph.work later ((graph.explore seen nodes).emitted.reverse ++ finished) below := by
  induction seen, nodes using explore_induction graph generalizing marked finished below with
  | done seen => exact ⟨marked, by simpa using marks, by simp⟩
  | enter seen node rest new searchInner searchLater =>
      rw [List.map_cons, List.cons_append,
        work_enter_of_new (marks.isMarked_eq_false_iff.mpr new), emitted_explore_cons new,
        reached_explore_cons new]
      generalize graph.explore (insert node seen) (graph.successors node) = inner at *
      -- The frame that leaves the node lies below its successors and above the other nodes.
      obtain ⟨between, innerMarks, innerWork⟩ :=
        searchInner (marks.mark node) finished (.leave node :: (rest.map .enter ++ below))
      obtain ⟨later, laterMarks, laterWork⟩ :=
        searchLater innerMarks (node :: (inner.emitted.reverse ++ finished)) below
      refine ⟨later, laterMarks, ?_⟩
      rw [innerWork, work_leave, laterWork]
      simp
  | pass seen node rest old searchRest =>
      have wasMarked : ¬ isMarked marked node = false := by
        rw [marks.isMarked_eq_false_iff]
        exact old
      obtain ⟨later, laterMarks, restWork⟩ := searchRest marks finished below
      rw [explore_cons_of_old old]
      refine ⟨later, laterMarks, ?_⟩
      rw [List.map_cons, List.cons_append, work_enter_of_old wasMarked, restWork]

end

/-- The walk with a stack lists the nodes that the recursive search emits. -/
theorem postorder_eq_search
    (graph : Digraph)
    (start : Nat) :
    graph.postorder start = graph.search start := by
  obtain ⟨later, _, walked⟩ := work_explore (Marks.begin graph) [] [start] []
  have isWork : graph.reversePostorder start = (graph.search start).reverse := by
    simpa [reversePostorder, search, work] using walked
  rw [postorder, isWork, List.reverse_reverse]

end Dominance.Digraph
