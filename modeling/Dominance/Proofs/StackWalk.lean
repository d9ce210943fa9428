import Mathlib.Data.List.Flatten
import Mathlib.Data.List.Perm.Subperm
import Dominance.Proofs.Exploration

namespace Dominance.Digraph

/-!
# The walk turn by turn

A walk can be made in turns.  Each takes one frame from the stack, and a walk ends when none
is left.  To enter a node puts on the stack only successors that are not marked yet, and
it fails at once if one of them lies outside the graph.  When such a frame is taken its node
may have been marked in the meantime, and then the frame is stale and is passed over.

A walk in turns comes to an end, and what it comes to is what the recursive search
emits, unless the search meets an edge that leads out of the graph.
-/

/-- The state of a walk between two turns. -/
structure StackWalk where
  marked : Array Bool
  /-- The nodes that were left so far, latest first. -/
  finished : List Nat
  stack : List Frame

/-- What a turn comes to. -/
inductive Turn where
  | goesOn (walk : StackWalk)
  | ends (order : List Nat)
  | fails (edge : DanglingEdge)

/-- The frames that enter those of some nodes that are not marked. -/
def entering (marked : Array Bool) (nodes : List Nat) : List Frame :=
  (nodes.filter fun node => !isMarked marked node).map .enter

/-- One turn for each of some nodes and one for each edge from them. -/
def effort (graph : Digraph) (nodes : List Nat) : Nat :=
  (nodes.flatMap fun node => node :: graph.successors node).length

namespace StackWalk

/-- The walk from a node before its first turn. -/
def start (graph : Digraph) (node : Nat) : StackWalk where
  marked := Array.replicate graph.size false
  finished := []
  stack := if node < graph.size then [.enter node] else []

/--
One turn.

The successors are put on the stack from the last to the first, so of several edges out of
the graph the last is met.
-/
def turn (graph : Digraph) (walk : StackWalk) : Turn :=
  match walk.stack with
  | [] => .ends walk.finished.reverse
  | .leave node :: below =>
      .goesOn { walk with finished := node :: walk.finished, stack := below }
  | .enter node :: below =>
      if isMarked walk.marked node then
        .goesOn { walk with stack := below }
      else
        match (graph.successors node).reverse.find? fun target => graph.size ≤ target with
        | some target => .fails ⟨node, target⟩
        | none =>
            .goesOn
              { walk with
                marked := mark walk.marked node
                stack :=
                  entering (mark walk.marked node) (graph.successors node) ++
                    .leave node :: below }

/-- What a walk comes to, if it ends within so many turns. -/
def run (graph : Digraph) : Nat → StackWalk → Option (Except DanglingEdge (List Nat))
  | 0, _ => none
  | turns + 1, walk =>
      match walk.turn graph with
      | .goesOn next => run graph turns next
      | .ends order => some (.ok order)
      | .fails edge => some (.error edge)

/-- So many turns lead from one state to another. -/
def Comes (graph : Digraph) (walk : StackWalk) (turns : Nat) (next : StackWalk) : Prop :=
  ∀ more, walk.run graph (turns + more) = next.run graph more

/-- A walk fails within so many turns. -/
def Fails (graph : Digraph) (walk : StackWalk) (turns : Nat) : Prop :=
  ∃ edge, ∀ more, walk.run graph (turns + more) = some (.error edge)

variable {graph : Digraph}

theorem Comes.refl (graph : Digraph) (walk : StackWalk) : Comes graph walk 0 walk := by
  intro more
  rw [Nat.zero_add]

theorem Comes.trans
    {first second third : StackWalk}
    {turns later : Nat}
    (comes : Comes graph first turns second)
    (goesOn : Comes graph second later third) :
    Comes graph first (turns + later) third := by
  intro more
  rw [Nat.add_assoc, comes, goesOn]

/-- A failure after some turns is a failure. -/
theorem Comes.fails
    {first second : StackWalk}
    {turns later : Nat}
    (comes : Comes graph first turns second)
    (failure : Fails graph second later) :
    Fails graph first (turns + later) := by
  obtain ⟨edge, meets⟩ := failure
  refine ⟨edge, ?_⟩
  intro more
  rw [Nat.add_assoc, comes, meets]

/-! ## One turn -/

theorem comes_of_goesOn
    {walk next : StackWalk}
    (goesOn : walk.turn graph = .goesOn next) :
    Comes graph walk 1 next := by
  intro more
  rw [Nat.add_comm, run, goesOn]

theorem comes_leave
    (graph : Digraph)
    (marked : Array Bool)
    (finished : List Nat)
    (node : Nat)
    (below : List Frame) :
    Comes graph ⟨marked, finished, .leave node :: below⟩ 1 ⟨marked, node :: finished, below⟩ :=
  comes_of_goesOn rfl

section

variable {marked : Array Bool} {node : Nat}

theorem comes_of_old
    (graph : Digraph)
    (finished : List Nat)
    (below : List Frame)
    (old : isMarked marked node = true) :
    Comes graph ⟨marked, finished, .enter node :: below⟩ 1 ⟨marked, finished, below⟩ :=
  comes_of_goesOn (by simp [turn, old])

/-- Entering a new node takes one turn if its edges stay inside. -/
theorem comes_of_new
    (finished : List Nat)
    (below : List Frame)
    (new : isMarked marked node = false)
    (inward : graph.Inward node) :
    Comes graph ⟨marked, finished, .enter node :: below⟩ 1
      ⟨mark marked node, finished,
        entering (mark marked node) (graph.successors node) ++ .leave node :: below⟩ := by
  have noneOutside :
      (graph.successors node).reverse.find? (fun target => graph.size ≤ target) = none := by
    simpa [Inward] using inward
  exact comes_of_goesOn (by simp [turn, new, noneOutside])

/-- Entering a new node fails if one of its edges leads out. -/
theorem fails_of_new
    (finished : List Nat)
    (below : List Frame)
    (new : isMarked marked node = false)
    (outward : ¬ graph.Inward node) :
    Fails graph ⟨marked, finished, .enter node :: below⟩ 1 := by
  cases met :
      (graph.successors node).reverse.find? fun target => decide (graph.size ≤ target) with
  | none =>
      refine absurd ?_ outward
      simpa [Inward] using met
  | some target =>
      refine ⟨⟨node, target⟩, ?_⟩
      intro more
      rw [Nat.add_comm, run]
      simp [turn, new, met]

end

end StackWalk

/-! ## The turns of a search -/

theorem entering_cons_of_marked
    {marked : Array Bool}
    {node : Nat}
    (isMarked : isMarked marked node = true)
    (rest : List Nat) :
    entering marked (node :: rest) = entering marked rest := by
  simp [entering, isMarked]

theorem entering_cons_of_unmarked
    {marked : Array Bool}
    {node : Nat}
    (unmarked : isMarked marked node = false)
    (rest : List Nat) :
    entering marked (node :: rest) = .enter node :: entering marked rest := by
  simp [entering, unmarked]

/-- Effort adds up: one turn for a node and one for each of its edges. -/
theorem effort_append_cons
    (graph : Digraph)
    (inner : List Nat)
    (node : Nat)
    (later : List Nat) :
    graph.effort (inner ++ node :: later) =
      graph.effort inner + ((graph.successors node).length + 1) + graph.effort later := by
  simp only [effort, List.flatMap_append, List.flatMap_cons, List.length_append, List.length_cons,
    Nat.add_assoc]

/-- Different nodes of the graph take no more turns than all its nodes. -/
theorem effort_le
    {graph : Digraph}
    {nodes : List Nat}
    (nodup : nodes.Nodup)
    (inside : ∀ node ∈ nodes, node < graph.size) :
    graph.effort nodes ≤ graph.effort (List.range graph.size) := by
  obtain ⟨same, isPerm, isSublist⟩ :=
    List.subperm_of_subset nodup fun node member => List.mem_range.mpr (inside node member)
  rw [effort, ← (isPerm.flatMap_right _).length_eq]
  exact (isSublist.flatMap _).length_le

/--
In so many turns a walk makes a search: it comes to the frames below and has finished what
the search emits, or it fails because the search emits a node with an edge that leads out.
-/
inductive Makes
    (graph : Digraph)
    {seen : Finset Nat}
    (search : Exploration seen)
    (below : List Frame)
    (walk : StackWalk)
    (turns : Nat) : Prop where
  | comes
      {later : Array Bool} :
      (∀ node ∈ search.emitted, graph.Inward node) →
      graph.Marks later search.reached →
      walk.Comes graph turns ⟨later, search.emitted.reverse ++ walk.finished, below⟩ →
      Makes graph search below walk turns
  | fails
      {node : Nat} :
      node ∈ search.emitted →
      ¬ graph.Inward node →
      walk.Fails graph turns →
      Makes graph search below walk turns

section

variable {graph : Digraph} {marked before : Array Bool} {seen : Finset Nat}

/-- A search may be made after turns that finish nothing. -/
theorem Makes.after
    {search : Exploration seen}
    {below : List Frame}
    {first walk : StackWalk}
    {earlier turns : Nat}
    (makes : Makes graph search below walk turns)
    (arrives : first.Comes graph earlier walk)
    (nothingFinished : first.finished = walk.finished) :
    Makes graph search below first (earlier + turns) := by
  cases makes with
  | comes inward laterMarks comes =>
      rw [← nothingFinished] at comes
      exact .comes inward laterMarks (arrives.trans comes)
  | fails member outward fails => exact .fails member outward (arrives.fails fails)

/--
To search the successors of a new node above the frame that leaves it, to leave it, and to
search what is left of a list is to search the whole list.
-/
theorem Makes.enter
    {node innerTurns laterBound : Nat}
    {finished rest : List Nat}
    {others below : List Frame}
    (new : node < graph.size ∧ node ∉ seen)
    (unmarked : isMarked marked node = false)
    (inward : graph.Inward node)
    (inner :
      Makes graph (graph.explore (insert node seen) (graph.successors node))
        (.leave node :: others)
        ⟨mark marked node, finished,
          entering (mark marked node) (graph.successors node) ++ .leave node :: others⟩
        innerTurns)
    (later :
      ∀ between finishedLater,
        graph.Marks between
          (graph.explore (insert node seen) (graph.successors node)).reached →
        ∃ turns ≤ laterBound,
          Makes graph
            (graph.explore
              (graph.explore (insert node seen) (graph.successors node)).reached rest)
            below ⟨between, finishedLater, others⟩ turns) :
    ∃ turns ≤ 1 + (innerTurns + 1) + laterBound,
      Makes graph (graph.explore seen (node :: rest)) below
        ⟨marked, finished, .enter node :: others⟩ turns := by
  have emitted_eq := emitted_explore_cons new rest
  have reached_eq := reached_explore_cons new rest
  generalize graph.explore (insert node seen) (graph.successors node) = searched at *
  have enters := StackWalk.comes_of_new finished others unmarked inward
  cases inner with
  | fails member outward fails =>
      refine ⟨1 + innerTurns, by omega, .fails ?_ outward (enters.fails fails)⟩
      rw [emitted_eq]
      exact List.mem_append_left _ member
  | @comes between innerInward innerMarks comes =>
      have leaves :=
        StackWalk.comes_leave graph between (searched.emitted.reverse ++ finished) node others
      have arrives := enters.trans (comes.trans leaves)
      obtain ⟨turns, bound, makes⟩ := later between _ innerMarks
      refine ⟨1 + (innerTurns + 1) + turns, by omega, ?_⟩
      cases makes with
      | fails member outward fails =>
          refine .fails ?_ outward (arrives.fails fails)
          rw [emitted_eq]
          exact List.mem_append_right _ (List.mem_cons_of_mem _ member)
      | comes laterInward laterMarks goesOn =>
          refine .comes ?_ (reached_eq ▸ laterMarks) ?_
          · rw [emitted_eq, List.forall_mem_append, List.forall_mem_cons]
            exact ⟨innerInward, inward, laterInward⟩
          · rw [emitted_eq]
            simpa using arrives.trans goesOn

/--
The turns that work off the frames of some nodes make the search through these nodes.

The frames were put on the stack when only some of the marks were set, so those of nodes
that have been seen since are stale.
-/
theorem explore_in_turns
    (marks : graph.Marks marked seen)
    (older : ∀ node < graph.size, isMarked before node = true → node ∈ seen)
    (finished nodes : List Nat)
    (below : List Frame) :
    ∃ turns ≤ nodes.length + graph.effort (graph.explore seen nodes).emitted,
      Makes graph (graph.explore seen nodes) below
        ⟨marked, finished, entering before nodes ++ below⟩ turns := by
  induction seen, nodes using explore_induction graph
    generalizing marked before finished below with
  | done seen =>
      have stillMarks : graph.Marks marked (graph.explore seen []).reached := by
        rw [reached_explore_nil]
        exact marks
      refine ⟨0, Nat.zero_le _, .comes (by simp) stillMarks ?_⟩
      simpa [entering] using StackWalk.Comes.refl graph _
  | enter seen node rest new searchInner searchLater =>
      have unmarked : isMarked marked node = false := marks.isMarked_eq_false_iff.mpr new
      have wasUnmarked : isMarked before node = false :=
        Bool.eq_false_iff.mpr fun wasMarked => new.2 (older node new.1 wasMarked)
      have stillOlder (other : Nat) (inside : other < graph.size)
          (wasMarked : isMarked before other = true) :
          other ∈ (graph.explore (insert node seen) (graph.successors node)).reached :=
        Exploration.grows _ (Finset.mem_insert_of_mem (older other inside wasMarked))
      rw [entering_cons_of_unmarked wasUnmarked, List.cons_append]
      by_cases inward : graph.Inward node
      · obtain ⟨innerTurns, innerBound, inner⟩ :=
          searchInner (marks.mark node)
            (fun other inside => ((marks.mark node).isMarked_iff other inside).mp) finished
            (.leave node :: (entering before rest ++ below))
        obtain ⟨turns, bound, makes⟩ :=
          Makes.enter new unmarked inward inner fun between finishedLater innerMarks =>
            searchLater innerMarks stillOlder finishedLater below
        refine ⟨turns, ?_, makes⟩
        rw [emitted_explore_cons new, effort_append_cons, List.length_cons]
        omega
      · refine ⟨1, by simp only [List.length_cons]; omega, ?_⟩
        refine .fails ?_ inward (StackWalk.fails_of_new finished _ unmarked inward)
        rw [emitted_explore_cons new]
        exact List.mem_append_right _ List.mem_cons_self
  | pass seen node rest old searchRest =>
      rw [explore_cons_of_old old, List.length_cons]
      obtain ⟨turns, bound, makes⟩ := searchRest marks older finished below
      by_cases wasMarked : isMarked before node = true
      · rw [entering_cons_of_marked wasMarked]
        exact ⟨turns, by omega, makes⟩
      · have stale : isMarked marked node = true := by
          rw [← Bool.not_eq_false, marks.isMarked_eq_false_iff]
          exact old
        rw [entering_cons_of_unmarked (by simpa using wasMarked), List.cons_append]
        have passes := StackWalk.comes_of_old graph finished (entering before rest ++ below) stale
        exact ⟨1 + turns, by omega, makes.after passes rfl⟩

end

/-! ## Whole walks -/

/-- From a node of the graph the edges inside it lead to an edge that leads out of it. -/
def LeadsOut (graph : Digraph) (start : Nat) : Prop :=
  start < graph.size ∧
    ∃ source target,
      Reaches graph.Edge start source ∧
        target ∈ graph.successors source ∧ graph.size ≤ target

/-- An edge out of the graph is met exactly if it starts on the walk. -/
theorem leadsOut_iff
    {graph : Digraph}
    {start : Nat}
    (inside : start < graph.size) :
    graph.LeadsOut start ↔ ∃ node ∈ graph.postorder start, ¬ graph.Inward node := by
  constructor
  · rintro ⟨_, source, target, reaches, isSuccessor, outside⟩
    refine ⟨source, (mem_postorder_iff inside).mpr reaches, ?_⟩
    intro inward
    exact Nat.not_lt_of_le outside (inward target isSuccessor)
  · rintro ⟨source, visited, outward⟩
    simp only [Inward, not_forall, Nat.not_lt] at outward
    obtain ⟨target, isSuccessor, outside⟩ := outward
    exact ⟨inside, source, target, (mem_postorder_iff inside).mp visited, isSuccessor, outside⟩

/-- The walk from a node outside the graph is empty. -/
theorem postorder_of_outside
    {graph : Digraph}
    {start : Nat}
    (outside : graph.size ≤ start) :
    graph.postorder start = [] := by
  have old : ¬ (start < graph.size ∧ start ∉ (∅ : Finset Nat)) :=
    fun new => Nat.not_lt_of_le outside new.1
  rw [postorder_eq_search, search, explore_cons_of_old old, emitted_explore_nil]

/-- In turns a walk from inside the graph comes to the same end within a bound. -/
theorem exists_run_of_inside
    {graph : Digraph}
    {start : Nat}
    (inside : start < graph.size) :
    ∃ turns ≤ graph.effort (List.range graph.size) + 2,
      ∃ outcome,
        (StackWalk.start graph start).run graph turns = some outcome ∧
          outcome.toOption = (graph.postorder? start).toOption := by
  have marks := Marks.begin graph
  have unmarked : isMarked (Array.replicate graph.size false) start = false :=
    marks.isMarked_eq_false_iff.mpr ⟨inside, Finset.notMem_empty start⟩
  have isStart :
      StackWalk.start graph start =
        ⟨Array.replicate graph.size false, [],
          entering (Array.replicate graph.size false) [start] ++ []⟩ := by
    simp [StackWalk.start, inside, entering, unmarked]
  obtain ⟨turns, bound, makes⟩ :=
    explore_in_turns marks (fun node below => (marks.isMarked_iff node below).mp) [] [start] []
  have emitted_eq : (graph.explore ∅ [start]).emitted = graph.postorder start :=
    (postorder_eq_search graph start).symm
  have most : graph.effort (graph.postorder start) ≤ graph.effort (List.range graph.size) :=
    effort_le (nodup_postorder graph start) fun _ => lt_size_of_mem_postorder
  rw [emitted_eq, List.length_singleton] at bound
  rw [← isStart] at makes
  cases makes with
  | comes inward _ comes =>
      rw [emitted_eq] at inward comes
      refine ⟨turns + 1, by omega, .ok (graph.postorder start), ?_, ?_⟩
      · rw [comes 1]
        simp [StackWalk.start, StackWalk.run, StackWalk.turn]
      · rw [postorder?_of_inward inward]
  | fails visited outward fails =>
      rw [emitted_eq] at visited
      obtain ⟨edge, fails⟩ := fails
      obtain ⟨other, failed⟩ := exists_postorder?_eq_error visited outward
      refine ⟨turns, by omega, .error edge, fails 0, ?_⟩
      rw [failed]
      rfl

/--
The walk is the recursive search.  Made in turns, it takes at most one turn for each node
and each edge and two more.  From outside the graph it is empty; it fails if an edge out of
the graph can be reached; otherwise it lists what the search emits.
-/
theorem postorder?_follows_search
    (graph : Digraph)
    (start : Nat) :
    (∃ turns ≤ graph.effort (List.range graph.size) + 2,
      ∃ outcome,
        (StackWalk.start graph start).run graph turns = some outcome ∧
          outcome.toOption = (graph.postorder? start).toOption) ∧
    (graph.size ≤ start → graph.postorder? start = .ok []) ∧
    (graph.LeadsOut start → ∃ edge, graph.postorder? start = .error edge) ∧
    (start < graph.size →
      ¬ graph.LeadsOut start → graph.postorder? start = .ok (graph.search start)) := by
  have empty (outside : graph.size ≤ start) : graph.postorder? start = .ok [] := by
    have order_eq := postorder_of_outside outside
    rw [postorder?_of_inward (by simp [order_eq]), order_eq]
  refine ⟨?_, empty, ?_, ?_⟩
  · rcases Nat.lt_or_ge start graph.size with inside | outside
    · exact exists_run_of_inside inside
    · refine ⟨1, by omega, .ok [], ?_, by rw [empty outside]⟩
      simp [StackWalk.start, StackWalk.run, StackWalk.turn, Nat.not_lt_of_le outside]
  · intro leadsOut
    obtain ⟨node, visited, outward⟩ := (leadsOut_iff leadsOut.1).mp leadsOut
    exact exists_postorder?_eq_error visited outward
  · intro inside staysInside
    rw [leadsOut_iff inside] at staysInside
    rw [← postorder_eq_search]
    refine postorder?_of_inward ?_
    intro node visited
    by_contra outward
    exact staysInside ⟨node, visited, outward⟩

/-- Node `2` waits on the stack while the walk comes to it through node `1`. -/
def overtakenNode : Digraph := ⟨#[[1, 2, 1], [2, 1], [0, 1]]⟩

/-- The frames that have become stale are passed over, and an edge that leads out is met. -/
theorem overtakenNode_follows_search :
    overtakenNode.postorder? 0 = .ok (overtakenNode.search 0) ∧
      overtakenNode.search 0 = [2, 1, 0] ∧
        ∃ edge, Digraph.postorder? ⟨#[[1, 2], [0, 1], [3]]⟩ 0 = .error edge := by
  have inside : 0 < overtakenNode.size := by decide
  have closed : overtakenNode.Closed := by decide
  have staysInside : ¬ overtakenNode.LeadsOut 0 := by
    rw [leadsOut_iff inside]
    rintro ⟨node, visited, outward⟩
    exact outward (closed node (lt_size_of_mem_postorder visited))
  have walked : overtakenNode.postorder 0 = [2, 1, 0] := by decide +kernel
  have leadsOut : LeadsOut ⟨#[[1, 2], [0, 1], [3]]⟩ 0 :=
    ⟨by decide, 2, 3, ⟨_, Path.start.extend ⟨by decide, by decide⟩⟩, by decide, by decide⟩
  refine ⟨(postorder?_follows_search overtakenNode 0).2.2.2 inside staysInside, ?_,
    (postorder?_follows_search ⟨#[[1, 2], [0, 1], [3]]⟩ 0).2.2.1 leadsOut⟩
  rw [← postorder_eq_search, walked]

end Dominance.Digraph
