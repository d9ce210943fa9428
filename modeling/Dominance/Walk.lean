namespace Dominance

/-!
# Depth-first walks

A `Digraph` gives every node `0, 1, …, size - 1` the list of its successors.
The walk from a node is run with an explicit stack of frames: to enter a node
that is new, mark it and put its successors on the stack above a frame that
leaves it again; leaving a node appends it to the walk.  The stack may hold a
node several times, and only the first entry counts.

Each entry of a new node adds at most its successors and one more frame, so the
frames on the stack together with the frames that unmarked nodes can still add
bound the work that is left.
-/

/-- A directed graph on the nodes below `size`.  An edge may lead out of it. -/
structure Digraph where
  /-- The successors of each node, in order, with repetitions. -/
  targets : Array (List Nat)

/-- An edge that leads to a node outside the graph. -/
structure DanglingEdge where
  source : Nat
  target : Nat
  deriving DecidableEq, Repr

namespace Digraph

/-- The number of nodes. -/
def size (graph : Digraph) : Nat :=
  graph.targets.size

/-- The successors of a node; a node outside the graph has none. -/
def successors (graph : Digraph) (node : Nat) : List Nat :=
  graph.targets.getD node []

/-- A task of the walk. -/
inductive Frame where
  | enter (node : Nat)
  | leave (node : Nat)
  deriving DecidableEq, Repr

/-- A node outside the graph counts as marked, so it is never entered. -/
def isMarked (marked : Array Bool) (node : Nat) : Bool :=
  marked.getD node true

/-- Mark a node. -/
def mark (marked : Array Bool) (node : Nat) : Array Bool :=
  marked.setIfInBounds node true

/-- Marking a node marks it and leaves all others alone. -/
theorem isMarked_mark
    (marked : Array Bool)
    (node other : Nat) :
    isMarked (mark marked node) other =
      (isMarked marked other || decide (other = node)) := by
  simp only [isMarked, mark, Array.getD_eq_getD_getElem?, Array.getElem?_setIfInBounds]
  by_cases same : node = other
  · subst same
    by_cases inside : node < marked.size <;> simp [inside]
  · have different : ¬ other = node := fun equal => same equal.symm
    simp [same, different]

/-- The frames that entering a node may still put on the stack, with some slack. -/
def frameBound
    (graph : Digraph)
    (marked : Array Bool)
    (node : Nat) :
    Nat :=
  if isMarked marked node then 0 else (graph.successors node).length + 2

/-- The frames that some nodes together may still put on the stack. -/
def frameSum
    (graph : Digraph)
    (marked : Array Bool) :
    List Nat → Nat
  | [] => 0
  | node :: rest => graph.frameBound marked node + graph.frameSum marked rest

/-- The frames that all unmarked nodes together may still put on the stack. -/
def pendingFrames (graph : Digraph) (marked : Array Bool) : Nat :=
  graph.frameSum marked (List.range marked.size)

/-- Marking a node raises no bound. -/
theorem frameBound_mark_le
    (graph : Digraph)
    (marked : Array Bool)
    (node other : Nat) :
    graph.frameBound (mark marked node) other ≤ graph.frameBound marked other := by
  unfold frameBound
  rw [isMarked_mark]
  cases isMarked marked other with
  | true => simp
  | false =>
      simp only [Bool.false_or, decide_eq_true_eq]
      split <;> simp

/-- Marking a node raises no sum of bounds. -/
theorem frameSum_mark_le
    (graph : Digraph)
    (marked : Array Bool)
    (node : Nat)
    (nodes : List Nat) :
    graph.frameSum (mark marked node) nodes ≤ graph.frameSum marked nodes := by
  induction nodes with
  | nil => exact Nat.le_refl 0
  | cons first rest inductionHypothesis =>
      exact Nat.add_le_add
        (frameBound_mark_le graph marked node first) inductionHypothesis

/-- Marking a new node takes its bound out of every sum that holds it. -/
theorem frameSum_mark_add_le
    (graph : Digraph)
    (marked : Array Bool)
    (node : Nat)
    (new : isMarked marked node = false)
    (nodes : List Nat)
    (member : node ∈ nodes) :
    graph.frameSum (mark marked node) nodes +
        ((graph.successors node).length + 2) ≤
      graph.frameSum marked nodes := by
  induction nodes with
  | nil => simp at member
  | cons first rest inductionHypothesis =>
      simp only [frameSum]
      rcases List.mem_cons.mp member with isFirst | inRest
      · subst isFirst
        have restBelow := frameSum_mark_le graph marked node rest
        have before :
            graph.frameBound marked node =
              (graph.successors node).length + 2 := by
          simp [frameBound, new]
        have after : graph.frameBound (mark marked node) node = 0 := by
          simp [frameBound, isMarked_mark]
        omega
      · have restBelow := inductionHypothesis inRest
        have firstBelow := frameBound_mark_le graph marked node first
        omega

/-- Marking a new node releases the frames that it could put on the stack. -/
theorem pendingFrames_mark
    (graph : Digraph)
    (marked : Array Bool)
    (node : Nat)
    (new : isMarked marked node = false) :
    graph.pendingFrames (mark marked node) +
        ((graph.successors node).length + 2) ≤
      graph.pendingFrames marked := by
  have inside : node < marked.size := by
    apply Nat.lt_of_not_le
    intro outside
    simp [isMarked, Array.getD_eq_getD_getElem?,
      Array.getElem?_eq_none outside] at new
  have sameSize : (mark marked node).size = marked.size := by
    simp [mark]
  unfold pendingFrames
  rw [sameSize]
  exact frameSum_mark_add_le graph marked node new
    (List.range marked.size) (List.mem_range.mpr inside)

/--
Work off a stack of frames.

`finished` holds the nodes that were left so far, latest first.
-/
def work
    (graph : Digraph)
    (marked : Array Bool)
    (finished : List Nat)
    (stack : List Frame) :
    List Nat :=
  match stack with
  | [] => finished
  | .leave node :: rest => work graph marked (node :: finished) rest
  | .enter node :: rest =>
      if new : isMarked marked node = false then
        work graph (mark marked node) finished
          ((graph.successors node).map .enter ++ .leave node :: rest)
      else
        work graph marked finished rest
termination_by stack.length + graph.pendingFrames marked
decreasing_by
  · simp
  · have := pendingFrames_mark graph marked node new
    simp only [List.length_append, List.length_map, List.length_cons]
    omega
  · simp

/-- The nodes of the walk from a node, each before the nodes that were left earlier. -/
def reversePostorder (graph : Digraph) (start : Nat) : List Nat :=
  graph.work (Array.replicate graph.size false) [] [.enter start]

/--
The nodes of the walk from a node, in the order in which they are left.

Edges that lead out of the graph are not followed, and the walk from a node
outside the graph is empty.
-/
def postorder (graph : Digraph) (start : Nat) : List Nat :=
  (graph.reversePostorder start).reverse

/-- The first edge out of the graph among the edges of some nodes. -/
def danglingEdge? (graph : Digraph) (nodes : List Nat) : Option DanglingEdge :=
  nodes.findSome? fun source =>
    ((graph.successors source).find? fun target => graph.size ≤ target).map
      fun target => ⟨source, target⟩

/-- The walk from a node, or an edge met on it that leads out of the graph. -/
def postorder? (graph : Digraph) (start : Nat) : Except DanglingEdge (List Nat) :=
  let order := graph.postorder start
  match graph.danglingEdge? order with
  | some edge => .error edge
  | none => .ok order

/-- The reversed walk from a node, or an edge met on it that leads out of the graph. -/
def reversePostorder? (graph : Digraph) (start : Nat) : Except DanglingEdge (List Nat) :=
  (graph.postorder? start).map List.reverse

example : Digraph.postorder ⟨#[[1, 2], [3], [3], []]⟩ 0 = [3, 1, 2, 0] := by
  decide +kernel

end Digraph

end Dominance
