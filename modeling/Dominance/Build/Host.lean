import Dominance.Graph.Basic

namespace Dominance

/-!
# Hosts

A host is what a build works on: it lists its blocks with their postorder
indices and answers the question which blocks precede a block.  Nothing is
taken for granted about it.  Its size need not be the length of its list, and
it may answer the same question differently the next time.

A build asks about a block once in a pass, so the answers to the questions about
a block are told apart by the number of earlier questions about it.
-/

/-- Something that lists numbered blocks and knows their predecessors. -/
structure Host where
  /-- The number of blocks that the host claims to have. -/
  size : Nat
  entry : Address
  nodes : List Node
  /-- The predecessors named after a number of earlier questions about a block. -/
  predecessors : Nat → Address → List Address

/-- After so many questions about a block the host repeats its answers. -/
def Host.SettlesAt (host : Host) (time : Nat) : Prop :=
  ∀ later, time ≤ later → host.predecessors later = host.predecessors time

/-- A flow graph is a host that never changes its answers. -/
def FlowGraph.host (graph : FlowGraph) : Host where
  size := graph.size
  entry := graph.entry
  nodes := graph.nodes
  predecessors := fun _ address => graph.predecessors address

/-- A flow graph is settled from the start. -/
theorem FlowGraph.settlesAt_zero (graph : FlowGraph) : graph.host.SettlesAt 0 :=
  fun _ _ => rfl

/-- The answers to the questions about one block; the last is repeated. -/
structure Answers where
  block : Address
  lists : List (List Address)
  deriving DecidableEq, Repr

namespace Answers

/-- The answer after a number of earlier questions. -/
def after (answers : Answers) (time : Nat) : List Address :=
  match answers.lists[time]? with
  | some list => list
  | none => answers.lists.getLast?.getD []

/-- The answers are the same once all lists have been given. -/
theorem after_eq_of_length_le
    {answers : Answers}
    {first second : Nat}
    (firstLate : answers.lists.length ≤ first)
    (secondLate : answers.lists.length ≤ second) :
    answers.after first = answers.after second := by
  simp [Answers.after, List.getElem?_eq_none firstLate,
    List.getElem?_eq_none secondLate]

end Answers

/-- A host given by tables of its blocks and of its answers. -/
structure HostTable where
  size : Nat
  entry : Address
  nodes : List Node
  answers : List Answers

namespace HostTable

/-- The host of a table.  A block without answers has no predecessors. -/
def host (table : HostTable) : Host where
  size := table.size
  entry := table.entry
  nodes := table.nodes
  predecessors := fun time address =>
    match table.answers.find? fun answers => answers.block = address with
    | none => []
    | some answers => answers.after time

/-- The number of answers that suffices for every block. -/
def longest : List Answers → Nat
  | [] => 0
  | answers :: rest => max answers.lists.length (longest rest)

/-- The number of questions about a block after which the answers repeat. -/
def settlingTime (table : HostTable) : Nat :=
  longest table.answers

/-- No block has more answers than the longest list. -/
theorem length_le_longest
    {answers : Answers}
    {all : List Answers}
    (member : answers ∈ all) :
    answers.lists.length ≤ longest all := by
  induction all with
  | nil => simp at member
  | cons first rest inductionHypothesis =>
      rcases List.mem_cons.mp member with isFirst | inRest
      · subst isFirst
        exact Nat.le_max_left _ _
      · exact Nat.le_trans (inductionHypothesis inRest) (Nat.le_max_right _ _)

/-- The host of a table repeats its answers from the settling time on. -/
theorem settlesAt_settlingTime (table : HostTable) :
    table.host.SettlesAt table.settlingTime := by
  intro later late
  funext address
  simp only [host]
  cases found : table.answers.find? fun answers => answers.block = address with
  | none => rfl
  | some answers =>
      have short : answers.lists.length ≤ table.settlingTime :=
        length_le_longest (List.mem_of_find?_eq_some found)
      exact Answers.after_eq_of_length_le (Nat.le_trans short late) short

end HostTable

end Dominance
