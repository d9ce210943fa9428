import Dominance.Tree.Verify

namespace Dominance

/-!
# Why a dominator tree cannot be built

A numbering error says what keeps the postorder indices of a host from being a
numbering: the indices must be `0, 1, …, size - 1`, each held by one block, and
the entry must hold the highest.  A host without blocks, or one that announces
more of them than can be kept, is not looked at any further.  The other errors
arise in a pass.
-/

/-- What is wrong with the postorder indices of a host. -/
inductive NumberingError where
  | missing (block : Address)
  | outside (block : Address) (index size : Nat)
  | shared (first second : Address) (index : Nat)
  | repeated (block : Address) (first second : Nat)
  | unused (index : Nat)
  | misplacedEntry (entry : Address) (index : Nat) (found : Address)
  deriving DecidableEq, Repr

/-- The wording of a numbering error. -/
def NumberingError.message : NumberingError → String
  | .missing block => s!"Block {block} has no postorder index"
  | .outside block index size =>
      s!"Block {block} has postorder index {index} outside [0, {size})"
  | .shared first second index =>
      s!"Blocks {first} and {second} share postorder index {index}"
  | .repeated block first second =>
      s!"Block {block} holds postorder indices {first} and {second}"
  | .unused index => s!"No block has postorder index {index}"
  | .misplacedEntry entry index found =>
      s!"Entry {entry} must hold postorder index {index}, found {found}"

/-- Why a build fails. -/
inductive BuildError where
  /-- The host has no blocks. -/
  | empty
  /-- The host announces more blocks than a table can hold. -/
  | tooLarge (size : Nat)
  /-- The postorder indices are no numbering. -/
  | numbering (error : NumberingError)
  /-- The host named a predecessor that is none of its blocks. -/
  | unknownPredecessor (predecessor block : Address)
  /-- No predecessor of an index is linked yet. -/
  | unresolvable (index : Nat)
  /-- The predecessors of an index meet at an index that is not higher. -/
  | lowDominator (block : Address) (index dominator : Nat)
  /-- The chains of two predecessors do not meet. -/
  | brokenChain (error : BrokenChain)
  /-- The links still changed when the limit was reached. -/
  | passLimit (limit : Nat)
  /-- The finished tree did not pass verification. -/
  | invalidTree (fault : TreeFault)
  deriving DecidableEq, Repr

namespace BuildError

/-- The wording of a build error. -/
def message : BuildError → String
  | .empty => "Provided graph was empty"
  | .tooLarge size => s!"No table can hold {size} blocks"
  | .numbering error => error.message
  | .unknownPredecessor predecessor block =>
      s!"Predecessor {predecessor} of block {block} is not part of the graph"
  | .unresolvable index =>
      s!"No predecessor with a known dominator for node #{index}"
  | .lowDominator block index dominator =>
      s!"Block {block} (#{index}) resolved to dominator #{dominator}; " ++
        "numbering is not a depth-first postorder"
  | .brokenChain error => error.message
  | .passLimit limit =>
      s!"Dominator computation did not converge within {limit} passes"
  | .invalidTree fault => fault.message

/-- Whether the error says that the input breaks a rule for hosts or trees. -/
def isMalformed : BuildError → Bool
  | .empty => false
  | .tooLarge _ => false
  | .numbering _ => true
  | .unknownPredecessor .. => true
  | .unresolvable _ => false
  | .lowDominator .. => true
  | .brokenChain _ => true
  | .passLimit _ => false
  | .invalidTree _ => true

end BuildError

/-- The wording of a build error as it stands in a report. -/
def BuildError.reportText (error : BuildError) : String :=
  if error.isMalformed then malformedText error.message else error.message

end Dominance
