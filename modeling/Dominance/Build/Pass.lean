import Dominance.Build.Error
import Dominance.Build.Host
import Dominance.Log

namespace Dominance

/-!
# Passes over a dominator tree

A pass visits every index but the root, from the highest down.  At each index
the host is asked for the predecessors of the block, and the index is linked to
the nearest index that is on the chains of all predecessors that have a link.
Predecessors without a link, and the block itself, are left out of account.

Progress records the tree together with what a caller may want to know about
the way to it; it is kept when a visit fails.
-/

/-- The state of a build. -/
structure Progress where
  tree : DominatorTree
  /-- The number of passes that are complete. -/
  passes : Nat := 0
  /-- Whether the last pass, or the pass under way, changed a link. -/
  changed : Bool := true
  /-- The number of questions that the host was asked. -/
  questions : Nat := 0
  log : Array LogRecord := #[]

/-- An error, and the progress that was made before it. -/
structure Failure where
  cause : BuildError
  progress : Progress

namespace DominatorTree

/-- The indices of predecessors, without the index of the block itself. -/
def resolve
    (tree : DominatorTree)
    (block : Address)
    (index : Nat) :
    List Address → Except BuildError (List Nat)
  | [] => .ok []
  | predecessor :: rest =>
      match tree.postorder? predecessor with
      | none => .error (.unknownPredecessor predecessor block)
      | some found =>
          match tree.resolve block index rest with
          | .error error => .error error
          | .ok others =>
              .ok (if found = index then others else found :: others)

/-- Whether an index is linked. -/
def isLinked (tree : DominatorTree) (index : Nat) : Bool :=
  (tree.link? index).isSome

/-- The nearest index on the chain of an index and on those of further indices. -/
def meetAll
    (tree : DominatorTree)
    (nearest : Nat) :
    List Nat → Except BrokenChain Nat
  | [] => .ok nearest
  | next :: rest =>
      match tree.meet next nearest with
      | .error error => .error error
      | .ok common => tree.meetAll common rest

/-- The nearest index on the chains of all linked predecessors of an index. -/
def commonDominator
    (tree : DominatorTree)
    (index : Nat)
    (predecessors : List Nat) :
    Except BuildError Nat :=
  match predecessors.filter tree.isLinked with
  | [] => .error (.unresolvable index)
  | first :: rest =>
      match tree.meetAll first rest with
      | .error error => .error (.brokenChain error)
      | .ok dominator => .ok dominator

/--
The dominator of an index according to the predecessors of its block.

A dominator has a higher index than what it dominates.
-/
def dominatorOf
    (tree : DominatorTree)
    (block : Address)
    (index : Nat)
    (predecessors : List Address) :
    Except BuildError Nat :=
  match tree.resolve block index predecessors with
  | .error error => .error error
  | .ok indices =>
      match tree.commonDominator index indices with
      | .error error => .error error
      | .ok dominator =>
          if index < dominator then
            .ok dominator
          else
            .error (.lowDominator block index dominator)

end DominatorTree

namespace Progress

/-- The state in which a build starts. -/
def start (tree : DominatorTree) : Progress := { tree := tree }

/-- Count one more question. -/
def ask (progress : Progress) : Progress :=
  { progress with questions := progress.questions + 1 }

/-- Record a link and report it, unless it is recorded already. -/
def link (progress : Progress) (index dominator : Nat) : Progress :=
  if progress.tree.link? index = some dominator then
    progress
  else
    { progress with
      tree := progress.tree.setLink index dominator
      changed := true
      log := progress.log.push (.linked (progress.passes + 1) index dominator) }

/-- Visit one index. -/
def visit
    (host : Host)
    (index : Nat)
    (progress : Progress) :
    Except Failure Progress :=
  let block := (progress.tree.address? index).getD default
  let predecessors := host.predecessors progress.passes block
  match progress.tree.dominatorOf block index predecessors with
  | .error cause => .error ⟨cause, progress.ask⟩
  | .ok dominator => .ok (progress.ask.link index dominator)

/-- Visit the indices below a bound, from the highest down. -/
def sweep
    (host : Host) :
    Nat → Progress → Except Failure Progress
  | 0, progress => .ok progress
  | index + 1, progress =>
      match progress.visit host index with
      | .error failure => .error failure
      | .ok visited => sweep host index visited

/-- Make one pass. -/
def pass (host : Host) (progress : Progress) : Except Failure Progress :=
  match sweep host (progress.tree.size - 1) { progress with changed := false } with
  | .error failure => .error failure
  | .ok swept => .ok { swept with passes := swept.passes + 1 }

end Progress

end Dominance
