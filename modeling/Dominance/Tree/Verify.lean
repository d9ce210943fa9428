import Dominance.Tree.Basic

namespace Dominance

/-!
# Verification of dominator trees

A tree is sound when its root links to itself and every other link climbs
without leaving the tree.  Every chain of links then ends at the root.
-/

/-- What is wrong with a dominator tree. -/
inductive TreeFault where
  /-- The root does not link to itself. -/
  | unlinkedRoot (root : Address)
  /-- An index has no link. -/
  | missingLink (address : Address) (index : Nat)
  /-- A link does not climb, or it leads out of the tree. -/
  | strayLink (address : Address) (index dominator root : Nat)
  deriving DecidableEq, Repr

/-- The wording of a fault. -/
def TreeFault.message : TreeFault → String
  | .unlinkedRoot root => s!"Entry {root} is not its own dominator"
  | .missingLink address index =>
      s!"Block {address} (#{index}) has no immediate dominator"
  | .strayLink address index dominator root =>
      s!"Block {address} (#{index}) has dominator #{dominator} outside ({index}, {root}]"

namespace DominatorTree

/-- The fault of the link at one index below the root. -/
def linkFault?
    (tree : DominatorTree)
    (root index : Nat) :
    Option TreeFault :=
  let address := (tree.address? index).getD default
  match tree.link? index with
  | none => some (.missingLink address index)
  | some dominator =>
      if index < dominator ∧ dominator ≤ root then
        none
      else
        some (.strayLink address index dominator root)

/-- The first fault of a tree: the root is looked at first, then the lowest index. -/
def fault? (tree : DominatorTree) : Option TreeFault :=
  match tree.size with
  | 0 => none
  | root + 1 =>
      if tree.link? root = some root then
        (List.range root).findSome? (tree.linkFault? root)
      else
        some (.unlinkedRoot ((tree.address? root).getD default))

/-- Check a tree. -/
def verify (tree : DominatorTree) : Except TreeFault Unit :=
  match tree.fault? with
  | none => .ok ()
  | some fault => .error fault

end DominatorTree

end Dominance
