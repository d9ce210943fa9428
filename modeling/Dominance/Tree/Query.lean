import Dominance.Tree.Basic

namespace Dominance.DominatorTree

/-!
# Questions to a dominator tree

Every question is asked by address; an address outside the tree dominates
nothing and is dominated by nothing.  Questions that have to name the address
at the end of a link fail if the link leads out of the tree.  `dominates` never
does: it stops as soon as the chain has climbed past the index it looks for.
-/

/-- The address of the root, or the default address if the tree is empty. -/
def entry (tree : DominatorTree) : Address :=
  tree.order.back?.getD default

/-- Whether an address belongs to the tree. -/
def contains (tree : DominatorTree) (address : Address) : Bool :=
  (tree.postorder? address).isSome

/-- The address at an index to which a link leads. -/
def addressAt (tree : DominatorTree) (index : Nat) : Except DanglingLink Address :=
  match tree.address? index with
  | none => .error ⟨index⟩
  | some address => .ok address

/-- The link of an index, unless it leads back to the index. -/
def properLink? (tree : DominatorTree) (index : Nat) : Option Nat :=
  (tree.link? index).filter (· ≠ index)

/-- The immediate dominator of an address; the root has none. -/
def immediateDominator
    (tree : DominatorTree)
    (address : Address) :
    Except DanglingLink (Option Address) :=
  match (tree.postorder? address).bind tree.properLink? with
  | none => .ok none
  | some dominator => (tree.addressAt dominator).map some

/-- Whether the chain of an index meets a target index. -/
def reaches (tree : DominatorTree) (target current : Nat) : Bool :=
  if current < target then
    match _climbs : tree.climb? current with
    | none => false
    | some dominator => tree.reaches target dominator
  else
    current = target
termination_by tree.size - current
decreasing_by
  have := lt_of_climb?_eq_some ‹tree.climb? current = some dominator›
  omega

/-- Whether the first address dominates the second. -/
def dominates (tree : DominatorTree) (first second : Address) : Bool :=
  match tree.postorder? first, tree.postorder? second with
  | some target, some current => tree.reaches target current
  | _, _ => false

/-- Whether the first address dominates the second and differs from it. -/
def strictlyDominates (tree : DominatorTree) (first second : Address) : Bool :=
  first ≠ second && tree.dominates first second

/-- The indices of the dominators of an address, from its own index up. -/
def dominatorIndices (tree : DominatorTree) (address : Address) : List Nat :=
  match tree.postorder? address with
  | none => []
  | some index => tree.ascent index

/-- The dominators of an address, from itself up to the root. -/
def dominators
    (tree : DominatorTree)
    (address : Address) :
    Except DanglingLink (List Address) :=
  (tree.dominatorIndices address).mapM tree.addressAt

/-- The number of links from an address to the root. -/
def depth
    (tree : DominatorTree)
    (address : Address) :
    Except DanglingLink (Option Nat) :=
  if tree.contains address then
    (tree.dominators address).map fun chain => some (chain.length - 1)
  else
    .ok none

/-- The addresses whose immediate dominator is the given one, in increasing order. -/
def children (tree : DominatorTree) (address : Address) : List Address :=
  match tree.postorder? address with
  | none => []
  | some parent =>
      let indices :=
        (List.range tree.size).filter fun index =>
          tree.properLink? index = some parent
      (indices.filterMap tree.address?).mergeSort fun first second => first ≤ second

/-- Every address but the root with its immediate dominator, from the highest index down. -/
def toList
    (tree : DominatorTree) :
    Except DanglingLink (List (Address × Address)) :=
  let linked :=
    (List.range tree.size).reverse.filterMap fun index =>
      (tree.properLink? index).map fun dominator => (index, dominator)
  linked.mapM fun link => do
    let address ← tree.addressAt link.1
    let dominator ← tree.addressAt link.2
    return (address, dominator)

end Dominance.DominatorTree
