import Dominance.Address

namespace Dominance

/-!
# Dominator trees

A dominator tree lists addresses by postorder index and links every index to
the index of its immediate dominator.  The last index is the root and links to
itself.  While a tree is being built some links are missing, and a tree that
was put together by hand may hold any link at all.

A link climbs when it leads to a higher index.  Following links as long as they
climb ends after at most as many steps as there are indices, whatever the links
are; `ascent` is the list of the indices met.
-/

/-- Addresses by postorder index, with links to immediate dominators. -/
structure DominatorTree where
  /-- The address at each postorder index. -/
  order : Array Address
  /-- The index of the immediate dominator, where one is recorded. -/
  links : Array (Option Nat)
  /-- The number of passes that the computation took. -/
  passes : Nat
  links_size : links.size = order.size
  deriving DecidableEq

/-- A link to an index that holds no address. -/
structure DanglingLink where
  index : Nat
  deriving DecidableEq, Repr

/-- A chain of links that ends before it meets another chain. -/
structure BrokenChain where
  index : Nat
  deriving DecidableEq, Repr

/-- The wording for a broken chain. -/
def BrokenChain.message (error : BrokenChain) : String :=
  s!"Dominator chain of #{error.index} does not climb; " ++
    "numbering is not a depth-first postorder"

namespace DominatorTree

/-- The number of indices. -/
def size (tree : DominatorTree) : Nat :=
  tree.order.size

/-- The tree over some addresses in which only the root is linked. -/
def ofOrder (order : Array Address) : DominatorTree where
  order := order
  links :=
    (Array.replicate order.size none).setIfInBounds
      (order.size - 1) (some (order.size - 1))
  passes := 0
  links_size := by simp

/-- The recorded link of an index. -/
def link? (tree : DominatorTree) (index : Nat) : Option Nat :=
  tree.links.getD index none

/-- Record a link.  An index outside the tree is ignored. -/
def setLink (tree : DominatorTree) (index dominator : Nat) : DominatorTree where
  order := tree.order
  links := tree.links.setIfInBounds index (some dominator)
  passes := tree.passes
  links_size := by simp [tree.links_size]

/-- Record a link, unless the index lies outside the tree. -/
def setLink? (tree : DominatorTree) (index dominator : Nat) : Option DominatorTree :=
  if index < tree.size then some (tree.setLink index dominator) else none

/-- Record the number of passes. -/
def setPasses (tree : DominatorTree) (passes : Nat) : DominatorTree :=
  { tree with passes := passes }

/-- The address at an index. -/
def address? (tree : DominatorTree) (index : Nat) : Option Address :=
  tree.order[index]?

/-- The highest index below a bound that holds an address. -/
def lastIndex? (order : Array Address) (address : Address) : Nat → Option Nat
  | 0 => none
  | bound + 1 =>
      if order[bound]?.any (· = address) then
        some bound
      else
        lastIndex? order address bound

/-- The postorder index of an address; the highest, if there are several. -/
def postorder? (tree : DominatorTree) (address : Address) : Option Nat :=
  lastIndex? tree.order address tree.size

/-- The link of an index, if it climbs. -/
def climb? (tree : DominatorTree) (index : Nat) : Option Nat :=
  (tree.link? index).filter (index < ·)

/-- A climbing link starts inside the tree and leads to a higher index. -/
theorem lt_of_climb?_eq_some
    {tree : DominatorTree}
    {index dominator : Nat}
    (climbs : tree.climb? index = some dominator) :
    index < tree.size ∧ index < dominator := by
  obtain ⟨linked, higher⟩ := Option.filter_eq_some_iff.mp climbs
  refine ⟨?_, by simpa using higher⟩
  rw [size, ← tree.links_size]
  apply Nat.lt_of_not_le
  intro outside
  simp [link?, Array.getD_eq_getD_getElem?,
    Array.getElem?_eq_none outside] at linked

/-- The indices met from an index on by following climbing links. -/
def ascent (tree : DominatorTree) (index : Nat) : List Nat :=
  match _climbs : tree.climb? index with
  | none => [index]
  | some dominator => index :: tree.ascent dominator
termination_by tree.size - index
decreasing_by
  have := lt_of_climb?_eq_some ‹tree.climb? index = some dominator›
  omega

/--
The nearest index on the chains of two indices.

The lower of the two follows its link until both agree.  The search fails where
the chain to be followed ends.
-/
def meet
    (tree : DominatorTree)
    (first second : Nat) :
    Except BrokenChain Nat :=
  if first = second then
    .ok first
  else if first < second then
    match _climbs : tree.climb? first with
    | none => .error ⟨first⟩
    | some dominator => tree.meet dominator second
  else
    match _climbs : tree.climb? second with
    | none => .error ⟨second⟩
    | some dominator => tree.meet first dominator
termination_by (tree.size - first) + (tree.size - second)
decreasing_by
  · have := lt_of_climb?_eq_some ‹tree.climb? first = some dominator›
    omega
  · have := lt_of_climb?_eq_some ‹tree.climb? second = some dominator›
    omega

end DominatorTree

end Dominance
