import Dominance.Address

namespace Dominance

/-!
# Numbered blocks

A node is a block as the dominator analysis sees it: its address and, once it
has been numbered, its postorder index.
-/

/-- A block with its postorder index, if it has one. -/
structure Node where
  address : Address
  postorder : Option Nat := none
  deriving DecidableEq, Repr

namespace Node

/-- The text of a node that also names its fields. -/
def debugText (node : Node) : String :=
  let index :=
    match node.postorder with
    | none => "None"
    | some postorder => s!"Some({postorder})"
  s!"CfgNode \x7b address: {node.address.debugText}, postorder: {index} \x7d"

end Node

/-- The position of a block in insertion order. -/
structure BlockId where
  index : Nat
  deriving DecidableEq, Repr

namespace BlockId

/-- The short text of a position. -/
def text (id : BlockId) : String :=
  s!"n{id.index}"

instance : ToString BlockId := ⟨text⟩

/-- The text of a position that also names its type. -/
def debugText (id : BlockId) : String :=
  s!"NodeId({id.index})"

end BlockId

end Dominance
