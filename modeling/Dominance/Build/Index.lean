import Dominance.Build.Error
import Dominance.Build.Host

namespace Dominance.Host

/-!
# Ordering the blocks of a host

Before a build the blocks are put in the order of their postorder indices.  The
nodes are taken one by one, and the first that breaks a rule is reported: it
must have an index below the size of the host, and no node before it may have
the same index or the same address.  Then every index must be in use, and the
highest must belong to the entry.

Two tables are set aside before the first node is taken, one for the order and
one in which addresses are looked up.  Their size is the one that the host
announces, so a host that lists few blocks may still ask for tables that cannot
exist.
-/

/-- A block whose postorder index has been accepted. -/
structure Placement where
  address : Address
  index : Nat
  deriving DecidableEq, Repr

/-- Accept the index of a node after some placements. -/
def place
    (size : Nat)
    (placed : List Placement)
    (node : Node) :
    Except NumberingError Placement :=
  match node.postorder with
  | none => .error (.missing node.address)
  | some index =>
      if index < size then
        match placed.find? fun other => other.index = index with
        | some other => .error (.shared other.address node.address index)
        | none =>
            match placed.find? fun other => other.address = node.address with
            | some other => .error (.repeated node.address other.index index)
            | none => .ok ⟨node.address, index⟩
      else
        .error (.outside node.address index size)

/-- Accept the indices of nodes one after the other. -/
def placeAll
    (size : Nat)
    (placed : List Placement) :
    List Node → Except NumberingError (List Placement)
  | [] => .ok placed
  | node :: rest =>
      match place size placed node with
      | .error error => .error error
      | .ok placement => placeAll size (placement :: placed) rest

/-- The address that was placed at an index. -/
def placedAt? (placed : List Placement) (index : Nat) : Option Address :=
  (placed.find? fun placement => placement.index = index).map fun placement =>
    placement.address

/-- The addresses placed at so many indices from an index on, or the first unused one. -/
def fill
    (placed : List Placement)
    (index : Nat) :
    Nat → Except NumberingError (List Address)
  | 0 => .ok []
  | count + 1 =>
      match placedAt? placed index with
      | none => .error (.unused index)
      | some address =>
          match fill placed (index + 1) count with
          | .error error => .error error
          | .ok addresses => .ok (address :: addresses)

/-- The addresses of a host in the order of their postorder indices. -/
def order (host : Host) : Except NumberingError (List Address) :=
  match placeAll host.size [] host.nodes with
  | .error error => .error error
  | .ok placed =>
      match fill placed 0 host.size with
      | .error error => .error error
      | .ok addresses =>
          let last := addresses.getLast?.getD default
          if last = host.entry then
            .ok addresses
          else
            .error (.misplacedEntry host.entry (host.size - 1) last)

/--
The number of blocks for which both tables can be set aside.

A place in a table takes sixteen bytes, and all places of a table together must
have fewer bytes than half of all 64-bit addresses.  The table for looking up has
a power of two of places and uses seven eighths of them.  So it has at most
`2 ^ 58` places and holds at most `7 * 2 ^ 55` blocks, fewer than the other table.
-/
def tableCapacity : Nat := 0x380000000000000

/--
Whether a host announces more blocks than it lists and than the tables can hold.

Blocks that are all listed are kept somewhere, as the blocks of a flow graph are,
together with a table of addresses that has the same limit.
-/
def Overstates (host : Host) : Prop :=
  host.nodes.length < host.size ∧ tableCapacity < host.size

instance (host : Host) : Decidable host.Overstates :=
  inferInstanceAs (Decidable (_ ∧ _))

/-- The tree over the blocks of a host in which only the entry is linked. -/
def index (host : Host) : Except BuildError DominatorTree :=
  if host.size = 0 then
    .error .empty
  else if host.Overstates then
    .error (.tooLarge host.size)
  else
    match host.order with
    | .error error => .error (.numbering error)
    | .ok addresses => .ok (.ofOrder addresses.toArray)

end Dominance.Host
