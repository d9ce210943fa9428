import Mathlib.Data.List.Nodup
import Dominance.Build.Index
import Dominance.Proofs.Lookup
import Dominance.Proofs.Rooted

namespace Dominance.Host

/-!
# Which hosts are accepted

The blocks of a host can be ordered exactly if its nodes are, in some order, the
members of a list of different addresses, each with its position in the list, and
the entry comes last.  The list is then the order that is found.
-/

namespace Placement

/-- The node that a placement was made for. -/
def node (placement : Placement) : Node where
  address := placement.address
  postorder := some placement.index

/-- The placement of a numbered node. -/
def ofNode (node : Node) : Placement where
  address := node.address
  index := node.postorder.getD 0

/-- Neither an index nor an address is used twice. -/
structure Separate (placed : List Placement) : Prop where
  indices : (placed.map Placement.index).Nodup
  addresses : (placed.map Placement.address).Nodup

theorem Separate.perm
    {first second : List Placement}
    (separate : Separate first)
    (same : first.Perm second) :
    Separate second where
  indices := (same.map Placement.index).nodup_iff.mp separate.indices
  addresses := (same.map Placement.address).nodup_iff.mp separate.addresses

theorem Separate.sublist
    {first second : List Placement}
    (separate : Separate second)
    (part : first.Sublist second) :
    Separate first where
  indices := separate.indices.sublist (part.map Placement.index)
  addresses := separate.addresses.sublist (part.map Placement.address)

end Placement

/-- A node is accepted if its index is low enough and neither index nor address is in use. -/
theorem place_eq_ok_iff
    {size : Nat}
    {placed : List Placement}
    {node : Node}
    {placement : Placement}
    (separate : Placement.Separate placed) :
    place size placed node = .ok placement ↔
      node = placement.node ∧
        placement.index < size ∧
          Placement.Separate (placement :: placed) := by
  have apart :
      Placement.Separate (placement :: placed) ↔
        (∀ other ∈ placed, other.index ≠ placement.index) ∧
          ∀ other ∈ placed, other.address ≠ placement.address := by
    constructor
    · intro together
      have freshIndex := (List.nodup_cons.mp together.indices).1
      have freshAddress := (List.nodup_cons.mp together.addresses).1
      simp only [List.mem_map, not_exists, not_and] at freshIndex freshAddress
      exact ⟨freshIndex, freshAddress⟩
    · rintro ⟨freshIndex, freshAddress⟩
      refine ⟨List.nodup_cons.mpr ⟨?_, separate.indices⟩,
        List.nodup_cons.mpr ⟨?_, separate.addresses⟩⟩
      · simpa using freshIndex
      · simpa using freshAddress
  rcases node with ⟨address, postorder⟩
  rcases placement with ⟨placedAddress, placedIndex⟩
  rw [apart]
  cases postorder with
  | none => simp [place, Placement.node]
  | some index =>
      simp only [place, Placement.node, Node.mk.injEq, Option.some.injEq]
      constructor
      · intro accepted
        split at accepted
        · rename_i below
          split at accepted
          · cases accepted
          · rename_i freshIndex
            split at accepted
            · cases accepted
            · rename_i freshAddress
              cases accepted
              simp only [List.find?_eq_none, decide_eq_true_eq] at freshIndex freshAddress
              exact ⟨⟨rfl, rfl⟩, below, freshIndex, freshAddress⟩
        · cases accepted
      · rintro ⟨⟨rfl, rfl⟩, below, freshIndex, freshAddress⟩
        have noIndex : placed.find? (fun other => other.index = index) = none := by
          simpa using freshIndex
        have noAddress : placed.find? (fun other => other.address = address) = none := by
          simpa using freshAddress
        simp [below, noIndex, noAddress]

/-- Nodes are accepted one after the other if all placements together are separate. -/
theorem placeAll_eq_ok_iff
    {size : Nat}
    {placed result : List Placement}
    {nodes : List Node}
    (separate : Placement.Separate placed) :
    placeAll size placed nodes = .ok result ↔
      ∃ fresh : List Placement,
        nodes = fresh.map Placement.node ∧
          result = fresh.reverse ++ placed ∧
            (∀ placement ∈ fresh, placement.index < size) ∧
              Placement.Separate result := by
  induction nodes generalizing placed with
  | nil =>
      simp only [placeAll, Except.ok.injEq]
      constructor
      · rintro rfl
        exact ⟨[], rfl, rfl, by simp, separate⟩
      · rintro ⟨fresh, noNodes, rfl, _⟩
        obtain rfl := List.map_eq_nil_iff.mp noNodes.symm
        rfl
  | cons node rest inductionHypothesis =>
      constructor
      · intro accepted
        rw [placeAll] at accepted
        split at accepted
        · cases accepted
        · rename_i placement isPlaced
          obtain ⟨isNode, below, together⟩ := (place_eq_ok_iff separate).mp isPlaced
          obtain ⟨fresh, restNodes, isResult, allBelow, resultSeparate⟩ :=
            (inductionHypothesis together).mp accepted
          refine ⟨placement :: fresh, by simp [isNode, restNodes],
            by simp [isResult], ?_, resultSeparate⟩
          exact List.forall_mem_cons.mpr ⟨below, allBelow⟩
      · rintro ⟨fresh, allNodes, isResult, allBelow, resultSeparate⟩
        cases fresh with
        | nil => simp at allNodes
        | cons placement later =>
            obtain ⟨isNode, restNodes⟩ := List.cons.inj allNodes
            obtain ⟨below, laterBelow⟩ := List.forall_mem_cons.mp allBelow
            have shape : result = later.reverse ++ (placement :: placed) := by
              simp [isResult]
            have together : Placement.Separate (placement :: placed) :=
              resultSeparate.sublist (shape ▸ List.sublist_append_right _ _)
            have isPlaced :=
              (place_eq_ok_iff separate).mpr ⟨isNode, below, together⟩
            simp only [placeAll, isPlaced]
            exact (inductionHypothesis together).mpr
              ⟨later, restNodes, shape, laterBelow, resultSeparate⟩

/-- The address at an index is the one that was placed there. -/
theorem placedAt?_eq_some_iff
    {placed : List Placement}
    {index : Nat}
    {address : Address}
    (separate : Placement.Separate placed) :
    placedAt? placed index = some address ↔ ⟨address, index⟩ ∈ placed := by
  rw [placedAt?, Option.map_eq_some_iff]
  constructor
  · rintro ⟨placement, found, rfl⟩
    have isIndex : placement.index = index := by
      simpa using List.find?_some found
    have member := List.mem_of_find?_eq_some found
    rw [← isIndex]
    exact member
  · intro member
    cases found : placed.find? fun placement => placement.index = index with
    | none =>
        have unused := List.find?_eq_none.mp found _ member
        simp at unused
    | some placement =>
        have isIndex : placement.index = index := by
          simpa using List.find?_some found
        have isSame : placement = ⟨address, index⟩ :=
          List.inj_on_of_nodup_map separate.indices
            (List.mem_of_find?_eq_some found) member isIndex
        exact ⟨placement, rfl, by rw [isSame]⟩

/-- Filling finds an address for each of so many indices. -/
theorem fill_eq_ok_iff
    {placed : List Placement}
    {index count : Nat}
    {addresses : List Address} :
    fill placed index count = .ok addresses ↔
      (List.range' index count).map (placedAt? placed) = addresses.map some := by
  induction count generalizing index addresses with
  | zero => cases addresses <;> simp [fill]
  | succ count inductionHypothesis =>
      rw [fill, List.range'_succ, List.map_cons]
      cases found : placedAt? placed index with
      | none =>
          cases addresses <;> simp
      | some address =>
          cases filled : fill placed (index + 1) count with
          | error error =>
              cases addresses with
              | nil => simp
              | cons first later =>
                  have notFilled := @inductionHypothesis (index + 1) later
                  rw [filled] at notFilled
                  simp only [reduceCtorEq, false_iff] at notFilled
                  simp [notFilled]
          | ok others =>
              have isFilled := inductionHypothesis.mp filled
              cases addresses with
              | nil => simp
              | cons first later =>
                  simp only [isFilled, Except.ok.injEq, List.cons.injEq, List.map_cons,
                    Option.some.injEq]
                  rw [List.map_inj_right (by simp)]

/-- Filling from the start finds the addresses at all indices below a size. -/
theorem fill_zero_eq_ok_iff
    {placed : List Placement}
    {size : Nat}
    {addresses : List Address} :
    fill placed 0 size = .ok addresses ↔
      addresses.length = size ∧
        ∀ index < size, placedAt? placed index = addresses[index]? := by
  rw [fill_eq_ok_iff]
  constructor
  · intro positions
    have length_eq : addresses.length = size := by
      simpa using (congrArg List.length positions).symm
    refine ⟨length_eq, ?_⟩
    intro index below
    have atIndex := congrArg (fun list => list[index]?) positions
    simpa [below, length_eq] using atIndex
  · rintro ⟨length_eq, stands⟩
    refine List.ext_getElem? ?_
    intro index
    by_cases below : index < size
    · have standsThere := stands index below
      rw [List.getElem?_eq_getElem (by omega)] at standsThere
      simp [below, length_eq, standsThere]
    · rw [List.getElem?_eq_none (by simpa using below),
        List.getElem?_eq_none (by simpa [length_eq] using below)]

/-- The placements of a list of addresses, each at its position. -/
def placementsOf (addresses : List Address) : List Placement :=
  addresses.zipIdx.map fun entry => ⟨entry.1, entry.2⟩

/-- A placement has the place of its address. -/
theorem mem_placementsOf
    {addresses : List Address}
    {placement : Placement} :
    placement ∈ placementsOf addresses ↔
      addresses[placement.index]? = some placement.address := by
  simp only [placementsOf, List.mem_map, Prod.exists]
  constructor
  · rintro ⟨address, index, member, rfl⟩
    exact List.mem_zipIdx_iff_getElem?.mp member
  · intro stands
    exact ⟨placement.address, placement.index, List.mem_zipIdx_iff_getElem?.mpr stands, rfl⟩

theorem map_index_placementsOf (addresses : List Address) :
    (placementsOf addresses).map Placement.index = List.range' 0 addresses.length := by
  rw [← List.zipIdx_map_snd 0 addresses]
  simp [placementsOf, Function.comp_def]

theorem map_address_placementsOf (addresses : List Address) :
    (placementsOf addresses).map Placement.address = addresses := by
  rw [placementsOf, List.map_map]
  exact List.zipIdx_map_fst 0 addresses

theorem nodup_placementsOf (addresses : List Address) : (placementsOf addresses).Nodup := by
  refine List.Nodup.of_map Placement.index ?_
  rw [map_index_placementsOf]
  exact List.nodup_range'

/-- Addresses are placed separately exactly if they are different. -/
theorem separate_placementsOf_iff
    {addresses : List Address} :
    Placement.Separate (placementsOf addresses) ↔ addresses.Nodup := by
  constructor
  · intro separate
    exact map_address_placementsOf addresses ▸ separate.addresses
  · intro distinct
    refine ⟨?_, ?_⟩
    · rw [map_index_placementsOf]
      exact List.nodup_range'
    · rw [map_address_placementsOf]
      exact distinct

/-- The nodes of a host are different addresses with their positions, the entry last. -/
structure NumberedBy (host : Host) (addresses : List Address) : Prop where
  distinct : addresses.Nodup
  length_eq : addresses.length = host.size
  nodes_perm : host.nodes.Perm ((placementsOf addresses).map Placement.node)
  entry_last : addresses.getLast? = some host.entry

/-- The nodes of a numbered host are its addresses with their places. -/
theorem NumberedBy.mem_nodes_iff
    {host : Host}
    {addresses : List Address}
    (numbered : host.NumberedBy addresses)
    {node : Node} :
    node ∈ host.nodes ↔
      ∃ index, node.postorder = some index ∧ addresses[index]? = some node.address := by
  rw [numbered.nodes_perm.mem_iff, List.mem_map]
  constructor
  · rintro ⟨placement, member, rfl⟩
    exact ⟨placement.index, rfl, mem_placementsOf.mp member⟩
  · rintro ⟨index, isIndex, stands⟩
    refine ⟨⟨node.address, index⟩, mem_placementsOf.mpr stands, ?_⟩
    simp only [Placement.node, ← isIndex]

/-- An order is found if all nodes are placed, no place is free and the entry is last. -/
theorem order_eq_ok_iff
    {host : Host}
    {addresses : List Address} :
    host.order = .ok addresses ↔
      ∃ placed,
        placeAll host.size [] host.nodes = .ok placed ∧
          fill placed 0 host.size = .ok addresses ∧
            addresses.getLast?.getD default = host.entry := by
  rw [order]
  cases isPlaced : placeAll host.size [] host.nodes with
  | error error => simp
  | ok placed =>
      cases isFilled : fill placed 0 host.size with
      | error error => simp [isFilled]
      | ok filled =>
          by_cases isEntry : filled.getLast?.getD default = host.entry
          · simp only [isEntry, ↓reduceIte, Except.ok.injEq, exists_eq_left', isFilled]
            constructor
            · rintro rfl
              exact ⟨rfl, isEntry⟩
            · exact fun found => found.1
          · simp only [isEntry, ↓reduceIte, reduceCtorEq, Except.ok.injEq, exists_eq_left',
              isFilled, false_iff, not_and]
            rintro rfl
            exact isEntry

theorem getLast?_eq_some_iff
    {addresses : List Address}
    {entry : Address}
    (nonempty : 0 < addresses.length) :
    addresses.getLast? = some entry ↔ addresses.getLast?.getD default = entry := by
  rw [List.getLast?_eq_some_getLast (List.ne_nil_of_length_pos nonempty)]
  simp

/-- An order that is found numbers the host. -/
theorem numberedBy_of_order
    {host : Host}
    {addresses : List Address}
    (nonempty : 0 < host.size)
    (ordered : host.order = .ok addresses) :
    host.NumberedBy addresses := by
  obtain ⟨placed, isPlaced, isFilled, isEntry⟩ := order_eq_ok_iff.mp ordered
  obtain ⟨fresh, isNodes, isPlacement, allBelow, separate⟩ :=
    (placeAll_eq_ok_iff ⟨by simp, by simp⟩).mp isPlaced
  have isReverse : placed = fresh.reverse := by simpa using isPlacement
  obtain ⟨length_eq, stands⟩ := fill_zero_eq_ok_iff.mp isFilled
  have samePlacements : placed.Perm (placementsOf addresses) := by
    rw [List.perm_ext_iff_of_nodup (separate.indices.of_map _) (nodup_placementsOf addresses)]
    rintro ⟨address, index⟩
    rw [mem_placementsOf]
    show _ ↔ addresses[index]? = some address
    by_cases below : index < host.size
    · rw [← placedAt?_eq_some_iff separate, stands index below]
    · constructor
      · intro member
        rw [isReverse, List.mem_reverse] at member
        exact absurd (allBelow _ member) below
      · intro standsThere
        rw [List.getElem?_eq_none (by omega)] at standsThere
        cases standsThere
  refine ⟨separate_placementsOf_iff.mp (separate.perm samePlacements), length_eq, ?_,
    (getLast?_eq_some_iff (by omega)).mpr isEntry⟩
  rw [isNodes]
  refine List.Perm.map Placement.node ?_
  exact (List.reverse_perm fresh).symm.trans (isReverse ▸ samePlacements)

/-- The order of a numbered host is found. -/
theorem NumberedBy.order_eq
    {host : Host}
    {addresses : List Address}
    (numbered : host.NumberedBy addresses) :
    host.order = .ok addresses := by
  have samePlacements :
      (host.nodes.map Placement.ofNode).Perm (placementsOf addresses) := by
    have mapped := numbered.nodes_perm.map Placement.ofNode
    simpa [Function.comp_def, Placement.node, Placement.ofNode] using mapped
  have isNodes : host.nodes = (host.nodes.map Placement.ofNode).map Placement.node := by
    rw [List.map_map]
    refine (List.map_id host.nodes).symm.trans (List.map_congr_left ?_)
    rintro ⟨address, postorder⟩ member
    obtain ⟨index, rfl, _⟩ := numbered.mem_nodes_iff.mp member
    rfl
  generalize host.nodes.map Placement.ofNode = fresh at samePlacements isNodes
  have reversed : fresh.reverse.Perm (placementsOf addresses) :=
    (List.reverse_perm fresh).trans samePlacements
  have separate : Placement.Separate fresh.reverse :=
    (separate_placementsOf_iff.mpr numbered.distinct).perm reversed.symm
  refine order_eq_ok_iff.mpr ⟨fresh.reverse, ?_, ?_, ?_⟩
  · refine (placeAll_eq_ok_iff ⟨by simp, by simp⟩).mpr
      ⟨fresh, isNodes, (List.append_nil _).symm, ?_, separate⟩
    intro placement member
    have stands := mem_placementsOf.mp (samePlacements.mem_iff.mp member)
    rw [← numbered.length_eq]
    exact (List.getElem?_eq_some_iff.mp stands).1
  · refine fill_zero_eq_ok_iff.mpr ⟨numbered.length_eq, ?_⟩
    intro index _
    ext address
    rw [placedAt?_eq_some_iff separate, reversed.mem_iff, mem_placementsOf]
  · rw [numbered.entry_last]
    rfl

/-- A host is accepted exactly if it is numbered. -/
theorem index_eq_ok_iff
    {host : Host}
    {tree : DominatorTree} :
    host.index = .ok tree ↔
      ∃ addresses, host.NumberedBy addresses ∧ tree = .ofOrder addresses.toArray := by
  rw [index]
  constructor
  · intro accepted
    split at accepted
    · cases accepted
    rename_i nonempty
    split at accepted
    · cases accepted
    split at accepted
    · cases accepted
    · rename_i addresses ordered
      cases accepted
      exact ⟨addresses, numberedBy_of_order (by omega) ordered, rfl⟩
  · rintro ⟨addresses, numbered, rfl⟩
    have nonempty : host.size ≠ 0 := by
      intro isEmpty
      have noAddress := numbered.length_eq.trans isEmpty
      have entry_last := numbered.entry_last
      simp [List.length_eq_zero_iff.mp noAddress] at entry_last
    have allListed : ¬ host.Overstates := by
      rintro ⟨fewer, _⟩
      have := numbered.nodes_perm.length_eq
      simp only [placementsOf, List.length_map, List.length_zipIdx, numbered.length_eq] at this
      omega
    simp only [if_neg nonempty, if_neg allListed, numbered.order_eq]

/-- A host that overstates its size is refused before a node is looked at. -/
theorem index_of_overstates
    {host : Host}
    (overstates : host.Overstates) :
    host.index = .error (.tooLarge host.size) := by
  have nonempty : host.size ≠ 0 := Nat.ne_zero_of_lt overstates.1
  rw [index, if_neg nonempty, if_pos overstates]

/-- A host with room for its blocks in the tables is not refused for its size. -/
theorem not_overstates_of_le
    {host : Host}
    (fits : host.size ≤ tableCapacity) :
    ¬ host.Overstates :=
  fun overstates => Nat.not_lt.mpr fits overstates.2

/-- A host is refused because it has no blocks, announces too many or has no numbering. -/
theorem cause_of_index
    {host : Host}
    {cause : BuildError}
    (refused : host.index = .error cause) :
    cause = .empty ∨
    (cause = .tooLarge host.size ∧ host.Overstates) ∨
    ∃ error, cause = .numbering error := by
  rw [index] at refused
  split at refused
  · cases refused
    exact .inl rfl
  split at refused
  · rename_i overstates
    cases refused
    exact .inr (.inl ⟨rfl, overstates⟩)
  split at refused
  · cases refused
    exact .inr (.inr ⟨_, rfl⟩)
  · cases refused

/-- A block has an index. -/
def Holds (host : Host) (address : Address) (index : Nat) : Prop :=
  { address := address, postorder := some index } ∈ host.nodes

instance (host : Host) (address : Address) (index : Nat) :
    Decidable (host.Holds address index) :=
  inferInstanceAs (Decidable (_ ∈ host.nodes))

/-- An address is the address of a block. -/
def Lists (host : Host) (address : Address) : Prop :=
  ∃ node ∈ host.nodes, node.address = address

instance (host : Host) (address : Address) : Decidable (host.Lists address) :=
  inferInstanceAs (Decidable (∃ node ∈ host.nodes, node.address = address))

/-- The tree with which a build on a host starts. -/
structure SeededBy (host : Host) (seed : DominatorTree) : Prop where
  size_eq : seed.size = host.size
  rooted : seed.Rooted (host.size - 1)
  unlinked : ∀ index < host.size - 1, seed.isLinked index = false
  distinct : seed.Distinct
  address?_entry : seed.address? (host.size - 1) = some host.entry
  holds_iff :
    ∀ {address : Address} {index : Nat},
      host.Holds address index ↔ seed.address? index = some address
  lists_iff :
    ∀ {address : Address},
      host.Lists address ↔ seed.contains address = true

/-- The links of a tree in which only the root is linked. -/
theorem link?_ofOrder
    (order : Array Address)
    (nonempty : 0 < order.size)
    (index : Nat) :
    (DominatorTree.ofOrder order).link? index =
      if index = order.size - 1 then some index else none := by
  simp only [DominatorTree.link?, DominatorTree.ofOrder, Array.getD_eq_getD_getElem?,
    Array.getElem?_setIfInBounds, Array.size_replicate]
  by_cases isRoot : order.size - 1 = index
  · subst isRoot
    have inside : order.size - 1 < order.size := by omega
    simp [inside]
  · have notRoot : ¬ index = order.size - 1 := fun equal => isRoot equal.symm
    simp only [isRoot, notRoot, if_false, Array.getElem?_replicate]
    split <;> rfl

/-- An accepted host has a seed for its build. -/
theorem seededBy_of_index
    {host : Host}
    {seed : DominatorTree}
    (accepted : host.index = .ok seed) :
    host.SeededBy seed := by
  obtain ⟨addresses, numbered, rfl⟩ := index_eq_ok_iff.mp accepted
  have length_eq := numbered.length_eq
  have nonempty : 0 < addresses.length := by
    apply Nat.pos_of_ne_zero
    intro isEmpty
    have entry_last := numbered.entry_last
    simp [List.length_eq_zero_iff.mp isEmpty] at entry_last
  have links := link?_ofOrder addresses.toArray (by simpa using nonempty)
  have address?_eq (index : Nat) :
      (DominatorTree.ofOrder addresses.toArray).address? index = addresses[index]? := by
    simp [DominatorTree.address?, DominatorTree.ofOrder]
  simp only [List.size_toArray, length_eq] at links
  refine
    { size_eq := by simp [DominatorTree.size, DominatorTree.ofOrder, length_eq]
      rooted :=
        { size_eq := by
            simp only [DominatorTree.size, DominatorTree.ofOrder, List.size_toArray]
            omega
          root_link := by simp [links]
          climbs := ?_ }
      unlinked := ?_
      distinct := DominatorTree.distinct_of_nodup numbered.distinct
      address?_entry := ?_
      holds_iff := ?_
      lists_iff := ?_ }
  · intro index dominator below recorded
    rw [links, if_neg (by omega)] at recorded
    cases recorded
  · intro index below
    rw [DominatorTree.isLinked, links, if_neg (by omega)]
    rfl
  · rw [address?_eq, ← length_eq, ← List.getLast?_eq_getElem?]
    exact numbered.entry_last
  · intro address index
    rw [Holds, numbered.mem_nodes_iff, address?_eq]
    simp
  · intro address
    rw [DominatorTree.contains_iff]
    constructor
    · rintro ⟨node, member, rfl⟩
      obtain ⟨index, _, stands⟩ := numbered.mem_nodes_iff.mp member
      exact ⟨index, (address?_eq index).trans stands⟩
    · rintro ⟨index, stands⟩
      rw [address?_eq] at stands
      exact ⟨⟨address, some index⟩, numbered.mem_nodes_iff.mpr ⟨index, rfl, stands⟩, rfl⟩

end Dominance.Host
