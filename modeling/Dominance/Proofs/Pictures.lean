import Dominance.Graph.Picture
import Dominance.Proofs.Numbering
import Dominance.Proofs.Outline
import Dominance.Proofs.PictureText
import Dominance.Proofs.Queries
import Dominance.Tree.Picture

namespace Dominance

/-!
# What pictures of graphs and trees show

The picture of a flow graph shows every block with its index and every edge, and the order
of both.  Edges stand together by the block that they leave, so the successors of a block
are the ends of the edges that start at its address, and positions are known from addresses
because no two blocks share one.

The picture of a dominator tree shows the addresses in their order and every link, if all
links are sound.  In both cases the title can be read back too, but for its carriage returns,
whatever it contains.
-/

namespace FlowGraph

variable {first second graph : FlowGraph} {edges others : List (Nat × Nat)}

/-! ## Blocks in a picture -/

/-- What a label says about the index of a block. -/
def indexNote : Option Nat → String
  | none => ""
  | some index => "\\npo=" ++ index.repr

theorem label_eq (node : Node) :
    label node = node.address.text ++ indexNote node.postorder := by
  rw [label]
  cases node.postorder with
  | none => simp [indexNote]
  | some index =>
      simp [indexNote, Address.toString_eq, Dot.toString_string, Nat.toString_eq_repr,
        String.append_assoc]

/-- A label can stand between quotation marks as it is. -/
theorem isLegible_label (node : Node) : Dot.IsLegible (label node) := by
  have digitsLegible (index : Nat) :
      ∀ character ∈ index.repr.toList, character ≠ '"' ∧ character ≠ '\n' := by
    intro character member
    rw [Nat.toList_repr] at member
    have isDigit := Nat.isDigit_of_mem_toDigits (by decide) (by decide) member
    constructor <;> (rintro rfl; cases isDigit)
  have noteLegible : Dot.IsLegible (indexNote node.postorder) := by
    cases node.postorder with
    | none => exact ⟨by decide, by decide⟩
    | some index =>
        constructor
        · simp only [indexNote, String.toList_append, List.mem_append, not_or]
          exact ⟨by decide, fun member => (digitsLegible index '"' member).1 rfl⟩
        · simp only [indexNote, String.toList_append, List.mem_append, not_or]
          exact ⟨by decide, fun member => (digitsLegible index '\n' member).2 rfl⟩
  have addressLegible := node.address.isLegible_text
  constructor
  · simp [label_eq, addressLegible.noQuote, noteLegible.noQuote]
  · simp [label_eq, addressLegible.noFeed, noteLegible.noFeed]

/-- An index is known from what a label says about it. -/
theorem indexNote_inj
    {first second : Option Nat}
    (same : indexNote first = indexNote second) :
    first = second := by
  have sameCharacters := congrArg String.toList same
  cases first with
  | none =>
      cases second with
      | none => rfl
      | some index => simp [indexNote] at sameCharacters
  | some index =>
      cases second with
      | none => simp [indexNote] at sameCharacters
      | some other =>
          have sameDigits : Nat.toDigits 10 index = Nat.toDigits 10 other := by
            simpa [indexNote] using sameCharacters
          have sameValue := congrArg (Nat.ofDigitChars 10 · 0) sameDigits
          simp only [Nat.ofDigitChars_ten_toDigits] at sameValue
          rw [sameValue]

/-- The vertices are the blocks in their order, the first one highlighted. -/
theorem vertices_picture (graph : FlowGraph) (title : Option String) :
    (graph.picture title).vertices =
      graph.nodes.zipIdx.map fun entry => ⟨entry.1.address, label entry.1, entry.2 == 0⟩ := by
  simp [picture, nodes, vertex, List.zipIdx_map, Function.comp_def]

/-- Blocks with their indices are known from the vertices of a picture. -/
theorem nodes_eq_of_vertices
    {firstTitle secondTitle : Option String}
    (same : (first.picture firstTitle).vertices = (second.picture secondTitle).vertices) :
    first.nodes = second.nodes := by
  have shown (graph : FlowGraph) (title : Option String) :
      (graph.picture title).vertices.map (fun vertex => (vertex.address, vertex.label)) =
        graph.nodes.map fun node => (node.address, label node) := by
    conv_rhs => rw [← List.zipIdx_map_fst 0 graph.nodes]
    rw [vertices_picture, List.map_map, List.map_map]
    rfl
  have sameShown := shown first firstTitle
  rw [same, shown] at sameShown
  refine (List.map_injective_iff.mpr ?_ sameShown).symm
  intro node other sameNode
  obtain ⟨sameAddress, sameLabel⟩ := Prod.ext_iff.mp sameNode
  simp only [label_eq] at sameAddress sameLabel
  rw [sameAddress, String.append_right_inj] at sameLabel
  obtain ⟨address, postorder⟩ := node
  obtain ⟨otherAddress, otherPostorder⟩ := other
  cases sameAddress
  cases indexNote_inj sameLabel
  rfl

/-! ## Edges in a picture -/

/-- The edges from a block are found among all edges, because no other block has its address. -/
theorem flatMap_ite_address
    {blocks : List Block}
    (nodup : (blocks.map fun block => block.address).Nodup)
    (address : Address)
    (shown : Block → List Address) :
    (blocks.flatMap fun block => if block.address = address then shown block else []) =
      ((blocks.find? fun block => block.address = address).map shown).getD [] := by
  induction blocks with
  | nil => rfl
  | cons block rest inductionHypothesis =>
      obtain ⟨notLater, restNodup⟩ := List.nodup_cons.mp nodup
      rw [List.flatMap_cons]
      by_cases isBlock : block.address = address
      · have noOther :
            (rest.flatMap fun block => if block.address = address then shown block else []) =
              [] := by
          rw [List.flatMap_eq_nil_iff]
          intro other member
          refine if_neg fun isOther => notLater ?_
          exact List.mem_map.mpr ⟨other, member, isOther.trans isBlock.symm⟩
        rw [if_pos isBlock, noOther, List.append_nil,
          List.find?_cons_of_pos (by simpa using isBlock)]
        rfl
      · rw [if_neg isBlock, List.nil_append, inductionHypothesis restNodup,
          List.find?_cons_of_neg (by simpa using isBlock)]

namespace Records

theorem nodup_address_blocks (records : graph.Records edges) :
    (graph.blocks.toList.map fun block => block.address).Nodup := by
  have nodup := records.nodup_addressesAt (List.nodup_range (n := graph.size))
  rw [← map_address_nodes, nodes, List.map_map] at nodup
  exact nodup

/-- The successors of a block are known from the edges that a picture shows. -/
theorem successors_eq_filter_edges
    (records : graph.Records edges)
    (address : Address) :
    graph.successors address =
      (graph.edges.filter fun edge => edge.1 = address).map Prod.snd := by
  have shown (block : Block) :
      (((graph.addressesAt block.successors).map fun target =>
          (block.address, target)).filter fun edge => edge.1 = address).map Prod.snd =
        if block.address = address then graph.addressesAt block.successors else [] := by
    by_cases isBlock : block.address = address <;>
      simp [isBlock, List.filter_map, Function.comp_def]
  rw [FlowGraph.edges, List.filter_flatMap, List.map_flatMap]
  simp only [shown]
  rw [flatMap_ite_address records.nodup_address_blocks, successors, block?,
    ← Array.find?_toList]
  cases graph.blocks.toList.find? fun block => block.address = address <;> rfl

/-- Positions are known from the addresses there. -/
theorem addressesAt_inj
    (records : graph.Records edges)
    {positions others : List Nat}
    (inside : ∀ position ∈ positions, position < graph.size)
    (othersInside : ∀ position ∈ others, position < graph.size)
    (same : graph.addressesAt positions = graph.addressesAt others) :
    positions = others := by
  have readBack
      {positions : List Nat}
      (inside : ∀ position ∈ positions, position < graph.size) :
      (graph.addressesAt positions).filterMap graph.position? = positions := by
    rw [addressesAt, List.filterMap_filterMap]
    refine (List.filterMap_congr fun position member => ?_).trans List.filterMap_some
    obtain ⟨address, stands⟩ := exists_addressAt?_iff.mpr (inside position member)
    rw [stands, Option.bind_some, records.position?_eq_some_iff.mpr stands]
  rw [← readBack inside, same, readBack othersInside]

end Records

/-- The successors of a block are the addresses at the positions that it lists. -/
theorem Records.successors_block
    (records : graph.Records edges)
    {position : Nat}
    {block : Block}
    (stands : graph.blocks[position]? = some block) :
    graph.successors block.address = graph.addressesAt block.successors ∧
      ∀ target ∈ block.successors, target < graph.size := by
  have addressStands : graph.addressAt? position = some block.address := by
    rw [addressAt?, stands, Option.map_some]
  constructor
  · rw [successors, records.block?_eq_some_iff.mpr ⟨position, addressStands, stands⟩]
  · intro target member
    rw [(records.lists_eq position block stands).1, mem_targetsOf] at member
    exact (records.inside _ member).2

/-- The positions of all successors are known from the blocks and edges that a picture shows. -/
theorem digraph_eq_of_edges
    (firstRecords : first.Records edges)
    (secondRecords : second.Records others)
    (sameNodes : first.nodes = second.nodes)
    (sameEdges : first.edges = second.edges) :
    first.digraph = second.digraph := by
  have sameAddresses : second.addressAt? = first.addressAt? := by
    funext position
    rw [← getElem?_addresses, ← sameNodes, getElem?_addresses]
  have sameSize : first.size = second.size := by
    have sameLength := congrArg List.length sameNodes
    simpa [nodes, size] using sameLength
  refine congrArg Digraph.mk (Array.ext_getElem? fun position => ?_)
  have sameAddress := congrFun sameAddresses position
  rw [addressAt?, addressAt?] at sameAddress
  rw [Array.getElem?_map, Array.getElem?_map]
  cases stands : first.blocks[position]? with
  | none =>
      rw [stands, Option.map_none, Option.map_eq_none_iff] at sameAddress
      rw [sameAddress]
  | some block =>
      rw [stands, Option.map_some, Option.map_eq_some_iff] at sameAddress
      obtain ⟨twin, twinStands, isTwin⟩ := sameAddress
      obtain ⟨listed, inside⟩ := firstRecords.successors_block stands
      obtain ⟨twinListed, twinInside⟩ := secondRecords.successors_block twinStands
      rw [isTwin, secondRecords.successors_eq_filter_edges, ← sameEdges,
        ← firstRecords.successors_eq_filter_edges, listed, addressesAt, addressesAt,
        sameAddresses] at twinListed
      rw [← sameSize] at twinInside
      rw [twinStands, Option.map_some, Option.map_some,
        firstRecords.addressesAt_inj inside twinInside twinListed]

/-- All edges, said through the blocks and the positions of their successors. -/
theorem edges_eq (graph : FlowGraph) :
    graph.edges =
      (graph.nodes.zip graph.digraph.targets.toList).flatMap fun entry =>
        (graph.addressesAt entry.2).map fun target => (entry.1.address, target) := by
  simp [FlowGraph.edges, nodes, digraph, List.zip_map', List.flatMap_map]

/-! ## The whole picture -/

/-- The picture of a graph is legible under every title. -/
theorem isLegible_picture
    (graph : FlowGraph)
    (title : Option String) :
    (graph.picture title).IsLegible where
  name := show '\n' ∉ "CFG".toList by decide
  subject := show '\n' ∉ "CFG".toList by decide
  labels := by
    intro vertex member
    rw [vertices_picture, List.mem_map] at member
    obtain ⟨entry, _, rfl⟩ := member
    exact isLegible_label entry.1

/-- Graphs have the same picture exactly if they have the same blocks and edges. -/
theorem Records.dotText_eq_iff
    (firstRecords : first.Records edges)
    (secondRecords : second.Records others)
    (firstTitle secondTitle : Option String) :
    first.dotText firstTitle = second.dotText secondTitle ↔
      first.nodes = second.nodes ∧
        first.digraph = second.digraph ∧
          Dot.TitlesAgree firstTitle secondTitle := by
  rw [dotText, dotText,
    Dot.Picture.text_eq_iff (first.isLegible_picture firstTitle)
      (second.isLegible_picture secondTitle) rfl rfl]
  constructor
  · rintro ⟨sameTitle, sameVertices, sameEdges⟩
    have sameNodes := nodes_eq_of_vertices sameVertices
    exact ⟨sameNodes, digraph_eq_of_edges firstRecords secondRecords sameNodes sameEdges,
      sameTitle⟩
  · rintro ⟨sameNodes, sameDigraph, sameTitle⟩
    have sameAddresses : first.addressAt? = second.addressAt? := by
      funext position
      rw [← getElem?_addresses, sameNodes, getElem?_addresses]
    refine ⟨sameTitle, ?_, ?_⟩
    · rw [vertices_picture, vertices_picture, sameNodes]
    · show first.edges = second.edges
      rw [edges_eq, edges_eq, sameNodes, sameDigraph]
      simp only [addressesAt, sameAddresses]

end FlowGraph

namespace DominatorTree

variable {tree first second : DominatorTree} {root otherRoot : Nat} {address : Address}

/-! ## Pictures of dominator trees -/

/-- The picture of a tree, given the list of its links. -/
def drawing
    (tree : DominatorTree)
    (title : Option String)
    (links : List (Address × Address)) :
    Dot.Picture where
  name := "DomTree"
  subject := "Dominator tree"
  title := title
  vertices := tree.vertices
  edges := links.map Prod.swap

theorem isLegible_drawing
    (tree : DominatorTree)
    (title : Option String)
    (links : List (Address × Address)) :
    (tree.drawing title links).IsLegible where
  name := show '\n' ∉ "DomTree".toList by decide
  subject := show '\n' ∉ "Dominator tree".toList by decide
  labels := by
    intro vertex member
    obtain ⟨entry, _, rfl⟩ := List.mem_map.mp member
    exact entry.1.isLegible_text

/-- A tree whose links can be listed has a picture. -/
theorem dotText_of_toList
    {links : List (Address × Address)}
    (listed : tree.toList = .ok links)
    (title : Option String) :
    tree.dotText title = .ok (tree.drawing title links).text := by
  rw [dotText, picture, listed]
  rfl

/-- The vertices are the addresses from the entry down. -/
theorem map_address_vertices (tree : DominatorTree) :
    tree.vertices.map Dot.Vertex.address = tree.order.toList.reverse := by
  rw [vertices, List.map_map, List.map_reverse]
  exact congrArg List.reverse (List.zipIdx_map_fst 0 tree.order.toList)

theorem order_eq_iff : first.order = second.order ↔ first.vertices = second.vertices := by
  constructor
  · intro same
    simp only [vertices, size, same]
  · intro same
    have sameAddresses := first.map_address_vertices
    rw [same, map_address_vertices] at sameAddresses
    exact Array.toList_inj.mp (List.reverse_inj.mp sameAddresses).symm

/-- Only addresses below the root have an immediate dominator. -/
theorem Complete.immediateDominator_of_not_mem
    (complete : tree.Complete root)
    (notBelow : address ∉ tree.order.toList.dropLast) :
    tree.immediateDominator address = .ok none := by
  cases known : tree.contains address with
  | false => exact (unanswered_of_not_contains known).immediateDominator
  | true =>
      obtain ⟨index, inside, rfl⟩ := complete.exists_blockAt known
      rw [dropLast_order complete.rooted.size_eq] at notBelow
      have isRoot : index = root := by
        refine Nat.le_antisymm inside (Nat.le_of_not_lt fun below => notBelow ?_)
        exact List.mem_map_of_mem (List.mem_range.mpr below)
      rw [isRoot, ← complete.entry_eq]
      exact complete.immediateDominator_entry

/-- Links are known from the addresses that they start at and from the immediate dominators. -/
theorem links_inj
    {links others : List (Address × Address)}
    (sameStarts : links.map Prod.fst = others.map Prod.fst)
    (answered : ∀ link ∈ links, tree.immediateDominator link.1 = .ok (some link.2))
    (othersAnswered : ∀ link ∈ others, tree.immediateDominator link.1 = .ok (some link.2)) :
    links = others := by
  induction links generalizing others with
  | nil => exact (List.map_eq_nil_iff.mp sameStarts.symm).symm
  | cons link rest inductionHypothesis =>
      cases others with
      | nil => cases sameStarts
      | cons other further =>
          obtain ⟨linkAnswered, restAnswered⟩ := List.forall_mem_cons.mp answered
          obtain ⟨otherAnswered, furtherAnswered⟩ := List.forall_mem_cons.mp othersAnswered
          obtain ⟨sameStart, sameRest⟩ := List.cons.inj sameStarts
          rw [sameStart, otherAnswered, Except.ok.injEq, Option.some.injEq] at linkAnswered
          rw [Prod.ext sameStart linkAnswered.symm,
            inductionHypothesis sameRest restAnswered furtherAnswered]

/-- Complete trees have the same picture exactly if they have the same order and the same links. -/
theorem Complete.dotText_eq_iff
    (firstComplete : first.Complete root)
    (secondComplete : second.Complete otherRoot)
    (firstTitle secondTitle : Option String) :
    first.dotText firstTitle = second.dotText secondTitle ↔
      first.order = second.order ∧
        (∀ address, first.immediateDominator address = second.immediateDominator address) ∧
          Dot.TitlesAgree firstTitle secondTitle := by
  obtain ⟨links, listed, starts, answered⟩ := firstComplete.exists_toList
  obtain ⟨others, othersListed, othersStarts, othersAnswered⟩ := secondComplete.exists_toList
  rw [dotText_of_toList listed, dotText_of_toList othersListed, Except.ok.injEq,
    Dot.Picture.text_eq_iff (first.isLegible_drawing firstTitle links)
      (second.isLegible_drawing secondTitle others) rfl rfl, order_eq_iff]
  constructor
  · rintro ⟨sameTitle, sameVertices, sameEdges⟩
    have sameOrder : first.order = second.order := order_eq_iff.mpr sameVertices
    obtain rfl : links = others :=
      List.map_injective_iff.mpr Prod.swap_injective sameEdges
    refine ⟨sameVertices, fun address => ?_, sameTitle⟩
    by_cases below : address ∈ first.order.toList.dropLast
    · rw [← List.mem_reverse, ← starts, List.mem_map] at below
      obtain ⟨link, member, rfl⟩ := below
      rw [answered link member, othersAnswered link member]
    · rw [firstComplete.immediateDominator_of_not_mem below,
        secondComplete.immediateDominator_of_not_mem (sameOrder ▸ below)]
  · rintro ⟨sameVertices, sameDominators, sameTitle⟩
    have sameOrder : first.order = second.order := order_eq_iff.mpr sameVertices
    obtain rfl : links = others := by
      refine links_inj (starts.trans (sameOrder ▸ othersStarts.symm)) answered ?_
      intro link member
      rw [sameDominators]
      exact othersAnswered link member
    exact ⟨sameTitle, sameVertices, rfl⟩

end DominatorTree

/-! ## Nothing is lost -/

/--
Pictures lose nothing but the carriage returns of their titles.

Two flow graphs have the same picture exactly if they have the same blocks in the same
order, with the same indices, and the same successors in the same order at each of them,
and if their titles agree.  Two dominator trees that have addresses, repeat none and pass
verification can be drawn, and they have the same picture exactly if they have the same
addresses in the same order and the same immediate dominators, and if their titles agree.
-/
theorem dotText_loses_nothing :
    (∀ first second : FlowGraph,
      first.Constructible →
      second.Constructible →
      ∀ firstTitle secondTitle,
        first.dotText firstTitle = second.dotText secondTitle ↔
          first.nodes = second.nodes ∧
            first.digraph = second.digraph ∧ Dot.TitlesAgree firstTitle secondTitle) ∧
    ∀ first second : DominatorTree,
      0 < first.size →
      0 < second.size →
      first.order.toList.Nodup →
      second.order.toList.Nodup →
      first.verify = .ok () →
      second.verify = .ok () →
      ∀ firstTitle secondTitle,
        (∃ text, first.dotText firstTitle = .ok text) ∧
          (first.dotText firstTitle = second.dotText secondTitle ↔
            first.order = second.order ∧
              (∀ address,
                first.immediateDominator address = second.immediateDominator address) ∧
                Dot.TitlesAgree firstTitle secondTitle) := by
  constructor
  · intro first second firstConstructible secondConstructible firstTitle secondTitle
    obtain ⟨_, firstRecords⟩ := firstConstructible.exists_records
    obtain ⟨_, secondRecords⟩ := secondConstructible.exists_records
    exact firstRecords.dotText_eq_iff secondRecords firstTitle secondTitle
  · intro first second firstNonempty secondNonempty firstNodup secondNodup firstVerified
      secondVerified firstTitle secondTitle
    obtain ⟨root, size_eq⟩ := Nat.exists_eq_succ_of_ne_zero (Nat.ne_of_gt firstNonempty)
    obtain ⟨otherRoot, otherSize_eq⟩ := Nat.exists_eq_succ_of_ne_zero (Nat.ne_of_gt secondNonempty)
    have firstComplete := DominatorTree.complete_of_verify size_eq firstNodup firstVerified
    have secondComplete :=
      DominatorTree.complete_of_verify otherSize_eq secondNodup secondVerified
    obtain ⟨links, listed, _⟩ := firstComplete.exists_toList
    exact ⟨⟨_, DominatorTree.dotText_of_toList listed firstTitle⟩,
      firstComplete.dotText_eq_iff secondComplete firstTitle secondTitle⟩

/-- Two edges to one block, added in an order that their picture does not show. -/
def joiningEdges (calls : List FlowGraph.Call) : FlowGraph :=
  FlowGraph.after ⟨16⟩ ([.addBlock ⟨1⟩, .addBlock ⟨2⟩] ++ calls ++ [.number])

/--
Graphs may differ in what a picture does not show and titles in carriage returns, while a
title cannot pass for a vertex, and a link that leads elsewhere is seen.
-/
theorem joiningEdges_lose_nothing :
    (joiningEdges [.addEdge ⟨16⟩ ⟨2⟩, .addEdge ⟨1⟩ ⟨2⟩]).dotText (some "a\r\n\"b") =
      (joiningEdges [.addEdge ⟨1⟩ ⟨2⟩, .addEdge ⟨16⟩ ⟨2⟩]).dotText (some "a\n\"b") ∧
    (FlowGraph.new ⟨1⟩).dotText (some "\";\n    \"0x2\" [label=\"0x2") ≠
      (FlowGraph.after ⟨1⟩ [.addBlock ⟨2⟩]).dotText none ∧
    DominatorTree.joinedBranches.dotText none ≠
      (DominatorTree.joinedBranches.setLink 1 3).dotText none := by
  refine ⟨?_, ?_, ?_⟩
  · refine (dotText_loses_nothing.1 _ _ ⟨_, _, rfl⟩ ⟨_, _, rfl⟩ _ _).mpr ⟨?_, ?_, ?_⟩
    · decide +kernel
    · exact congrArg Digraph.mk (by decide +kernel)
    · decide +kernel
  · intro same
    have sameNodes :=
      ((dotText_loses_nothing.1 _ _ ⟨_, [], rfl⟩ ⟨_, _, rfl⟩ _ _).mp same).1
    exact absurd sameNodes (by decide +kernel)
  · intro same
    have sameDominators :=
      ((dotText_loses_nothing.2 _ _ (by decide) (by decide) (by decide) (by decide) (by decide)
        (by decide) _ _).2.mp same).2.1
    exact absurd (sameDominators ⟨10⟩) (by decide)

end Dominance
