import Mathlib.Data.Set.Card
import Dominance.Command.Run
import Dominance.Proofs.Description
import Dominance.Proofs.Postorder
import Dominance.Proofs.PostorderText
import Dominance.Proofs.Queries

namespace Dominance

/-!
# What a report says about reachability

A report on a numbering compares indices with a number: a block counts as reached if its
index is not below the number of blocks that a second walk leaves out.  This is right
because numbering gives the lowest indices to the blocks that its own walk leaves out, and
both walks visit the same blocks.

The rows of the report are sorted by index.  No index is given twice, so the rows are the
blocks in the order of the numbering.  What is printed is the object or the table of these
rows, with the count.
-/

/-- A graph that is read from a text is one that calls can make. -/
theorem EdgeList.constructible_of_parse
    {text : String}
    {graph : FlowGraph}
    (parsed : parse text = .ok graph) :
    graph.Constructible := by
  rw [parse] at parsed
  split at parsed
  · cases parsed
  · rename_i statements _
    cases mentioned : (mentions statements).head? with
    | none =>
        rw [EdgeList.graph, List.head?_eq_none_iff.mp mentioned] at parsed
        cases parsed
    | some first =>
        rw [graph_eq_ok mentioned] at parsed
        cases parsed
        exact ⟨_, _, rfl⟩

namespace Report

/-! ## Rows in the order of the indices -/

/-- Whether a row stands before another. -/
def rowLe (first second : Nat × Address) : Bool :=
  first.1 < second.1 || (first.1 == second.1 && first.2 ≤ second.2)

theorem rowLe_iff {first second : Nat × Address} :
    rowLe first second = true ↔
      first.1 < second.1 ∨ first.1 = second.1 ∧ first.2 ≤ second.2 := by
  simp [rowLe]

theorem rowLe_trans
    (first second third : Nat × Address)
    (lower : rowLe first second = true)
    (upper : rowLe second third = true) :
    rowLe first third = true := by
  rw [rowLe_iff] at lower upper ⊢
  rcases lower with below | ⟨sameLower, lower⟩
  · left
    rcases upper with above | ⟨sameUpper, _⟩
    · exact Nat.lt_trans below above
    · exact sameUpper ▸ below
  · rcases upper with above | ⟨sameUpper, upper⟩
    · exact .inl (sameLower ▸ above)
    · exact .inr ⟨sameLower.trans sameUpper, Address.le_trans lower upper⟩

theorem rowLe_total (first second : Nat × Address) :
    (rowLe first second || rowLe second first) = true := by
  rw [Bool.or_eq_true, rowLe_iff, rowLe_iff]
  rcases Nat.lt_trichotomy first.1 second.1 with below | same | above
  · exact .inl (.inl below)
  · rcases Address.le_total first.2 second.2 with lower | upper
    · exact .inl (.inr ⟨same, lower⟩)
    · exact .inr (.inr ⟨same.symm, upper⟩)
  · exact .inr (.inl above)

/-- The rows are the addresses of a numbering with their positions in it. -/
theorem numberedBlocks_eq
    {graph : FlowGraph}
    {addresses : List Address}
    (numbered : graph.host.NumberedBy addresses) :
    numberedBlocks graph = addresses.zipIdx.map Prod.swap := by
  have listed :
      (graph.nodes.filterMap fun node =>
        node.postorder.map fun index => (index, node.address)).Perm
          (addresses.zipIdx.map Prod.swap) := by
    refine (numbered.nodes_perm.filterMap _).trans (List.Perm.of_eq ?_)
    simp [Host.placementsOf, Host.Placement.node, List.filterMap_map, Function.comp_def]
  have sameRows : (numberedBlocks graph).Perm (addresses.zipIdx.map Prod.swap) :=
    (List.mergeSort_perm _ rowLe).trans listed
  have sorted : (numberedBlocks graph).Pairwise fun first second => rowLe first second = true :=
    List.pairwise_mergeSort rowLe_trans rowLe_total _
  have increasing :
      (addresses.zipIdx.map Prod.swap).Pairwise fun first second => first.1 ≤ second.1 := by
    have indices : (addresses.zipIdx.map Prod.snd).Pairwise (· ≤ ·) := by
      rw [List.zipIdx_map_snd]
      exact List.pairwise_le_range'
    rw [List.pairwise_map] at indices ⊢
    exact indices
  -- No index is given twice, so the indices alone settle the order of the rows.
  refine sameRows.eq_of_pairwise ?_ (sorted.imp fun {first second} ordered => ?_) increasing
  · intro first second isRow isOther notAbove notBelow
    rw [sameRows.mem_iff] at isRow
    have sameIndex := Nat.le_antisymm notAbove notBelow
    obtain ⟨⟨address, index⟩, member, rfl⟩ := List.mem_map.mp isRow
    obtain ⟨⟨other, _⟩, otherMember, rfl⟩ := List.mem_map.mp isOther
    obtain rfl : index = _ := sameIndex
    rw [List.mem_zipIdx_iff_getElem?] at member otherMember
    obtain rfl : address = other := Option.some.inj (member.symm.trans otherMember)
    rfl
  · rcases rowLe_iff.mp ordered with below | ⟨same, _⟩
    · exact Nat.le_of_lt below
    · exact Nat.le_of_eq same

end Report

/-! ## Indices and paths -/

namespace FlowGraph

variable {graph : FlowGraph} {edges : List (Nat × Nat)} {address : Address}
  {index position : Nat}

/-- The blocks that the walk leaves out have the lowest indices. -/
theorem unreachableCount_le_iff
    (stands : graph.numbering[index]? = some position) :
    graph.unreachableCount ≤ index ↔ position ∈ graph.reached := by
  constructor
  · exact fun high => mem_reached_of_getElem? stands high
  · intro visited
    by_contra low
    rw [numbering, List.getElem?_append_left (Nat.lt_of_not_le low)] at stands
    exact (mem_unreached_iff.mp (List.mem_of_getElem? stands)).2 visited

/-- An index is high enough exactly if a path leads to its block. -/
theorem Records.unreachableCount_le_iff_reaches
    (records : graph.Records edges)
    (holds : graph.numbered.host.Holds address index) :
    graph.unreachableCount ≤ index ↔ Reaches graph.Edge graph.entry address := by
  obtain ⟨position, stands, isAddress⟩ := holds_numbered_iff.mp holds
  rw [unreachableCount_le_iff stands, records.mem_reached_iff_reaches isAddress]

/-- Counting the blocks that a second walk leaves out gives the number of the first. -/
theorem size_sub_length_reversePostorder (graph : FlowGraph) :
    graph.numbered.reversePostorder.length ≤ graph.numbered.size ∧
      graph.numbered.size - graph.numbered.reversePostorder.length = graph.unreachableCount := by
  have walk_length := graph.length_reached_add
  rw [reversePostorder_numbered, length_reversePostorder, size_numbered]
  omega

/-- This is the number of blocks without a path. -/
theorem Records.encard_unreachable
    (records : graph.Records edges) :
    {address | graph.contains address = true ∧ ¬ Reaches graph.Edge graph.entry address}.encard =
      graph.unreachableCount := by
  have unreached_eq :
      {address | graph.contains address = true ∧ ¬ Reaches graph.Edge graph.entry address} =
        (graph.unreachedAddresses.toFinset : Set Address) := by
    ext address
    rw [Set.mem_ofPred_eq, Finset.mem_coe, List.mem_toFinset, records.mem_unreachedAddresses_iff]
  have distinct : graph.unreachedAddresses.Nodup :=
    records.nodup_addressesAt (List.nodup_range.filter _)
  rw [unreached_eq, Set.encard_coe_eq_coe_finsetCard, List.toFinset_card_of_nodup distinct,
    length_unreachedAddresses]

end FlowGraph

/-! ## The report as a whole -/

namespace Report

/-- A report on a numbering that lists every block and tells to which a path leads. -/
structure PostorderReport.TellsReachability
    (report : PostorderReport)
    (graph numbered : FlowGraph)
    (returned : Nat) :
    Prop where
  /-- The rows are the numbered blocks. -/
  rows_eq :
    report.rows.map (fun row => (row.postorder, row.address)) = numberedBlocks numbered
  holds : ∀ row ∈ report.rows, numbered.host.Holds row.address row.postorder
  /-- Every block has one row, and the rows have the indices `0, 1, …`. -/
  indices : report.rows.map PostorderRow.postorder = List.range graph.size
  addresses_perm :
    (report.rows.map PostorderRow.address).Perm (graph.nodes.map Node.address)
  distinct : (report.rows.map PostorderRow.address).Nodup
  entry_last : report.rows.getLast?.map PostorderRow.address = some graph.entry
  /-- The difference that is printed is a difference of naturals with nothing cut off. -/
  walk_le : numbered.reversePostorder.length ≤ numbered.size
  unreachable_eq :
    report.unreachable = numbered.size - numbered.reversePostorder.length
  /-- It is the number that numbering returned, and the number of blocks without a path. -/
  unreachable_eq_returned : report.unreachable = returned
  encard_eq :
    {address |
        graph.contains address = true ∧ ¬ Reaches graph.Edge graph.entry address}.encard =
      report.unreachable
  /-- A row, its mark and its remark say whether a path leads to the block. -/
  reachable_iff :
    ∀ row ∈ report.rows, row.reachable = true ↔ Reaches graph.Edge graph.entry row.address
  mark :
    ∀ row ∈ report.rows,
      ∃ reachable,
        row.json.field? "reachable" = some (.bool reachable) ∧
          (reachable = true ↔ Reaches graph.Edge graph.entry row.address)
  remark :
    ∀ row ∈ report.rows,
      row.cells.getLast? ≠ some "unreachable" ↔ Reaches graph.Edge graph.entry row.address

namespace PostorderRow

theorem field?_reachable (row : PostorderRow) :
    row.json.field? "reachable" = some (.bool row.reachable) := by
  rfl

/-- The remark is missing exactly from the rows of blocks that are reached. -/
theorem getLast?_cells_ne_iff (row : PostorderRow) :
    row.cells.getLast? ≠ some "unreachable" ↔ row.reachable = true := by
  have last_eq : row.cells.getLast? = some row.note := rfl
  rw [last_eq, note]
  cases row.reachable <;> cases row.isEntry <;> decide

end PostorderRow

namespace PostorderReport

theorem map_rows_ofGraph (file : String) (graph : FlowGraph) :
    (ofGraph file graph).rows.map (fun row => (row.postorder, row.address)) =
      numberedBlocks graph := by
  rw [ofGraph, List.map_map]
  exact List.map_id _

/-- A row counts as reached if its index is not below the number that is reported. -/
theorem reachable_of_mem_rows
    {file : String}
    {graph : FlowGraph}
    {row : PostorderRow}
    (member : row ∈ (ofGraph file graph).rows) :
    row.reachable = true ↔ (ofGraph file graph).unreachable ≤ row.postorder := by
  obtain ⟨numbered, _, rfl⟩ := List.mem_map.mp member
  exact decide_eq_true_iff

variable {file : String} {graph : FlowGraph} {addresses : List Address}

/-- The rows follow the addresses of a numbering. -/
theorem map_rows_of_numberedBy
    (file : String)
    (numbered : graph.host.NumberedBy addresses) :
    (ofGraph file graph).rows.map (fun row => (row.postorder, row.address)) =
      addresses.zipIdx.map Prod.swap :=
  (map_rows_ofGraph file graph).trans (numberedBlocks_eq numbered)

/-- The rows of a numbered graph have the indices `0, 1, …`. -/
theorem map_postorder_rows (numbered : graph.host.NumberedBy addresses) :
    (ofGraph file graph).rows.map PostorderRow.postorder = List.range graph.size := by
  have indices_eq :=
    congrArg (List.map Prod.fst) (map_rows_of_numberedBy file numbered)
  rw [List.map_map, List.map_map] at indices_eq
  calc
    (ofGraph file graph).rows.map PostorderRow.postorder
    _ = addresses.zipIdx.map Prod.snd := indices_eq
    _ = List.range graph.size := by
      rw [List.zipIdx_map_snd, numbered.length_eq, List.range_eq_range']
      rfl

/-- The rows of a numbered graph have its addresses in their order. -/
theorem map_address_rows (numbered : graph.host.NumberedBy addresses) :
    (ofGraph file graph).rows.map PostorderRow.address = addresses := by
  have addresses_eq :=
    congrArg (List.map Prod.snd) (map_rows_of_numberedBy file numbered)
  rw [List.map_map, List.map_map] at addresses_eq
  exact addresses_eq.trans (List.zipIdx_map_fst 0 addresses)

/-- A row has the index of its block. -/
theorem holds_of_mem_rows
    (numbered : graph.host.NumberedBy addresses)
    {row : PostorderRow}
    (member : row ∈ (ofGraph file graph).rows) :
    graph.host.Holds row.address row.postorder := by
  have isRow := List.mem_map_of_mem (f := fun row => (row.postorder, row.address)) member
  rw [map_rows_of_numberedBy file numbered] at isRow
  obtain ⟨⟨address, index⟩, placed, same⟩ := List.mem_map.mp isRow
  cases same
  exact numbered.mem_nodes_iff.mpr ⟨_, rfl, List.mem_zipIdx_iff_getElem?.mp placed⟩

/-- The report on a graph that has just been numbered. -/
theorem tellsReachability
    {edges : List (Nat × Nat)}
    (records : graph.Records edges)
    (file : String) :
    (ofGraph file graph.numbered).TellsReachability graph graph.numbered
      graph.unreachableCount := by
  have numbered := records.numberedBy
  obtain ⟨walk_le, count_eq⟩ := graph.size_sub_length_reversePostorder
  have reachable_iff :
      ∀ row ∈ (ofGraph file graph.numbered).rows,
        row.reachable = true ↔ Reaches graph.Edge graph.entry row.address := by
    intro row member
    rw [reachable_of_mem_rows member,
      ← records.unreachableCount_le_iff_reaches (holds_of_mem_rows numbered member), ← count_eq]
    rfl
  exact
    { rows_eq := map_rows_ofGraph file _
      holds := fun _ => holds_of_mem_rows numbered
      indices := (map_postorder_rows numbered).trans (by rw [FlowGraph.size_numbered])
      addresses_perm := by
        rw [map_address_rows numbered, FlowGraph.map_address_nodes]
        exact graph.numbering_perm.filterMap _
      distinct := (map_address_rows numbered).symm ▸ numbered.distinct
      entry_last := by
        rw [← List.getLast?_map, map_address_rows numbered, numbered.entry_last,
          FlowGraph.entry_host_numbered]
      walk_le := walk_le
      unreachable_eq := rfl
      unreachable_eq_returned := count_eq
      encard_eq := by
        rw [records.encard_unreachable, ← count_eq]
        rfl
      reachable_iff := reachable_iff
      mark := fun row member => ⟨row.reachable, row.field?_reachable, reachable_iff row member⟩
      remark := fun row member => row.getLast?_cells_ne_iff.trans (reachable_iff row member) }

end PostorderReport

end Report

/-! ## The command -/

namespace Command.Request

variable {request : Request} {content : Except FileError ByteArray} {text : String}
  {graph : FlowGraph}

/-- Loading a text that can be read gives its graph, numbered. -/
theorem value_loadGraph
    (readable : request.readText content = .ok text)
    (parsed : EdgeList.parse text = .ok graph) :
    (request.loadGraph content).value = .ok graph.number.value := by
  simp [loadGraph, readable, EdgeList.load, parsed, numberGraph]

/-- The output of the command is the report. -/
theorem output_respond_postorder
    {output : String}
    (asks : request.action = .postorder)
    (loads : (request.loadGraph content).value = .ok graph)
    (reports : request.postorderReport graph = .ok output) :
    (request.respond content).output = output := by
  simp [respond, report, asks, loads, reports]

end Command.Request

open Command Report in
/--
For every text that can be read, the command for the numbering lists each block once and
in order, and it says of each whether a path leads to it.  Its output is the report, with the
count and the rows as lines of a table or as fields of an object.
-/
theorem postorder_report_tells_reachability
    {text : String}
    {graph : FlowGraph}
    (parsed : EdgeList.parse text = .ok graph) :
    (∀ file,
      (PostorderReport.ofGraph file graph.number.value).TellsReachability graph
        graph.number.value graph.unreachableCount) ∧
      ∀ (request : Request) (content : Except FileError ByteArray),
        request.action = .postorder →
          request.readText content = .ok text →
            (request.loadGraph content).value = .ok graph.number.value ∧
              (request.format = "text" →
                (request.respond content).output =
                    (PostorderReport.ofGraph request.title graph.number.value).plainText ∧
                  (PostorderReport.ofGraph request.title graph.number.value).ShownIn
                    (request.respond content).output) ∧
                (request.format = "json" →
                  (request.respond content).output =
                      (PostorderReport.ofGraph request.title graph.number.value).jsonText ∧
                    (PostorderReport.ofGraph request.title graph.number.value).WrittenIn
                      (request.respond content).output) := by
  obtain ⟨edges, records⟩ := (EdgeList.constructible_of_parse parsed).exists_records
  refine ⟨PostorderReport.tellsReachability records, ?_⟩
  intro request content asks readable
  have loads := Request.value_loadGraph readable parsed
  refine ⟨loads, fun isText => ?_, fun isJson => ?_⟩
  · have output_eq :
        (request.respond content).output =
          (PostorderReport.ofGraph request.title graph.number.value).plainText := by
      refine Request.output_respond_postorder asks loads ?_
      rw [Request.postorderReport, isText]
      rfl
    exact ⟨output_eq, output_eq ▸ PostorderReport.shownIn_plainText _⟩
  · have output_eq :
        (request.respond content).output =
          (PostorderReport.ofGraph request.title graph.number.value).jsonText := by
      refine Request.output_respond_postorder asks loads ?_
      rw [Request.postorderReport, isJson]
      rfl
    exact ⟨output_eq, output_eq ▸ PostorderReport.writtenIn_jsonText _⟩

/-- A loop, and a block that leads into it without being reached. -/
def danglingText : String := "1 -> 2\n2 -> 1\n0 -> 2\n"

/-- The command line `postorder graph` with a format. -/
def numberingRequest (format : String) : Command.Request where
  action := .postorder
  file := "graph"
  format := format
  verbose := false
  strict := false
  maxPasses := none

open Command Report in
/-- The block in front of the loop is counted and marked, in either format. -/
theorem danglingText_tells_reachability :
    ∃ graph,
      EdgeList.parse danglingText = .ok graph ∧
        (PostorderReport.ofGraph "graph" graph.number.value).TellsReachability graph
          graph.number.value 1 ∧
          (PostorderReport.ofGraph "graph" graph.number.value).WrittenIn
            ((numberingRequest "json").respond (.ok danglingText.toUTF8)).output ∧
            (PostorderReport.ofGraph "graph" graph.number.value).ShownIn
              ((numberingRequest "text").respond (.ok danglingText.toUTF8)).output ∧
              graph.number.value.nodes = [⟨⟨1⟩, some 2⟩, ⟨⟨2⟩, some 1⟩, ⟨⟨0⟩, some 0⟩] := by
  have counted :
      (EdgeList.parse danglingText).toOption.map FlowGraph.unreachableCount = some 1 := by
    decide +kernel
  have listed :
      ((EdgeList.parse danglingText).toOption.map fun graph => graph.number.value.nodes) =
        some [⟨⟨1⟩, some 2⟩, ⟨⟨2⟩, some 1⟩, ⟨⟨0⟩, some 0⟩] := by
    decide +kernel
  have readable (format : String) :
      (numberingRequest format).readText (.ok danglingText.toUTF8) = .ok danglingText := by
    have readJson :
        (numberingRequest "json").readText (.ok danglingText.toUTF8) = .ok danglingText := by
      decide +kernel
    exact readJson
  cases outcome : EdgeList.parse danglingText with
  | error error =>
      rw [outcome] at counted
      cases counted
  | ok graph =>
      rw [outcome] at counted listed
      obtain ⟨tells, answers⟩ := postorder_report_tells_reachability outcome
      have count_eq : graph.unreachableCount = 1 := Option.some.inj counted
      refine ⟨graph, rfl, count_eq ▸ tells "graph", ?_, ?_, Option.some.inj listed⟩
      · exact ((answers (numberingRequest "json") _ rfl (readable "json")).2.2 rfl).2
      · exact ((answers (numberingRequest "text") _ rfl (readable "text")).2.1 rfl).2

end Dominance
