import Dominance.Proofs.Assembly
import Dominance.Proofs.Grammar

namespace Dominance.EdgeList

/-!
# What an edge list describes

The statements of an edge list describe one graph: its blocks are the addresses that
they mention, its edges those that they name, and both stand in the order in which the
text has them first.  Statements always describe a graph, unless there are none, because
they mention the ends of every edge that they name.
-/

variable
  {text : String}
  {rows : List (List String)}
  {statements : List Statement}
  {error : ReadError}

/-- A graph is the one that statements describe. -/
structure Describes (statements : List Statement) (graph : FlowGraph) : Prop where
  /-- The entry is named, or else it is the first address mentioned. -/
  entry_eq : some graph.entry = (entryAddress? statements).or (mentions statements).head?
  /-- The entry is the first block, and no block carries an index. -/
  nodes_eq :
    graph.nodes =
      (graph.entry :: mentions statements).eraseDups.map fun address => ⟨address, none⟩
  successors_eq :
    ∀ address,
      graph.successors address =
        ((edgePairs statements).eraseDups.filter fun edge => edge.1 = address).map Prod.snd
  predecessors_eq :
    ∀ address,
      graph.predecessors address =
        ((edgePairs statements).eraseDups.filter fun edge => edge.2 = address).map Prod.fst
  edgeCount_eq : graph.edgeCount = (edgePairs statements).eraseDups.length

/-! ## Mentioned addresses -/

/-- Every statement mentions an address. -/
theorem mentions_eq_nil_iff : mentions statements = [] ↔ statements = [] := by
  cases statements with
  | nil => simp [mentions]
  | cons statement rest => cases statement <;> simp [mentions, Statement.mentions]

/-- The ends of an edge are mentioned where the edge is named. -/
theorem edgePairs_within
    (statements : List Statement)
    (entry : Address) :
    FlowGraph.EdgesWithin entry (mentions statements) (edgePairs statements) := by
  intro edge named
  obtain ⟨statement, member, isEdge⟩ := List.mem_flatMap.mp named
  have mentioned (address : Address) (isMentioned : address ∈ statement.mentions) :
      address ∈ entry :: mentions statements :=
    List.mem_cons_of_mem entry (List.mem_flatMap.mpr ⟨statement, member, isMentioned⟩)
  cases statement with
  | entry address => cases isEdge
  | block address => cases isEdge
  | edges source targets =>
      obtain ⟨target, isTarget, rfl⟩ := List.mem_map.mp isEdge
      exact ⟨mentioned source List.mem_cons_self,
        mentioned target (List.mem_cons_of_mem source isTarget)⟩

/-! ## The graph -/

/-- The graph that is assembled from what statements mention and name. -/
def described (statements : List Statement) (first : Address) : FlowGraph :=
  .after ((entryAddress? statements).getD first)
    (FlowGraph.assembly (mentions statements) (edgePairs statements))

/-- Statements that mention an address describe a graph. -/
theorem graph_eq_ok
    {first : Address}
    (mentioned : (mentions statements).head? = some first) :
    graph statements = .ok (described statements first) := by
  have assembled := FlowGraph.assemble_eq_ok
    (edgePairs_within statements ((entryAddress? statements).getD first))
  obtain ⟨rest, mentions_eq⟩ := List.head?_eq_some_iff.mp mentioned
  simp only [graph, mentions_eq]
  rw [← mentions_eq, assembled]
  rfl

/-- The graph has what the statements say. -/
theorem describes_described
    {first : Address}
    (mentioned : (mentions statements).head? = some first) :
    Describes statements (described statements first) := by
  have isEntry : (described statements first).entry = (entryAddress? statements).getD first :=
    FlowGraph.entry_after _ _
  have edges_eq := Outline.edges_assembly
    (edgePairs_within statements ((entryAddress? statements).getD first))
  obtain ⟨_, same⟩ := FlowGraph.exists_matches ((entryAddress? statements).getD first)
    (FlowGraph.assembly (mentions statements) (edgePairs statements))
  constructor
  · rw [isEntry, mentioned]
    cases entryAddress? statements <;> rfl
  · have unnumbered : (described statements first).Unnumbered :=
      FlowGraph.unnumbered_assembly _ _ _
    rw [unnumbered.nodes_eq, isEntry, ← Outline.blocks_assembly, ← same.blocks_eq]
    rfl
  · intro address
    rw [← edges_eq]
    exact same.successors_eq address
  · intro address
    rw [← edges_eq]
    exact same.predecessors_eq address
  · rw [← edges_eq]
    exact same.edgeCount_eq

/-- Statements describe a graph, unless there are none. -/
theorem exists_graph_eq_ok
    (someStatement : statements ≠ []) :
    ∃ result, graph statements = .ok result ∧ Describes statements result := by
  cases mentioned : (mentions statements).head? with
  | none =>
      have noMention := List.head?_eq_none_iff.mp mentioned
      exact absurd (mentions_eq_nil_iff.mp noMention) someStatement
  | some first => exact ⟨_, graph_eq_ok mentioned, describes_described mentioned⟩

theorem filter_eq_nil_iff_blank :
    rows.filter (· ≠ []) = [] ↔ ∀ row ∈ rows, row = [] := by
  simp [List.filter_eq_nil_iff]

/-- Rows without words spell no statement. -/
theorem reads_nil
    (allBlank : ∀ row ∈ rows, row = []) :
    Reads rows [] where
  spelled := by
    rw [filter_eq_nil_iff_blank.mpr allBlank]
    exact .nil
  oneEntry := Nat.zero_le 1

/-- Only rows without words spell no statement. -/
theorem Reads.eq_nil_iff
    (reads : Reads rows statements) :
    statements = [] ↔ ∀ row ∈ rows, row = [] := by
  rw [← filter_eq_nil_iff_blank, ← List.length_eq_zero_iff, ← List.length_eq_zero_iff,
    reads.spelled.length_eq]

/-! ## Reading -/

/-- A text whose rows can be read gives the graph of the statements. -/
theorem Reads.parse_eq
    (reads : Reads rows statements)
    (hasRows : HasRows text.toList rows) :
    parse text = graph statements := by
  simp only [parse, reads.readStatements_eq hasRows]

/-- A graph that is read from a text is described by the statements in it. -/
theorem exists_reads_of_parse
    {result : FlowGraph}
    (hasRows : HasRows text.toList rows)
    (parsed : parse text = .ok result) :
    ∃ statements, Reads rows statements ∧ statements ≠ [] ∧ Describes statements result := by
  cases read : readStatements text with
  | error error => simp [parse, read] at parsed
  | ok statements =>
      have reads := (readStatements_eq_ok_iff hasRows).mp read
      rw [reads.parse_eq hasRows] at parsed
      have someStatement : statements ≠ [] := by
        rintro rfl
        cases parsed
      obtain ⟨_, made, describes⟩ := exists_graph_eq_ok someStatement
      rw [made] at parsed
      cases parsed
      exact ⟨statements, reads, someStatement, describes⟩

/-- A text is refused if it has no words, or because of the first row that breaks a rule. -/
theorem parse_eq_error_iff
    (hasRows : HasRows text.toList rows) :
    parse text = .error error ↔
      ((∀ row ∈ rows, row = []) ∧ error = .noBlocks) ∨
      ∃ before row after statements,
        rows = before ++ row :: after ∧
          Reads before statements ∧
            Breaks (before.length + 1) statements row error := by
  rw [← readStatements_eq_error_iff hasRows]
  constructor
  · intro parsed
    cases read : readStatements text with
    | error other =>
        simp only [parse, read] at parsed
        cases parsed
        exact .inr rfl
    | ok statements =>
        have reads := (readStatements_eq_ok_iff hasRows).mp read
        rw [reads.parse_eq hasRows] at parsed
        by_cases noStatement : statements = []
        · subst noStatement
          cases parsed
          exact .inl ⟨reads.eq_nil_iff.mp rfl, rfl⟩
        · obtain ⟨_, made, _⟩ := exists_graph_eq_ok noStatement
          rw [made] at parsed
          cases parsed
  · rintro (⟨allBlank, rfl⟩ | read)
    · exact (reads_nil allBlank).parse_eq hasRows
    · simp only [parse, read]

/--
Reading a text follows the grammar of edge lists exactly.

A text has one division into rows of words.  A graph is read from it exactly if some row
has a word, all rows that have one spell a statement, and at most one of them names the
entry; it is the graph that these statements describe.  If no row has a word, that is
the error.  Every other error is the one of the first row that breaks a rule, and its
wording starts with the number of that row.
-/
theorem parse_follows_grammar (text : String) :
    ∃ rows,
      (∀ others, HasRows text.toList others ↔ others = rows) ∧
      ((∃ graph, parse text = .ok graph) ↔
        (∃ row ∈ rows, row ≠ []) ∧ ∃ statements, Reads rows statements) ∧
      (∀ graph,
        parse text = .ok graph → ∃ statements, Reads rows statements ∧ Describes statements graph) ∧
      ∀ error,
        parse text = .error error ↔
          ((∀ row ∈ rows, row = []) ∧
            error = .noBlocks ∧ error.message = "graph has no blocks") ∨
          ∃ before row after statements,
            rows = before ++ row :: after ∧
              Reads before statements ∧
                Breaks (before.length + 1) statements row error ∧
                  ∃ what : String, error.message = s!"line {before.length + 1}: {what}" := by
  obtain ⟨rows, hasRows_iff_eq⟩ :
      ∃ rows, ∀ others, HasRows text.toList others ↔ others = rows :=
    ⟨_, fun _ => hasRows_iff⟩
  have hasRows := (hasRows_iff_eq rows).mpr rfl
  refine ⟨rows, hasRows_iff_eq, ?_, ?_, ?_⟩
  · constructor
    · rintro ⟨graph, parsed⟩
      obtain ⟨statements, reads, someStatement, _⟩ := exists_reads_of_parse hasRows parsed
      refine ⟨?_, statements, reads⟩
      rw [Ne, reads.eq_nil_iff] at someStatement
      simpa using someStatement
    · rintro ⟨⟨row, member, someWord⟩, statements, reads⟩
      have someStatement : statements ≠ [] := by
        intro noStatement
        exact someWord (reads.eq_nil_iff.mp noStatement row member)
      obtain ⟨graph, made, _⟩ := exists_graph_eq_ok someStatement
      exact ⟨graph, (reads.parse_eq hasRows).trans made⟩
  · intro graph parsed
    obtain ⟨statements, reads, _, describes⟩ := exists_reads_of_parse hasRows parsed
    exact ⟨statements, reads, describes⟩
  · intro error
    rw [parse_eq_error_iff hasRows]
    constructor
    · rintro (⟨allBlank, rfl⟩ | ⟨before, row, after, statements, rows_eq, reads, breaks⟩)
      · exact .inl ⟨allBlank, rfl, rfl⟩
      · exact .inr ⟨before, row, after, statements, rows_eq, reads, breaks, breaks.exists_message⟩
    · rintro (⟨allBlank, isError, _⟩ | ⟨before, row, after, statements, rows_eq, reads, breaks, _⟩)
      · exact .inl ⟨allBlank, isError⟩
      · exact .inr ⟨before, row, after, statements, rows_eq, reads, breaks⟩

example :
    (parse "2 -> 3 2 3 # twice\r\n\nentry 1\n").toOption.map FlowGraph.nodes =
      some [⟨⟨1⟩, none⟩, ⟨⟨2⟩, none⟩, ⟨⟨3⟩, none⟩] := by
  decide +kernel

end Dominance.EdgeList
