import Mathlib.Data.List.TakeWhile
import Dominance.Proofs.AddressText
import Dominance.Proofs.Description

namespace Dominance.EdgeList

/-!
# Graphs written and read back

A statement is written as plain words with one space between them, and every statement
ends its line.  So the rows of a printed text are the words of the statements, and they
spell the statements that were printed.

A graph is printed as the statements about its entry, its blocks and its edges.  These
mention the ends of the edges once more, after all blocks, which adds nothing.
-/

variable {statement : Statement} {statements : List Statement}

/-! ## Words of a statement -/

/-- The words that a statement is written with. -/
def Statement.words : Statement → List String
  | .entry address => ["entry", address.text]
  | .block address => ["block", address.text]
  | .edges source targets => source.text :: "->" :: targets.map Address.text

/-- The words of a statement hold no blank and open no comment. -/
theorem Statement.isPlain_words (statement : Statement) :
    ∀ word ∈ statement.words, Text.IsPlain word := by
  have entryPlain : Text.IsPlain "entry" :=
    ⟨by decide, by simp [Text.isBlank, Text.blankRanges], by decide⟩
  have blockPlain : Text.IsPlain "block" :=
    ⟨by decide, by simp [Text.isBlank, Text.blankRanges], by decide⟩
  have arrowPlain : Text.IsPlain "->" :=
    ⟨by decide, by simp [Text.isBlank, Text.blankRanges], by decide⟩
  cases statement with
  | entry address => simp [words, entryPlain, address.isPlain_text]
  | block address => simp [words, blockPlain, address.isPlain_text]
  | edges source targets => simp [words, arrowPlain, Address.isPlain_text]

/-- Words with a space before each of them. -/
def spaced (words : List String) : List Char :=
  words.flatMap fun word => ' ' :: word.toList

theorem Statement.spaced_words (statement : Statement) :
    spaced statement.words = ' ' :: statement.text.toList := by
  have addressText (address : Address) : toString address = address.text := rfl
  have stringText (string : String) : toString string = string := rfl
  cases statement with
  | entry address => simp [spaced, words, text, addressText, stringText]
  | block address => simp [spaced, words, text, addressText, stringText]
  | edges source targets =>
      simp [spaced, words, text, addressText, stringText, List.flatMap_map]

/-- Plain words with blanks before them are read back. -/
theorem words_spaced
    {words : List String}
    (plain : ∀ word ∈ words, Text.IsPlain word) :
    Text.words (spaced words) = words.map String.toList := by
  induction words with
  | nil => rfl
  | cons word rest inductionHypothesis =>
      obtain ⟨isPlain, restPlain⟩ := List.forall_mem_cons.mp plain
      have someCharacter : word.toList ≠ [] := by
        simpa using isPlain.ne_empty
      have restSpaced : ∀ character ∈ (spaced rest).head?, Text.isBlank character = true := by
        cases rest with
        | nil => simp [spaced]
        | cons next others => simp [spaced, Text.isBlank_of_isWhitespace]
      calc
        Text.words (spaced (word :: rest)) = Text.words (word.toList ++ spaced rest) :=
          Text.words_cons_blank (by decide) _
        _ = word.toList :: Text.words (spaced rest) :=
          Text.words_append someCharacter isPlain.noBlank restSpaced
        _ = (word :: rest).map String.toList := by
          rw [inductionHypothesis restPlain, List.map_cons]

/-- A statement is written without marks of comments, and spaces are its only blanks. -/
theorem Statement.mem_text
    {character : Char}
    (member : character ∈ statement.text.toList) :
    character = ' ' ∨ Text.isBlank character = false ∧ character ≠ '#' := by
  have isSpaced : character ∈ spaced statement.words := by
    rw [statement.spaced_words]
    exact List.mem_cons_of_mem ' ' member
  obtain ⟨word, isWord, inWord⟩ := List.mem_flatMap.mp isSpaced
  have plain := statement.isPlain_words word isWord
  rcases List.mem_cons.mp inWord with isSpace | inWord
  · exact .inl isSpace
  · refine .inr ⟨plain.noBlank character inWord, ?_⟩
    rintro rfl
    exact plain.noComment inWord

/-- A statement is read back word by word. -/
theorem lineWords_text (statement : Statement) :
    lineWords statement.text.toList = statement.words := by
  have noComment : statement.text.toList.takeWhile (· ≠ '#') = statement.text.toList := by
    rw [List.takeWhile_eq_self_iff]
    intro character member
    rcases Statement.mem_text member with rfl | ⟨_, notComment⟩
    · decide
    · simpa using notComment
  have words_eq := words_spaced statement.isPlain_words
  rw [statement.spaced_words, Text.words_cons_blank (by decide)] at words_eq
  rw [lineWords, noComment, words_eq, List.map_map]
  simp [Function.comp_def]

/-! ## Rows of a printed text -/

/-- Each statement is printed on a line. -/
theorem lines_print (statements : List Statement) :
    Text.lines (print statements).toList =
      statements.map fun statement => statement.text.toList := by
  induction statements with
  | nil => rfl
  | cons statement rest inductionHypothesis =>
      have noOtherBlank
          {character : Char}
          (isOther : Text.isBlank character = true ∧ character ≠ ' ') :
          character ∉ statement.text.toList := by
        intro member
        rcases Statement.mem_text member with isSpace | ⟨notBlank, _⟩
        · exact isOther.2 isSpace
        · exact Bool.eq_false_iff.mp notBlank isOther.1
      have noFeed : '\n' ∉ statement.text.toList := noOtherBlank (by decide)
      have noReturn : statement.text.toList.getLast? ≠ some '\r' := by
        intro isLast
        exact noOtherBlank (by decide) (List.mem_of_getLast? isLast)
      have print_eq :
          (print (statement :: rest)).toList =
            statement.text.toList ++ '\n' :: (print rest).toList := by
        simp [print]
      rw [print_eq, Text.lines_append noFeed, Text.dropReturn_of_noReturn noReturn,
        inductionHypothesis, List.map_cons]

/-- The rows of what is printed are the words of the statements. -/
theorem hasRows_print (statements : List Statement) :
    HasRows (print statements).toList (statements.map Statement.words) := by
  rw [hasRows_iff, lines_print, List.map_map]
  exact List.map_congr_left fun statement _ => (lineWords_text statement).symm

/-- A statement of edges has a target. -/
def Statement.IsProper : Statement → Prop
  | .entry _ => True
  | .block _ => True
  | .edges _ targets => targets ≠ []

/-- The words of a proper statement spell it. -/
theorem spells_words
    (proper : statement.IsProper) :
    Spells statement.words statement := by
  have notKeyword
      (address : Address)
      {keyword : String}
      (otherStart : keyword.toList.head? ≠ some '0') :
      address.text ≠ keyword := by
    rintro rfl
    rw [address.toList_text] at otherStart
    exact otherStart rfl
  cases statement with
  | entry address => exact .entry address.parse_text
  | block address => exact .block address.parse_text
  | edges source targets =>
      obtain ⟨target, others, rfl⟩ := List.exists_cons_of_ne_nil proper
      refine .edges (notKeyword source (by decide)) (notKeyword source (by decide))
        source.parse_text ?_
      rw [← List.map_cons, List.forall₂_map_left_iff, List.forall₂_same]
      exact fun address _ => address.parse_text

/-- The rows of a printed text spell the statements that were printed. -/
theorem reads_words
    (proper : ∀ statement ∈ statements, statement.IsProper)
    (oneEntry : OneEntry statements) :
    Reads (statements.map Statement.words) statements where
  spelled := by
    have allKept :
        (statements.map Statement.words).filter (· ≠ []) = statements.map Statement.words := by
      rw [List.filter_eq_self]
      intro row member
      obtain ⟨statement, _, rfl⟩ := List.mem_map.mp member
      cases statement <;> simp [Statement.words]
    rw [allKept, List.forall₂_map_left_iff, List.forall₂_same]
    exact fun statement member => spells_words (proper statement member)
  oneEntry := oneEntry

/-- A printed text describes what the statements in it describe. -/
theorem parse_print
    (proper : ∀ statement ∈ statements, statement.IsProper)
    (oneEntry : OneEntry statements) :
    parse (print statements) = graph statements :=
  (reads_words proper oneEntry).parse_eq (hasRows_print statements)

/-! ## Graphs -/

variable {entry : Address} {blocks : List Address} {edges : List (Address × Address)}

/-- A description mentions the entry, the blocks and the ends of the edges. -/
theorem mentions_describe :
    mentions (describe entry blocks edges) =
      entry :: blocks ++ edges.flatMap fun edge => [edge.1, edge.2] := by
  simp [mentions, describe, Statement.mentions, List.flatMap_map]

theorem edgePairs_describe : edgePairs (describe entry blocks edges) = edges := by
  simp [edgePairs, describe, Statement.edgePairs, List.flatMap_map]

theorem oneEntry_describe : OneEntry (describe entry blocks edges) := by
  simp [OneEntry, describe, Statement.entryAddress?, List.filterMap_map, Function.comp_def]

theorem isProper_describe :
    ∀ statement ∈ describe entry blocks edges, statement.IsProper := by
  intro statement member
  rcases List.mem_cons.mp member with rfl | isOther
  · trivial
  · rcases List.mem_append.mp isOther with isBlock | isEdge
    · obtain ⟨_, _, rfl⟩ := List.mem_map.mp isBlock
      trivial
    · obtain ⟨_, _, rfl⟩ := List.mem_map.mp isEdge
      exact List.cons_ne_nil _ _

/-- The text about a graph is read as the graph. -/
theorem parse_print_of_assemble
    {result : FlowGraph}
    (within : FlowGraph.EdgesWithin entry blocks edges)
    (assembled : FlowGraph.assemble entry blocks edges = .ok result) :
    parse (print (describe entry blocks edges)) = .ok result := by
  have known :
      ∀ address ∈ edges.flatMap fun edge => [edge.1, edge.2], address ∈ entry :: blocks := by
    intro address member
    obtain ⟨edge, isEdge, isEnd⟩ := List.mem_flatMap.mp member
    obtain ⟨sourceWithin, targetWithin⟩ := within edge isEdge
    simp only [List.mem_cons, List.not_mem_nil, or_false] at isEnd
    rcases isEnd with rfl | rfl
    · exact sourceWithin
    · exact targetWithin
  have isEntry : entryAddress? (describe entry blocks edges) = some entry := rfl
  have sameGraph := FlowGraph.assemble_append known edges
  rw [List.cons_append] at sameGraph
  rw [parse_print isProper_describe oneEntry_describe]
  simp only [graph, mentions_describe, List.cons_append, edgePairs_describe, isEntry,
    Option.getD_some, sameGraph, assembled]

/--
Every graph can be written as an edge list and read back.

An entry, blocks and edges between them make a graph, and a text that lists them in this
order is read as that very graph, which carries no indices.  All graphs that calls can
make are of this kind, apart from their indices.
-/
theorem parse_print_describe (entry : Address) :
    (∀ blocks edges,
      FlowGraph.EdgesWithin entry blocks edges →
      ∃ graph,
        FlowGraph.assemble entry blocks edges = .ok graph ∧
          parse (print (describe entry blocks edges)) = .ok graph ∧
            graph.Unnumbered) ∧
    ∀ calls,
      ∃ blocks edges,
        FlowGraph.EdgesWithin entry blocks edges ∧
          parse (print (describe entry blocks edges)) =
            .ok (FlowGraph.after entry calls).bare := by
  constructor
  · intro blocks edges within
    have assembled := FlowGraph.assemble_eq_ok within
    exact ⟨_, assembled, parse_print_of_assemble within assembled,
      FlowGraph.unnumbered_assembly entry blocks edges⟩
  · intro calls
    obtain ⟨blocks, edges, within, assembled⟩ := FlowGraph.exists_assemble_eq_ok entry calls
    exact ⟨blocks, edges, within, parse_print_of_assemble within assembled⟩

/-- Two blocks, the entry among them and the other one twice. -/
def repeatedBlocks : List Address :=
  [⟨0⟩, ⟨16⟩, ⟨0⟩]

/-- Two edges, one of them twice and from a block to itself. -/
def repeatedEdges : List (Address × Address) :=
  [(⟨0⟩, ⟨0⟩), (⟨16⟩, ⟨0⟩), (⟨0⟩, ⟨0⟩)]

/--
A graph is read back also if its blocks and edges are listed repeatedly, and if its edges
were added between its blocks and it was numbered.
-/
theorem repeated_read_back :
    (FlowGraph.EdgesWithin ⟨16⟩ repeatedBlocks repeatedEdges ∧
      ∃ graph,
        FlowGraph.assemble ⟨16⟩ repeatedBlocks repeatedEdges = .ok graph ∧
          parse (print (describe ⟨16⟩ repeatedBlocks repeatedEdges)) = .ok graph ∧
            graph.Unnumbered) ∧
    ∃ blocks edges,
      FlowGraph.EdgesWithin ⟨16⟩ blocks edges ∧
        parse (print (describe ⟨16⟩ blocks edges)) =
          .ok
            (FlowGraph.after ⟨16⟩
              [.addBlock ⟨0⟩, .addEdge ⟨16⟩ ⟨0⟩, .addBlock ⟨1⟩, .addEdge ⟨1⟩ ⟨0⟩, .number]).bare :=
  ⟨⟨by decide, (parse_print_describe ⟨16⟩).1 repeatedBlocks repeatedEdges (by decide)⟩,
    (parse_print_describe ⟨16⟩).2 _⟩

example :
    print (describe ⟨16⟩ [⟨0⟩] [(⟨0⟩, ⟨0⟩), (⟨16⟩, ⟨0⟩)]) =
      "entry 0x10\nblock 0x0\n0x0 -> 0x0\n0x10 -> 0x0\n" := by
  decide +kernel

end Dominance.EdgeList
