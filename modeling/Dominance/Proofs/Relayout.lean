import Mathlib.Data.List.TakeWhile
import Mathlib.Logic.Relation
import Dominance.Proofs.Description

namespace Dominance.EdgeList

/-!
# Texts that are laid out anew

What is read from a text depends on nothing but its rows of words.  So a text may be laid
out anew: comments may be added, changed and removed, blanks may be put around words or
replaced by other blanks, and lines may end with a carriage return and a line feed.

If a graph is read from a text, lines may also be added to it that hold no words, and a
line of edges may be divided into lines with one edge each.  The numbers of the lines
change then, but they matter for errors only.
-/

variable {line other : List Char}

/-! ## Changes of a text -/

/-- Blanks that do not end a line. -/
def AreBlanks (characters : List Char) : Prop :=
  ∀ character ∈ characters, Text.isBlank character = true ∧ character ≠ '\n'

/-- A line is laid out anew, and its words stay. -/
inductive RelaidLine : List Char → List Char → Prop where
  | blanks
      {before after : List Char}
      {old new : List Char} :
      old ≠ [] →
      new ≠ [] →
      AreBlanks old →
      AreBlanks new →
      RelaidLine (before ++ old ++ after) (before ++ new ++ after)
  | indented
      {line new : List Char} :
      AreBlanks new →
      RelaidLine line (new ++ line)
  | trailed
      {line new : List Char} :
      AreBlanks new →
      RelaidLine line (line ++ new)
  | commented
      {line comment : List Char} :
      '\n' ∉ comment →
      RelaidLine line (line ++ '#' :: comment)

/-- One line of a text, or the end of one line, is laid out anew. -/
inductive Relaid : List Char → List Char → Prop where
  | line
      {before line other after : List Char} :
      before = [] ∨ before.getLast? = some '\n' →
      after = [] ∨ after.head? = some '\n' →
      '\n' ∉ line →
      RelaidLine line other →
      Relaid (before ++ line ++ after) (before ++ other ++ after)
  | feed
      {before after : List Char} :
      Relaid (before ++ '\n' :: after) (before ++ '\r' :: '\n' :: after)

/-- The words of a line before its first number sign. -/
def HasRow (line : List Char) (row : List String) : Prop :=
  Text.HasWords (line.takeWhile (· ≠ '#')) (row.map String.toList)

/-- A line of blanks, with a comment after them or without. -/
def IsIdle (line : List Char) : Prop :=
  ∃ blanks,
    (∀ character ∈ blanks, Text.isBlank character = true) ∧
      (line = blanks ∨ ∃ comment, line = blanks ++ '#' :: comment)

/-- A line without words is added, or a line of edges is divided. -/
inductive Expands : List (List Char) → List (List Char) → Prop where
  | insert
      {above below : List (List Char)}
      {line : List Char} :
      IsIdle line →
      Expands (above ++ below) (above ++ line :: below)
  | divide
      {above below parts : List (List Char)}
      {line : List Char}
      {source target : String}
      {targets : List String} :
      HasRow line (source :: "->" :: target :: targets) →
      List.Forall₂ (fun part target => HasRow part [source, "->", target])
        parts (target :: targets) →
      Expands (above ++ line :: below) (above ++ parts ++ below)

/-! ## Words of a line -/

theorem hasRow_iff
    {row : List String} :
    HasRow line row ↔ row = lineWords line := by
  rw [HasRow, Text.hasWords_iff, map_toList_eq_iff, lineWords]

@[simp] theorem lineWords_nil : lineWords [] = [] :=
  rfl

theorem takeWhile_append_of_mem
    (commented : '#' ∈ line)
    (rest : List Char) :
    (line ++ rest).takeWhile (· ≠ '#') = line.takeWhile (· ≠ '#') := by
  induction line with
  | nil => cases commented
  | cons first line inductionHypothesis =>
      by_cases isSign : first = '#'
      · simp [isSign]
      · have commentedLater : '#' ∈ line :=
          (List.mem_cons.mp commented).resolve_left fun same => isSign same.symm
        simpa [isSign] using inductionHypothesis commentedLater

theorem takeWhile_append_of_notMem
    (noComment : '#' ∉ line)
    (rest : List Char) :
    (line ++ rest).takeWhile (· ≠ '#') = line ++ rest.takeWhile (· ≠ '#') := by
  refine List.takeWhile_append_of_pos fun character member => ?_
  simp only [ne_eq, decide_not, Bool.not_eq_eq_eq_not, Bool.not_true, decide_eq_false_iff_not]
  rintro rfl
  exact noComment member

theorem takeWhile_of_notMem
    (noComment : '#' ∉ line) :
    line.takeWhile (· ≠ '#') = line := by
  simpa using takeWhile_append_of_notMem noComment []

theorem AreBlanks.noComment
    {blanks : List Char}
    (areBlanks : AreBlanks blanks) :
    '#' ∉ blanks := by
  intro member
  exact absurd (areBlanks '#' member).1 (by decide)

/-- Blanks before a text add no words to it. -/
theorem words_blanks_append
    {blanks : List Char}
    (areBlanks : ∀ character ∈ blanks, Text.isBlank character = true)
    (rest : List Char) :
    Text.words (blanks ++ rest) = Text.words rest := by
  induction blanks with
  | nil => rfl
  | cons first blanks inductionHypothesis =>
      obtain ⟨isBlank, othersBlank⟩ := List.forall_mem_cons.mp areBlanks
      rw [List.cons_append, Text.words_cons_blank isBlank, inductionHypothesis othersBlank]

/-- Blanks between two texts separate their words. -/
theorem words_append_blanks_append
    {blanks : List Char}
    (someBlank : blanks ≠ [])
    (areBlanks : AreBlanks blanks)
    (before after : List Char) :
    Text.words (before ++ blanks ++ after) = Text.words before ++ Text.words after := by
  obtain ⟨first, others, rfl⟩ := List.exists_cons_of_ne_nil someBlank
  obtain ⟨isBlank, othersBlank⟩ := List.forall_mem_cons.mp areBlanks
  rw [List.append_assoc, List.cons_append, Text.words_append_blank isBlank.1,
    words_blanks_append fun character member => (othersBlank character member).1]

/-- Blanks divide the words of a line, unless they stand in a comment. -/
theorem lineWords_blanks
    {blanks : List Char}
    (someBlank : blanks ≠ [])
    (areBlanks : AreBlanks blanks)
    (before after : List Char) :
    lineWords (before ++ blanks ++ after) =
      if '#' ∈ before then lineWords before else lineWords before ++ lineWords after := by
  rw [lineWords, List.append_assoc]
  split
  · rename_i commented
    rw [takeWhile_append_of_mem commented, ← lineWords]
  · rename_i noComment
    rw [takeWhile_append_of_notMem noComment, takeWhile_append_of_notMem areBlanks.noComment,
      ← List.append_assoc, words_append_blanks_append someBlank areBlanks, List.map_append,
      lineWords, lineWords, takeWhile_of_notMem noComment]

theorem lineWords_blanks_append
    {blanks : List Char}
    (areBlanks : AreBlanks blanks)
    (line : List Char) :
    lineWords (blanks ++ line) = lineWords line := by
  by_cases someBlank : blanks = []
  · rw [someBlank, List.nil_append]
  · exact lineWords_blanks someBlank areBlanks [] line

/-- Blanks at the end of a line add no words. -/
theorem lineWords_append_blanks
    {blanks : List Char}
    (areBlanks : AreBlanks blanks)
    (line : List Char) :
    lineWords (line ++ blanks) = lineWords line := by
  by_cases someBlank : blanks = []
  · rw [someBlank, List.append_nil]
  · have words_eq := lineWords_blanks someBlank areBlanks line []
    rw [List.append_nil, lineWords_nil, List.append_nil, ite_self] at words_eq
    exact words_eq

/-- A comment adds no words. -/
theorem lineWords_comment (line comment : List Char) :
    lineWords (line ++ '#' :: comment) = lineWords line := by
  rw [lineWords, lineWords]
  by_cases commented : '#' ∈ line
  · rw [takeWhile_append_of_mem commented]
  · rw [takeWhile_append_of_notMem commented, takeWhile_of_notMem commented]
    simp

/-- A line that is laid out anew keeps its words. -/
theorem RelaidLine.lineWords_eq
    (relaid : RelaidLine line other) :
    lineWords line = lineWords other := by
  cases relaid with
  | blanks oldSome newSome oldBlank newBlank =>
      rw [lineWords_blanks oldSome oldBlank, lineWords_blanks newSome newBlank]
  | indented areBlanks => rw [lineWords_blanks_append areBlanks]
  | trailed areBlanks => rw [lineWords_append_blanks areBlanks]
  | commented _ => rw [lineWords_comment]

/-- A line that is laid out anew stays one line. -/
theorem RelaidLine.noFeed
    (relaid : RelaidLine line other)
    (noFeed : '\n' ∉ line) :
    '\n' ∉ other := by
  have blanksFree {blanks : List Char} (areBlanks : AreBlanks blanks) : '\n' ∉ blanks :=
    fun member => (areBlanks '\n' member).2 rfl
  cases relaid with
  | blanks _ _ _ newBlank => simp_all [blanksFree newBlank]
  | indented areBlanks => simp_all [blanksFree areBlanks]
  | trailed areBlanks => simp_all [blanksFree areBlanks]
  | commented commentFree => simp_all

theorem lineWords_of_isIdle
    (isIdle : IsIdle line) :
    lineWords line = [] := by
  obtain ⟨blanks, areBlanks, shape⟩ := isIdle
  have noWords : lineWords blanks = [] := by
    have noComment : '#' ∉ blanks := fun member => absurd (areBlanks '#' member) (by decide)
    have words_eq := words_blanks_append areBlanks []
    rw [List.append_nil] at words_eq
    rw [lineWords, takeWhile_of_notMem noComment, words_eq]
    rfl
  rcases shape with rfl | ⟨comment, rfl⟩
  · exact noWords
  · rw [lineWords_comment, noWords]

/-! ## Rows of a text -/

/--
The rows of the pieces between the line feeds of a text.

A carriage return at the end of a piece is a blank, and an empty last piece is one more
row without words.  So these rows do as well as those of the lines, and a change of the
text is easier to follow in them.
-/
def pieceRows (text : List Char) : List (List String) :=
  (Text.pieces (· = '\n') text).map lineWords

/-- A line feed divides the rows of a text. -/
theorem pieceRows_feed (before after : List Char) :
    pieceRows (before ++ '\n' :: after) = pieceRows before ++ pieceRows after := by
  simp only [pieceRows, Text.pieces_eq_splitOnP]
  rw [List.splitOnP_append_cons before after (by simp), List.map_append]

theorem pieceRows_of_noFeed
    (noFeed : '\n' ∉ line) :
    pieceRows line = [lineWords line] := by
  rw [pieceRows, Text.pieces_eq_splitOnP,
    List.splitOnP_eq_singleton (Text.not_separated noFeed), List.map_singleton]

theorem areBlanks_return : AreBlanks ['\r'] := by
  simp [AreBlanks, Text.isBlank, Text.blankRanges]

/-- A carriage return at the end of a line does not change its words. -/
theorem lineWords_dropReturn (line : List Char) :
    lineWords (Text.dropReturn line) = lineWords line := by
  by_cases isReturn : line.getLast? = some '\r'
  · obtain ⟨start, rfl⟩ := List.getLast?_eq_some_iff.mp isReturn
    rw [Text.dropReturn_append, lineWords_append_blanks areBlanks_return]
  · rw [Text.dropReturn_of_noReturn isReturn]

/-- A text whose last line is ended has one piece more than it has lines, and it is empty. -/
theorem pieceRows_eq (text : List Char) :
    pieceRows text = (Text.lines text).map lineWords ∨
      pieceRows text = (Text.lines text).map lineWords ++ [[]] := by
  obtain ⟨start, last, pieces_eq⟩ :=
    (List.eq_nil_or_concat' (Text.pieces (· = '\n') text)).resolve_left (List.cons_ne_nil _ _)
  have startKept : (start.map Text.dropReturn).map lineWords = start.map lineWords := by
    rw [List.map_map]
    exact List.map_congr_left fun line _ => lineWords_dropReturn line
  rw [pieceRows, Text.lines, pieces_eq]
  cases last with
  | nil =>
      right
      simpa using startKept.symm
  | cons first rest =>
      left
      simpa using startKept.symm

/-- Read rows of words as a graph. -/
def parseRows (rows : List (List String)) : Except ReadError FlowGraph :=
  (readLines none (rows.zipIdx 1)).bind graph

/-- What a text gives depends on its rows only. -/
theorem parse_of_hasRows
    {text : String}
    {rows : List (List String)}
    (hasRows : HasRows text.toList rows) :
    parse text = parseRows rows := by
  rw [parse, readStatements, numberedLines_eq hasRows, parseRows]
  cases readLines none (rows.zipIdx 1) <;> rfl

/-- A row without words at the end adds nothing. -/
theorem readLines_append_blank
    (known : Option Address)
    (numbered : List (List String × Nat))
    (number : Nat) :
    readLines known (numbered ++ [([], number)]) = readLines known numbered := by
  induction numbered generalizing known with
  | nil => rfl
  | cons line rest inductionHypothesis =>
      simp only [List.cons_append, readLines, inductionHypothesis]

/-- A row without words at the end changes nothing. -/
theorem parseRows_append_blank (rows : List (List String)) :
    parseRows (rows ++ [[]]) = parseRows rows := by
  rw [parseRows, List.zipIdx_append, List.zipIdx_singleton, readLines_append_blank, ← parseRows]

/-- A text gives what its rows give. -/
theorem parse_eq_parseRows (text : String) : parse text = parseRows (pieceRows text.toList) := by
  have hasRows : HasRows text.toList ((Text.lines text.toList).map lineWords) :=
    hasRows_iff.mpr rfl
  have fromLines := parse_of_hasRows hasRows
  rcases pieceRows_eq text.toList with rows_eq | rows_eq
  · rw [rows_eq, fromLines]
  · rw [rows_eq, parseRows_append_blank, fromLines]

/-- The last of the lines that a text begins. -/
theorem exists_lastLine (text : List Char) :
    ∃ line, '\n' ∉ line ∧ (text = line ∨ ∃ before, text = before ++ '\n' :: line) := by
  induction text with
  | nil => exact ⟨[], List.not_mem_nil, .inl rfl⟩
  | cons first rest inductionHypothesis =>
      obtain ⟨line, noFeed, rfl | ⟨before, rfl⟩⟩ := inductionHypothesis
      · by_cases isFeed : first = '\n'
        · exact ⟨rest, noFeed, .inr ⟨[], by rw [isFeed, List.nil_append]⟩⟩
        · refine ⟨first :: rest, ?_, .inl rfl⟩
          exact List.not_mem_cons_of_ne_of_not_mem (Ne.symm isFeed) noFeed
      · exact ⟨line, noFeed, .inr ⟨first :: before, rfl⟩⟩

theorem pieceRows_append_return (text : List Char) :
    pieceRows (text ++ ['\r']) = pieceRows text := by
  obtain ⟨line, noFeed, shape⟩ := exists_lastLine text
  have stillNoFeed : '\n' ∉ line ++ ['\r'] := by simpa using noFeed
  have lineKept : pieceRows (line ++ ['\r']) = pieceRows line := by
    rw [pieceRows_of_noFeed stillNoFeed, pieceRows_of_noFeed noFeed,
      lineWords_append_blanks areBlanks_return]
  rcases shape with rfl | ⟨before, rfl⟩
  · exact lineKept
  · rw [List.append_assoc, List.cons_append, pieceRows_feed, pieceRows_feed, lineKept]

/-- A whole line stands in the rows by its words. -/
theorem pieceRows_line_congr
    {before after : List Char}
    (starts : before = [] ∨ before.getLast? = some '\n')
    (ends : after = [] ∨ after.head? = some '\n')
    (noFeed : '\n' ∉ line)
    (otherNoFeed : '\n' ∉ other)
    (sameWords : lineWords line = lineWords other) :
    pieceRows (before ++ line ++ after) = pieceRows (before ++ other ++ after) := by
  have sameLine : pieceRows line = pieceRows other := by
    rw [pieceRows_of_noFeed noFeed, pieceRows_of_noFeed otherNoFeed, sameWords]
  have sameEnd : pieceRows (line ++ after) = pieceRows (other ++ after) := by
    rcases ends with rfl | isFeed
    · simpa using sameLine
    · obtain ⟨rest, rfl⟩ := List.head?_eq_some_iff.mp isFeed
      rw [pieceRows_feed, pieceRows_feed, sameLine]
  rw [List.append_assoc, List.append_assoc]
  rcases starts with rfl | isFeed
  · exact sameEnd
  · obtain ⟨start, rfl⟩ := List.getLast?_eq_some_iff.mp isFeed
    rw [List.append_assoc, List.append_assoc, List.singleton_append, List.singleton_append,
      pieceRows_feed, pieceRows_feed, sameEnd]

/-- A text that is laid out anew keeps the rows of its pieces. -/
theorem Relaid.pieceRows_eq
    {first second : List Char}
    (relaid : Relaid first second) :
    pieceRows first = pieceRows second := by
  cases relaid with
  | line starts ends noFeed relaidLine =>
      exact pieceRows_line_congr starts ends noFeed (relaidLine.noFeed noFeed)
        relaidLine.lineWords_eq
  | @feed before after =>
      have rejoined : before ++ '\r' :: '\n' :: after = before ++ ['\r'] ++ '\n' :: after := by
        simp
      rw [rejoined, pieceRows_feed, pieceRows_feed, pieceRows_append_return]

/-- Texts that come from each other by any number of changes of the layout have the same rows. -/
theorem pieceRows_eq_of_eqvGen
    {first second : List Char}
    (relaid : Relation.EqvGen Relaid first second) :
    pieceRows first = pieceRows second := by
  induction relaid with
  | rel _ _ relaid => exact relaid.pieceRows_eq
  | refl _ => rfl
  | symm _ _ _ same => exact same.symm
  | trans _ _ _ _ _ same alike => exact same.trans alike

/-! ## Statements about one edge each -/

/-- The statements about the single edges of one statement. -/
def singleEdges (source : Address) (targets : List Address) : List Statement :=
  targets.map fun target => .edges source [target]

/-- A known block that is mentioned before each block adds nothing. -/
theorem addBlocks_interleaved
    {graph : FlowGraph}
    {source : Address}
    (known : graph.contains source = true)
    (targets : List Address) :
    (targets.flatMap fun target => [source, target]).foldl
        (fun graph address => (graph.addBlock address).1) graph =
      targets.foldl (fun graph address => (graph.addBlock address).1) graph := by
  induction targets generalizing graph with
  | nil => rfl
  | cons target rest inductionHypothesis =>
      have stillKnown : (graph.addBlock target).1.contains source = true :=
        FlowGraph.contains_perform known (.addBlock target)
      rw [List.flatMap_cons, List.foldl_append, List.foldl_cons, List.foldl_cons, List.foldl_nil,
        FlowGraph.addBlock_of_contains known, inductionHypothesis stillKnown, List.foldl_cons]

/-- Statements mention the same blocks in the same order, apart from repetitions. -/
structure MentionAlike (first second : List Statement) : Prop where
  head_eq : (mentions first).head? = (mentions second).head?
  blocks_eq :
    ∀ graph : FlowGraph,
      (mentions first).foldl (fun graph address => (graph.addBlock address).1) graph =
        (mentions second).foldl (fun graph address => (graph.addBlock address).1) graph

theorem mentions_append (first second : List Statement) :
    mentions (first ++ second) = mentions first ++ mentions second :=
  List.flatMap_append

theorem mentions_singleEdges (source : Address) (targets : List Address) :
    mentions (singleEdges source targets) = targets.flatMap fun target => [source, target] := by
  rw [mentions, singleEdges, List.flatMap_map]
  rfl

/-- Single edges mention their source again and again, which adds nothing. -/
theorem mentionAlike_singleEdges (source target : Address) (targets : List Address) :
    MentionAlike [.edges source (target :: targets)] (singleEdges source (target :: targets)) := by
  constructor
  · rw [mentions_singleEdges]
    rfl
  · intro graph
    have known : (graph.addBlock source).1.contains source = true := graph.contains_addBlock source
    have stillKnown : ((graph.addBlock source).1.addBlock target).1.contains source = true :=
      FlowGraph.contains_perform known (.addBlock target)
    have mentions_eq : mentions [.edges source (target :: targets)] = source :: target :: targets :=
      List.append_nil _
    rw [mentions_singleEdges, List.flatMap_cons, List.foldl_append, mentions_eq]
    exact (addBlocks_interleaved stillKnown targets).symm

/-- What stands around statements that mention alike does not matter. -/
theorem MentionAlike.append
    {first second : List Statement}
    (alike : MentionAlike first second)
    (before after : List Statement) :
    MentionAlike (before ++ first ++ after) (before ++ second ++ after) := by
  constructor
  · simp only [mentions_append, List.head?_append, alike.head_eq]
  · intro graph
    simp only [mentions_append, List.foldl_append, alike.blocks_eq]

/-- The graph is the same if mentions, edges and the entry that is named are the same. -/
theorem graph_congr
    {first second : List Statement}
    (alike : MentionAlike first second)
    (sameEdges : edgePairs first = edgePairs second)
    (sameEntry : entryAddress? first = entryAddress? second) :
    graph first = graph second := by
  obtain ⟨sameHead, sameBlocks⟩ := alike
  rw [graph, graph, sameEdges, sameEntry]
  cases firstMentions : mentions first with
  | nil =>
      rw [firstMentions, List.head?_nil] at sameHead
      rw [List.head?_eq_none_iff.mp sameHead.symm]
  | cons mention rest =>
      rw [firstMentions, List.head?_cons] at sameHead
      obtain ⟨others, secondMentions⟩ := List.head?_eq_some_iff.mp sameHead.symm
      rw [firstMentions, secondMentions] at sameBlocks
      simp only [secondMentions, FlowGraph.assemble, sameBlocks]

/-! ## Lines that are added or divided -/

theorem exists_spelled_append
    {above below : List (List String)}
    {statements : List Statement}
    (spelled : List.Forall₂ Spells (above ++ below) statements) :
    ∃ first second,
      statements = first ++ second ∧
        List.Forall₂ Spells above first ∧ List.Forall₂ Spells below second :=
  ⟨statements.take above.length, statements.drop above.length,
    (List.take_append_drop _ _).symm,
    (List.forall₂_take_append _ _ _ spelled.flip).flip,
    (List.forall₂_drop_append _ _ _ spelled.flip).flip⟩

/-- A row of edges spells the addresses of its words. -/
theorem Spells.edges_cases
    {source target : String}
    {targets : List String}
    {statement : Statement}
    (spells : Spells (source :: "->" :: target :: targets) statement) :
    ∃ address first addresses,
      statement = .edges address (first :: addresses) ∧
        List.Forall₂ Spells ((target :: targets).map fun target => [source, "->", target])
          (singleEdges address (first :: addresses)) := by
  cases spells with
  | @edges _ _ _ address addresses notEntry notBlock accepted allAccepted =>
      obtain ⟨first, others, _, _, rfl⟩ := List.forall₂_cons_left_iff.mp allAccepted
      refine ⟨address, first, others, rfl, ?_⟩
      rw [singleEdges, List.forall₂_map_left_iff, List.forall₂_map_right_iff]
      exact allAccepted.imp fun _ _ named => .edges notEntry notBlock accepted (.cons named .nil)

theorem edgePairs_append (first second : List Statement) :
    edgePairs (first ++ second) = edgePairs first ++ edgePairs second :=
  List.flatMap_append

/-- Single edges are the edges of one statement. -/
theorem edgePairs_singleEdges (source : Address) (targets : List Address) :
    edgePairs (singleEdges source targets) = edgePairs [.edges source targets] := by
  rw [edgePairs, singleEdges, List.flatMap_map]
  simp [edgePairs, Statement.edgePairs, List.map_eq_flatMap]

theorem filterMap_singleEdges (source : Address) (targets : List Address) :
    (singleEdges source targets).filterMap Statement.entryAddress? = [] := by
  simp [singleEdges, List.filterMap_map, Function.comp_def, Statement.entryAddress?]

/-- Rows that spell single edges in place of a row of edges are read as the same graph. -/
theorem Reads.divide
    {above below : List (List String)}
    {source target : String}
    {targets : List String}
    {statements : List Statement}
    (reads : Reads (above ++ (source :: "->" :: target :: targets) :: below) statements) :
    ∃ divided,
      Reads
          (above ++ (target :: targets).map (fun target => [source, "->", target]) ++ below)
          divided ∧
        graph divided = graph statements := by
  obtain ⟨spelled, oneEntry⟩ := reads
  rw [List.filter_append, List.filter_cons_of_pos (by simp)] at spelled
  obtain ⟨before, rest, rfl, aboveSpelled, restSpelled⟩ := exists_spelled_append spelled
  obtain ⟨statement, after, spells, belowSpelled, rfl⟩ := List.forall₂_cons_left_iff.mp restSpelled
  obtain ⟨address, first, addresses, rfl, partsSpelled⟩ := spells.edges_cases
  have rejoined :
      before ++ .edges address (first :: addresses) :: after =
        before ++ [.edges address (first :: addresses)] ++ after := by
    simp
  have noEntry := filterMap_singleEdges address (first :: addresses)
  refine ⟨before ++ singleEdges address (first :: addresses) ++ after, ⟨?_, ?_⟩, ?_⟩
  · have partsKept :
        ((target :: targets).map fun target => [source, "->", target]).filter (· ≠ []) =
          (target :: targets).map fun target => [source, "->", target] := by
      simp
    rw [List.filter_append, List.filter_append, partsKept]
    exact List.rel_append (List.rel_append aboveSpelled partsSpelled) belowSpelled
  · rw [OneEntry, List.filterMap_append, List.filterMap_append, noEntry, List.append_nil]
    rw [OneEntry, List.filterMap_append, List.filterMap_cons_none rfl] at oneEntry
    exact oneEntry
  · have alike := (mentionAlike_singleEdges address first addresses).append before after
    rw [rejoined]
    refine (graph_congr alike ?_ ?_).symm
    · simp only [edgePairs_append, edgePairs_singleEdges]
    · have noneNamed : entryAddress? (singleEdges address (first :: addresses)) = none :=
        entryAddress?_eq_none_iff.mpr noEntry
      simp only [entryAddress?_append, noneNamed]
      rfl

/-- Lines that are added or divided leave the graph as it is. -/
theorem Expands.exists_reads
    {lines others : List (List Char)}
    {statements : List Statement}
    (expands : Expands lines others)
    (reads : Reads (lines.map lineWords) statements) :
    ∃ divided, Reads (others.map lineWords) divided ∧ graph divided = graph statements := by
  cases expands with
  | @insert above below line isIdle =>
      refine ⟨statements, ⟨?_, reads.oneEntry⟩, rfl⟩
      rw [List.map_append, List.map_cons, lineWords_of_isIdle isIdle, List.filter_append,
        List.filter_cons_of_neg (by simp), ← List.filter_append, ← List.map_append]
      exact reads.spelled
  | @divide above below parts line source target targets hasRow partRows =>
      rw [List.map_append, List.map_cons, ← hasRow_iff.mp hasRow] at reads
      have partWords :
          parts.map lineWords = (target :: targets).map fun target => [source, "->", target] := by
        rw [← List.forall₂_eq_eq_eq, List.forall₂_map_left_iff, List.forall₂_map_right_iff]
        exact partRows.imp fun _ _ partRow => (hasRow_iff.mp partRow).symm
      rw [List.map_append, List.map_append, partWords]
      exact reads.divide

/-- Adding idle lines and dividing lines of edges, again and again, changes no graph. -/
theorem exists_reads_of_reflTransGen
    {lines others : List (List Char)}
    {statements : List Statement}
    (expands : Relation.ReflTransGen Expands lines others)
    (reads : Reads (lines.map lineWords) statements) :
    ∃ divided, Reads (others.map lineWords) divided ∧ graph divided = graph statements := by
  induction expands with
  | refl => exact ⟨statements, reads, rfl⟩
  | tail _ step inductionHypothesis =>
      obtain ⟨between, readsBetween, sameGraph⟩ := inductionHypothesis
      obtain ⟨divided, readsDivided, stillSame⟩ := step.exists_reads readsBetween
      exact ⟨divided, readsDivided, stillSame.trans sameGraph⟩

/--
What is read from a text does not depend on its layout.

Texts with the same rows of words are read alike, with the same graph or the same error,
and so are texts that come from each other by laying out lines anew.  If a graph is read
from a text, the very same graph is read from each text whose lines come from its lines by
adding lines without words and by dividing lines of edges into lines with one edge each.
-/
theorem parse_ignores_layout :
    (∀ (first second : String) (rows : List (List String)),
      HasRows first.toList rows → HasRows second.toList rows → parse first = parse second) ∧
    (∀ first second : String,
      Relation.EqvGen Relaid first.toList second.toList → parse first = parse second) ∧
    ∀ (first second : String) (lines others : List (List Char)) (result : FlowGraph),
      parse first = .ok result →
      Text.HasLines first.toList lines →
      Text.HasLines second.toList others →
      Relation.ReflTransGen Expands lines others →
      parse second = .ok result := by
  refine ⟨?_, ?_, ?_⟩
  · intro first second rows firstRows secondRows
    rw [parse_of_hasRows firstRows, parse_of_hasRows secondRows]
  · intro first second relaid
    rw [parse_eq_parseRows, parse_eq_parseRows, pieceRows_eq_of_eqvGen relaid]
  · intro first second lines others result parsed hasLines hasOthers expands
    have firstRows : HasRows first.toList (lines.map lineWords) :=
      hasRows_iff.mpr (congrArg _ (Text.hasLines_iff.mp hasLines))
    have secondRows : HasRows second.toList (others.map lineWords) :=
      hasRows_iff.mpr (congrArg _ (Text.hasLines_iff.mp hasOthers))
    obtain ⟨statements, reads, _, _⟩ := exists_reads_of_parse firstRows parsed
    obtain ⟨divided, readsDivided, sameGraph⟩ := exists_reads_of_reflTransGen expands reads
    rw [readsDivided.parse_eq secondRows, sameGraph, ← reads.parse_eq firstRows, parsed]

/-- Two edges in one line, and a line that names the entry. -/
def forkText : String := "0 -> 1 2\nentry 1\n"

/--
The graph of the fork stays with a comment and another line end, and also if its edges get
a line each and a comment stands between them.  An error stays with other blanks.
-/
theorem forkText_ignores_layout :
    ∃ result,
      parse forkText = .ok result ∧
        parse "0 -> 1 2# fork\r\nentry 1\n" = .ok result ∧
          parse "0 -> 1\n# and\n0 -> 2\nentry 1\n" = .ok result ∧
            parse "0 1" = parse "\t0  1 # no arrow" := by
  obtain ⟨sameRows, sameLayout, expanded⟩ := parse_ignores_layout
  have accepted : (parse forkText).toOption.isSome = true := by decide +kernel
  obtain ⟨result, parsed⟩ : ∃ result, parse forkText = .ok result := by
    cases outcome : parse forkText with
    | error error => simp [outcome, Except.toOption] at accepted
    | ok result => exact ⟨result, rfl⟩
  refine ⟨result, parsed, ?_, ?_, ?_⟩
  · have commented :
        Relaid ([] ++ "0 -> 1 2".toList ++ "\nentry 1\n".toList)
          ([] ++ ("0 -> 1 2".toList ++ '#' :: " fork".toList) ++ "\nentry 1\n".toList) :=
      .line (.inl rfl) (.inr rfl) (by decide) (.commented (by decide))
    have returned :
        Relaid ("0 -> 1 2# fork".toList ++ '\n' :: "entry 1\n".toList)
          ("0 -> 1 2# fork".toList ++ '\r' :: '\n' :: "entry 1\n".toList) :=
      .feed
    have relaid := Relation.EqvGen.trans _ _ _ (.rel _ _ commented) (.rel _ _ returned)
    exact (sameLayout forkText "0 -> 1 2# fork\r\nentry 1\n" relaid).symm.trans parsed
  · have divided :
        Expands ([] ++ "0 -> 1 2".toList :: ["entry 1".toList])
          ([] ++ ["0 -> 1".toList, "0 -> 2".toList] ++ ["entry 1".toList]) := by
      have both : HasRow "0 -> 1 2".toList ["0", "->", "1", "2"] := hasRow_iff.mpr (by decide)
      have one : HasRow "0 -> 1".toList ["0", "->", "1"] := hasRow_iff.mpr (by decide)
      have two : HasRow "0 -> 2".toList ["0", "->", "2"] := hasRow_iff.mpr (by decide)
      exact .divide both (.cons one (.cons two .nil))
    have inserted :
        Expands (["0 -> 1".toList] ++ ["0 -> 2".toList, "entry 1".toList])
          (["0 -> 1".toList] ++ "# and".toList :: ["0 -> 2".toList, "entry 1".toList]) :=
      .insert ⟨[], by simp, .inr ⟨" and".toList, rfl⟩⟩
    exact expanded forkText _ _ _ result parsed (Text.hasLines_iff.mpr (by decide))
      (Text.hasLines_iff.mpr (by decide)) (.tail (.single divided) inserted)
  · exact sameRows _ _ [["0", "1"]] (hasRows_iff.mpr (by decide)) (hasRows_iff.mpr (by decide))

end Dominance.EdgeList
