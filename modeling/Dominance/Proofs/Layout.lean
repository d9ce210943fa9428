import Mathlib.Data.List.Basic
import Mathlib.Data.List.Forall2
import Dominance.EdgeList.Reader

namespace Dominance

/-!
# How a text is made of lines and words

Lines and words are cut out of a text by one fold over its characters.  Here both are
described by rules for putting a text together again: a line ends with a line feed,
perhaps with a carriage return before it, or with the text; a word is a run without
blanks that a blank or the end follows.  Every text is put together in one way, and
the cuts find it.
-/

namespace Text

/-- A text is made of lines. -/
inductive HasLines : List Char → List (List Char) → Prop where
  | nil : HasLines [] []
  /-- The last line need not be ended. -/
  | last
      {line : List Char} :
      line ≠ [] →
      '\n' ∉ line →
      HasLines line [line]
  | feed
      {line rest : List Char}
      {lines : List (List Char)} :
      '\n' ∉ line →
      line.getLast? ≠ some '\r' →
      HasLines rest lines →
      HasLines (line ++ '\n' :: rest) (line :: lines)
  /-- One carriage return before a line feed belongs to the line end. -/
  | returnFeed
      {line rest : List Char}
      {lines : List (List Char)} :
      '\n' ∉ line →
      HasLines rest lines →
      HasLines (line ++ '\r' :: '\n' :: rest) (line :: lines)

/-- A text is made of words and of blanks around them. -/
inductive HasWords : List Char → List (List Char) → Prop where
  | nil : HasWords [] []
  | blank
      {character : Char}
      {rest : List Char}
      {words : List (List Char)} :
      isBlank character = true →
      HasWords rest words →
      HasWords (character :: rest) words
  /-- A word goes on to the next blank or to the end. -/
  | word
      {word rest : List Char}
      {words : List (List Char)} :
      word ≠ [] →
      (∀ character ∈ word, isBlank character = false) →
      (∀ character ∈ rest.head?, isBlank character = true) →
      HasWords rest words →
      HasWords (word ++ rest) (word :: words)

/-! ## Pieces -/

/-- Cutting at separators is what the library does. -/
theorem pieces_eq_splitOnP
    (isSeparator : Char → Bool)
    (text : List Char) :
    pieces isSeparator text = text.splitOnP isSeparator := by
  induction text with
  | nil => rfl
  | cons character rest inductionHypothesis =>
      rw [List.splitOnP_cons_eq_if_modifyHead, ← inductionHypothesis]
      simp only [pieces, splitPieces, List.foldr_cons]
      split <;> rfl

/-! ## Lines -/

theorem not_separated
    {line : List Char}
    (noFeed : '\n' ∉ line) :
    ∀ character ∈ line, decide (character = '\n') = false := by
  intro character member
  refine decide_eq_false ?_
  rintro rfl
  exact noFeed member

/-- A text without line feeds is one line. -/
theorem lines_of_noFeed
    {line : List Char}
    (someCharacter : line ≠ [])
    (noFeed : '\n' ∉ line) :
    lines line = [line] := by
  simp [lines, pieces_eq_splitOnP, List.splitOnP_eq_singleton (not_separated noFeed),
    someCharacter]

/-- The first line ends at the first line feed. -/
theorem lines_append
    {line : List Char}
    (noFeed : '\n' ∉ line)
    (rest : List Char) :
    lines (line ++ '\n' :: rest) = dropReturn line :: lines rest := by
  have cut :
      pieces (· = '\n') (line ++ '\n' :: rest) = line :: pieces (· = '\n') rest := by
    simp only [pieces_eq_splitOnP]
    exact List.splitOnP_append_cons_of_forall_mem (not_separated noFeed) '\n' rfl rest
  have restCut : pieces (· = '\n') rest ≠ [] := List.cons_ne_nil _ _
  simp only [lines, cut, List.dropLast_cons_of_ne_nil restCut, List.map_cons, List.cons_append,
    List.getLast?_cons_of_ne_nil restCut]

theorem dropReturn_of_noReturn
    {line : List Char}
    (noReturn : line.getLast? ≠ some '\r') :
    dropReturn line = line :=
  if_neg noReturn

theorem dropReturn_append (line : List Char) : dropReturn (line ++ ['\r']) = line := by
  simp [dropReturn]

/-- The lines of a text are put together to the text. -/
theorem hasLines_lines (text : List Char) : HasLines text (lines text) := by
  -- A line feed divides the text into its first line and a shorter text.
  induction isLength : text.length using Nat.strongRecOn generalizing text with
  | ind length inductionHypothesis =>
      by_cases someFeed : '\n' ∈ text
      · obtain ⟨line, rest, rfl, noFeed⟩ := List.eq_append_cons_of_mem someFeed
        have shorter : rest.length < length := by
          simp only [List.length_append, List.length_cons] at isLength
          omega
        have restLines := inductionHypothesis rest.length shorter rest rfl
        rw [lines_append noFeed]
        by_cases isReturn : line.getLast? = some '\r'
        · obtain ⟨start, rfl⟩ := List.getLast?_eq_some_iff.mp isReturn
          rw [dropReturn_append, List.append_assoc]
          exact .returnFeed (fun member => noFeed (List.mem_append_left _ member)) restLines
        · rw [dropReturn_of_noReturn isReturn]
          exact .feed noFeed isReturn restLines
      · by_cases someCharacter : text = []
        · subst someCharacter
          exact .nil
        · rw [lines_of_noFeed someCharacter someFeed]
          exact .last someCharacter someFeed

/-- There is one way only to make a text of lines. -/
theorem hasLines_iff
    {text : List Char}
    {found : List (List Char)} :
    HasLines text found ↔ found = lines text := by
  constructor
  · intro isText
    induction isText with
    | nil => rfl
    | last someCharacter noFeed => rw [lines_of_noFeed someCharacter noFeed]
    | feed noFeed noReturn _ inductionHypothesis =>
        rw [lines_append noFeed, dropReturn_of_noReturn noReturn, inductionHypothesis]
    | @returnFeed line rest _ noFeed _ inductionHypothesis =>
        have noFeedBefore : '\n' ∉ line ++ ['\r'] := by
          simpa using noFeed
        have isEnd : line ++ '\r' :: '\n' :: rest = line ++ ['\r'] ++ '\n' :: rest := by simp
        rw [isEnd, lines_append noFeedBefore, dropReturn_append, inductionHypothesis]
  · rintro rfl
    exact hasLines_lines text

/-! ## Words -/

/-- A blank separates the words before it from those after it. -/
theorem words_append_blank
    {character : Char}
    (isSeparator : isBlank character = true)
    (before after : List Char) :
    words (before ++ character :: after) = words before ++ words after := by
  simp only [words, pieces_eq_splitOnP]
  rw [List.splitOnP_append_cons before after isSeparator, List.filter_append]

theorem words_cons_blank
    {character : Char}
    (isSeparator : isBlank character = true)
    (rest : List Char) :
    words (character :: rest) = words rest :=
  words_append_blank isSeparator [] rest

/-- A text without blanks is one word. -/
theorem words_of_noBlank
    {word : List Char}
    (someCharacter : word ≠ [])
    (noBlank : ∀ character ∈ word, isBlank character = false) :
    words word = [word] := by
  simp [words, pieces_eq_splitOnP, List.splitOnP_eq_singleton noBlank, someCharacter]

/-- The first word ends at the first blank. -/
theorem words_append
    {word rest : List Char}
    (someCharacter : word ≠ [])
    (noBlank : ∀ character ∈ word, isBlank character = false)
    (ends : ∀ character ∈ rest.head?, isBlank character = true) :
    words (word ++ rest) = word :: words rest := by
  cases rest with
  | nil =>
      rw [List.append_nil, words_of_noBlank someCharacter noBlank]
      rfl
  | cons character rest =>
      have isSeparator : isBlank character = true := ends character rfl
      rw [words_append_blank isSeparator, words_of_noBlank someCharacter noBlank,
        words_cons_blank isSeparator]
      rfl

/-- A word ends at a blank or with the text. -/
theorem head?_dropWhile_blank (text : List Char) :
    ∀ character ∈ (text.dropWhile (!isBlank ·)).head?, isBlank character = true := by
  intro character isHead
  have stops := List.head?_dropWhile_not (!isBlank ·) text
  rw [Option.mem_def.mp isHead] at stops
  simpa using stops

/-- The words of a text are put together to the text, with blanks between them. -/
theorem hasWords_words (text : List Char) : HasWords text (words text) := by
  induction isLength : text.length using Nat.strongRecOn generalizing text with
  | ind length inductionHypothesis =>
      cases text with
      | nil => exact .nil
      | cons character rest =>
          have restShorter : rest.length < length := by
            rw [← isLength]
            exact Nat.lt_succ_self _
          by_cases isSeparator : isBlank character = true
          · rw [words_cons_blank isSeparator]
            exact .blank isSeparator (inductionHypothesis rest.length restShorter rest rfl)
          · have isCut :
                character :: rest =
                  (character :: rest.takeWhile (!isBlank ·)) ++ rest.dropWhile (!isBlank ·) := by
              rw [List.cons_append, List.takeWhile_append_dropWhile]
            have noBlank :
                ∀ other ∈ character :: rest.takeWhile (!isBlank ·), isBlank other = false := by
              refine List.forall_mem_cons.mpr ⟨Bool.eq_false_iff.mpr isSeparator, ?_⟩
              intro other member
              simpa using List.all_eq_true.mp List.all_takeWhile other member
            have ends := head?_dropWhile_blank rest
            have shorter : (rest.dropWhile (!isBlank ·)).length < length :=
              Nat.lt_of_le_of_lt (List.dropWhile_sublist _).length_le restShorter
            rw [isCut, words_append (List.cons_ne_nil _ _) noBlank ends]
            exact .word (List.cons_ne_nil _ _) noBlank ends
              (inductionHypothesis _ shorter _ rfl)

/-- There is one way only to make a text of words and blanks. -/
theorem hasWords_iff
    {text : List Char}
    {found : List (List Char)} :
    HasWords text found ↔ found = words text := by
  constructor
  · intro isText
    induction isText with
    | nil => rfl
    | blank isSeparator _ inductionHypothesis =>
        rw [words_cons_blank isSeparator, inductionHypothesis]
    | word someCharacter noBlank ends _ inductionHypothesis =>
        rw [words_append someCharacter noBlank ends, inductionHypothesis]
  · rintro rfl
    exact hasWords_words text

end Text

namespace EdgeList

/-! ## Rows -/

/-- The words of each line of a text, up to the first number sign of the line. -/
def HasRows (text : List Char) (rows : List (List String)) : Prop :=
  ∃ lines,
    Text.HasLines text lines ∧
      List.Forall₂
        (fun line row =>
          Text.HasWords (line.takeWhile (· ≠ '#')) (row.map String.toList))
        lines rows

theorem map_toList_eq_iff
    {row : List String}
    {words : List (List Char)} :
    row.map String.toList = words ↔ row = words.map String.ofList := by
  constructor
  · rintro rfl
    simp [Function.comp_def]
  · rintro rfl
    simp [Function.comp_def]

/-- There is one way only to read a text as rows of words. -/
theorem hasRows_iff
    {text : List Char}
    {rows : List (List String)} :
    HasRows text rows ↔ rows = (Text.lines text).map lineWords := by
  simp only [HasRows, Text.hasLines_iff, exists_eq_left, Text.hasWords_iff, map_toList_eq_iff]
  constructor
  · intro sameRows
    have rowsEqual : List.Forall₂ (· = ·) ((Text.lines text).map lineWords) rows := by
      rw [List.forall₂_map_left_iff]
      exact sameRows.imp fun _ _ isRow => isRow.symm
    rw [List.forall₂_eq_eq_eq] at rowsEqual
    exact rowsEqual.symm
  · rintro rfl
    rw [List.forall₂_map_right_iff]
    exact List.forall₂_same.mpr fun _ _ => rfl

end EdgeList

end Dominance
