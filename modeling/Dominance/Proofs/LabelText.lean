import Mathlib.Data.List.Basic
import Dominance.Dot.Escape

namespace Dominance.Dot

/-!
# Text inside a quoted label

The replacements that escape a text are made one after the other, each over the whole
result of the one before.  They come to a single pass in which every character is written
on its own, because each of them already works character by character.

A label is read from the left, and a backslash takes the character after it.  Read in this
way an escaped text holds no quotation mark that ends the label, it leaves no backslash that
would take the mark after it, and it gives back the characters that were written, all but
the carriage returns.
-/

/-! ## A single pass -/

/-- What one character of a text is written as. -/
def escapeChar (character : Char) : List Char :=
  if character = '\r' then
    []
  else if character = '\n' then
    ['\\', 'n']
  else if character ∈ ['\\', '"', '<', '>'] then
    ['\\', character]
  else
    [character]

/-- Replacements made one after the other act on each character separately. -/
theorem foldl_substitute_eq_flatMap
    (rules : List (Char × List Char))
    (text : List Char) :
    rules.foldl (fun current rule => substitute rule.1 rule.2 current) text =
      text.flatMap fun character =>
        rules.foldl (fun current rule => substitute rule.1 rule.2 current) [character] := by
  induction rules generalizing text with
  | nil => simp
  | cons rule others inductionHypothesis =>
      simp only [List.foldl_cons]
      rw [inductionHypothesis, substitute, List.flatMap_assoc]
      refine List.flatMap_congr fun character _ => ?_
      rw [inductionHypothesis (substitute rule.1 rule.2 [character]), substitute,
        List.flatMap_singleton]

/-- No replacement writes a character that a later one replaces. -/
theorem escapeChars_singleton (character : Char) :
    escapeChars [character] = escapeChar character := by
  by_cases special : character ∈ ['\\', '"', '\n', '\r', '<', '>']
  · simp only [List.mem_cons, List.not_mem_nil, or_false] at special
    rcases special with rfl | rfl | rfl | rfl | rfl | rfl <;> decide
  · simp only [List.mem_cons, List.not_mem_nil, or_false, not_or] at special
    simp [escapeChars, escapeRules, substitute, escapeChar, special]

/-- The substitutions one after the other treat each character on its own. -/
theorem escapeChars_eq_flatMap (text : List Char) :
    escapeChars text = text.flatMap escapeChar := by
  rw [escapeChars, foldl_substitute_eq_flatMap]
  exact List.flatMap_congr fun character _ => escapeChars_singleton character

theorem toList_escape (text : String) :
    (escape text).toList = text.toList.flatMap escapeChar := by
  rw [escape, String.toList_ofList, escapeChars_eq_flatMap]

/-! ## Reading a label -/

/-- What is read at once: a character, or a backslash with the character that it takes. -/
inductive Sign where
  | plain (character : Char)
  | escaped (character : Char)
  deriving DecidableEq, Repr

/-- The character that a sign stands for. -/
def Sign.meaning : Sign → Char
  | .plain character => character
  | .escaped character => if character = 'n' then '\n' else character

/--
Read a text from the left.

A text that ends with a backslash which takes nothing cannot be read.
-/
def signs? : List Char → Option (List Sign)
  | [] => some []
  | first :: rest =>
      if first = '\\' then
        match rest with
        | [] => none
        | taken :: further => (signs? further).map (.escaped taken :: ·)
      else
        (signs? rest).map (.plain first :: ·)

/--
Read a label up to the quotation mark that ends it.

The result is what stands in the label and what follows the mark.
-/
def label? : List Char → Option (List Sign × List Char)
  | [] => none
  | first :: rest =>
      if first = '"' then
        some ([], rest)
      else if first = '\\' then
        match rest with
        | [] => none
        | taken :: further => (label? further).map (Prod.map (.escaped taken :: ·) id)
      else
        (label? rest).map (Prod.map (.plain first :: ·) id)

/-- What the signs of a text stand for. -/
def unescape? (text : String) : Option String :=
  (signs? text.toList).map fun signs => String.ofList (signs.map Sign.meaning)

/-- A text without its carriage returns. -/
def withoutReturns (text : String) : String :=
  String.ofList (text.toList.filter (· ≠ '\r'))

theorem signs?_backslash (taken : Char) (rest : List Char) :
    signs? ('\\' :: taken :: rest) = (signs? rest).map (.escaped taken :: ·) := by
  rw [signs?, if_pos rfl]

theorem signs?_cons
    {character : Char}
    (notBackslash : character ≠ '\\')
    (rest : List Char) :
    signs? (character :: rest) = (signs? rest).map (.plain character :: ·) := by
  rw [signs?.eq_def]
  exact if_neg notBackslash

/-- A quotation mark ends a label. -/
theorem label?_quote (rest : List Char) : label? ('"' :: rest) = some ([], rest) := by
  rw [label?.eq_def]
  exact if_pos rfl

/-- A backslash takes the next character into the label, whatever it is. -/
theorem label?_backslash (taken : Char) (rest : List Char) :
    label? ('\\' :: taken :: rest) =
      (label? rest).map (Prod.map (.escaped taken :: ·) id) := by
  rw [label?, if_neg (by decide), if_pos rfl]

theorem label?_cons
    {character : Char}
    (notQuote : character ≠ '"')
    (notBackslash : character ≠ '\\')
    (rest : List Char) :
    label? (character :: rest) =
      (label? rest).map (Prod.map (.plain character :: ·) id) := by
  rw [label?.eq_def]
  exact (if_neg notQuote).trans (if_neg notBackslash)

/-- A text that is read without meeting a quotation mark stays inside its label. -/
theorem label?_append_quote
    {text : List Char}
    {signs : List Sign}
    (read : signs? text = some signs)
    (noQuote : .plain '"' ∉ signs)
    (rest : List Char) :
    label? (text ++ '"' :: rest) = some (signs, rest) := by
  fun_induction signs? text generalizing signs with
  | case1 =>
      cases read
      exact label?_quote rest
  | case2 => cases read
  | case3 taken further inductionHypothesis =>
      obtain ⟨later, readLater, rfl⟩ := Option.map_eq_some_iff.mp read
      have noQuoteLater : .plain '"' ∉ later := fun member =>
        noQuote (List.mem_cons_of_mem _ member)
      rw [List.cons_append, List.cons_append, label?_backslash,
        inductionHypothesis readLater noQuoteLater]
      rfl
  | case4 first further notBackslash inductionHypothesis =>
      obtain ⟨later, readLater, rfl⟩ := Option.map_eq_some_iff.mp read
      obtain ⟨notQuote, noQuoteLater⟩ := not_or.mp (mt List.mem_cons.mpr noQuote)
      have otherMark : first ≠ '"' := by
        rintro rfl
        exact notQuote rfl
      rw [List.cons_append, label?_cons otherMark notBackslash,
        inductionHypothesis readLater noQuoteLater]
      rfl

/-! ## Escaped texts -/

/-- The sign that one character of a text is written as. -/
def sign? (character : Char) : Option Sign :=
  if character = '\r' then
    none
  else if character = '\n' then
    some (.escaped 'n')
  else if character ∈ ['\\', '"', '<', '>'] then
    some (.escaped character)
  else
    some (.plain character)

/-- The ways in which a character is written, and the sign that it is read as in each. -/
theorem escapeChar_cases (character : Char) :
    (character = '\r' ∧ escapeChar character = [] ∧ sign? character = none) ∨
    (character = '\n' ∧
      escapeChar character = ['\\', 'n'] ∧ sign? character = some (.escaped 'n')) ∨
    (character ∈ ['\\', '"', '<', '>'] ∧
      escapeChar character = ['\\', character] ∧ sign? character = some (.escaped character)) ∨
    (character ∉ ['\r', '\n', '\\', '"', '<', '>'] ∧
      escapeChar character = [character] ∧ sign? character = some (.plain character)) := by
  by_cases isReturn : character = '\r'
  · simp [escapeChar, sign?, isReturn]
  · by_cases isFeed : character = '\n'
    · simp [escapeChar, sign?, isFeed]
    · right
      right
      by_cases special : character ∈ ['\\', '"', '<', '>']
      · refine .inl ⟨special, ?_, ?_⟩
        · simp only [escapeChar, isReturn, isFeed, special, ↓reduceIte]
        · simp only [sign?, isReturn, isFeed, special, ↓reduceIte]
      · refine .inr ⟨?_, ?_, ?_⟩
        · simp only [List.mem_cons, isReturn, isFeed, false_or]
          simpa using special
        · simp only [escapeChar, isReturn, isFeed, special, ↓reduceIte]
        · simp only [sign?, isReturn, isFeed, special, ↓reduceIte]

/-- Every character is read as the sign that it is written as. -/
theorem signs?_escapeChar_append
    (character : Char)
    (rest : List Char) :
    signs? (escapeChar character ++ rest) =
      (signs? rest).map ((sign? character).toList ++ ·) := by
  rcases escapeChar_cases character with
      ⟨_, written, isSign⟩ | ⟨_, written, isSign⟩ | ⟨_, written, isSign⟩ |
        ⟨ordinary, written, isSign⟩
  · simp [written, isSign]
  · rw [written, isSign]
    exact signs?_backslash 'n' rest
  · rw [written, isSign]
    exact signs?_backslash character rest
  · rw [written, isSign]
    refine signs?_cons ?_ rest
    rintro rfl
    exact ordinary (by decide)

/-- An escaped text is read sign by sign. -/
theorem signs?_escape (text : String) :
    signs? (escape text).toList = some (text.toList.filterMap sign?) := by
  rw [toList_escape]
  induction text.toList with
  | nil => rfl
  | cons character rest inductionHypothesis =>
      rw [List.flatMap_cons, signs?_escapeChar_append, inductionHypothesis, Option.map_some]
      cases isSign : sign? character with
      | none => rw [List.filterMap_cons_none isSign]; rfl
      | some sign => rw [List.filterMap_cons_some isSign]; rfl

/-- A line feed is never written as such. -/
theorem feed_not_mem_escape (text : String) : '\n' ∉ (escape text).toList := by
  rw [toList_escape, List.mem_flatMap]
  rintro ⟨character, _, member⟩
  rcases escapeChar_cases character with
      ⟨_, written, _⟩ | ⟨_, written, _⟩ | ⟨special, written, _⟩ | ⟨ordinary, written, _⟩
  · simp [written] at member
  · simp [written] at member
  · obtain rfl : character = '\n' := by simpa [written, eq_comm] using member
    exact absurd special (by decide)
  · obtain rfl : character = '\n' := by simpa [written, eq_comm] using member
    exact ordinary (by decide)

/-- A quotation mark is written with a backslash before it. -/
theorem quote_not_mem_filterMap_sign? (text : List Char) :
    .plain '"' ∉ text.filterMap sign? := by
  rw [List.mem_filterMap]
  rintro ⟨character, _, isQuote⟩
  rcases escapeChar_cases character with
      ⟨_, _, isSign⟩ | ⟨_, _, isSign⟩ | ⟨_, _, isSign⟩ | ⟨ordinary, _, isSign⟩
  all_goals
    rw [isSign] at isQuote
    cases isQuote
  exact ordinary (by decide)

/-- A sign stands for the character that is written as it. -/
theorem map_meaning_sign? (character : Char) :
    (sign? character).map Sign.meaning = if character = '\r' then none else some character := by
  rcases escapeChar_cases character with
      ⟨rfl, _, isSign⟩ | ⟨rfl, _, isSign⟩ | ⟨special, _, isSign⟩ | ⟨ordinary, _, isSign⟩
  · simp [isSign]
  · simp [isSign, Sign.meaning]
  · have notLetter : character ≠ 'n' := by
      rintro rfl
      exact absurd special (by decide)
    have notReturn : character ≠ '\r' := by
      rintro rfl
      exact absurd special (by decide)
    simp [isSign, Sign.meaning, notLetter, notReturn]
  · have notReturn : character ≠ '\r' := by
      rintro rfl
      exact ordinary (by decide)
    simp [isSign, Sign.meaning, notReturn]

/-- A text is read back from its escaped form, but for carriage returns. -/
theorem unescape?_escape (text : String) :
    unescape? (escape text) = some (withoutReturns text) := by
  have meanings :
      (text.toList.filterMap sign?).map Sign.meaning = text.toList.filter (· ≠ '\r') := by
    rw [List.map_filterMap, ← List.filterMap_eq_filter]
    refine List.filterMap_congr fun character _ => ?_
    rw [map_meaning_sign?]
    by_cases isReturn : character = '\r' <;> simp [isReturn, Option.guard]
  rw [unescape?, signs?_escape, Option.map_some, meanings, withoutReturns]

/-- Carriage returns leave no trace in an escaped text. -/
theorem escape_withoutReturns (text : String) : escape (withoutReturns text) = escape text := by
  apply String.toList_inj.mp
  rw [toList_escape, toList_escape, withoutReturns, String.toList_ofList]
  induction text.toList with
  | nil => rfl
  | cons character rest inductionHypothesis =>
      by_cases isReturn : character = '\r'
      · rw [List.filter_cons_of_neg (by simpa using isReturn), inductionHypothesis]
        simp [escapeChar, isReturn]
      · rw [List.filter_cons_of_pos (by simpa using isReturn), List.flatMap_cons,
          inductionHypothesis, List.flatMap_cons]

/-- Escaped texts are equal exactly if the texts are, apart from carriage returns. -/
theorem escape_eq_escape_iff {first second : String} :
    escape first = escape second ↔ withoutReturns first = withoutReturns second := by
  constructor
  · intro same
    have readBack := unescape?_escape first
    rw [same, unescape?_escape] at readBack
    exact (Option.some.inj readBack).symm
  · intro same
    rw [← escape_withoutReturns first, same, escape_withoutReturns]

/--
An escaped text is made by one pass over its characters, and it cannot get out of the label
in which it stands.

Read from the left with every backslash taking the character after it, it holds no
quotation mark that would end the label, no line feed, and no backslash that would take the
mark after it.  What is read are the characters of the text without its carriage returns.
-/
theorem escape_stays_in_label (text : String) :
    (escape text).toList = text.toList.flatMap escapeChar ∧
    (∃ signs,
      signs? (escape text).toList = some signs ∧
        .plain '"' ∉ signs ∧
          ∀ rest, label? ((escape text).toList ++ '"' :: rest) = some (signs, rest)) ∧
    '\n' ∉ (escape text).toList ∧
    unescape? (escape text) = some (withoutReturns text) := by
  have noQuote := quote_not_mem_filterMap_sign? text.toList
  refine ⟨toList_escape text, ⟨_, signs?_escape text, noQuote, ?_⟩, feed_not_mem_escape text,
    unescape?_escape text⟩
  exact label?_append_quote (signs?_escape text) noQuote

/-- A backslash at the end does not take the quotation mark after it. -/
example :
    escape "a\"\r\n<b>\\" = "a\\\"\\n\\<b\\>\\\\" := by
  decide

end Dominance.Dot
