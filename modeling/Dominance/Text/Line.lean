import Dominance.Text.Blank

namespace Dominance.Text

/-!
# Lines and words

A text is cut into lines at line feeds and a line into words at blanks.  Both
are the same cut: `pieces` splits a list of characters at every separator, and
keeps the empty pieces.
-/

/--
The first piece of a text and the pieces after it.

The text is read from its end: a separator closes the piece under way, and any
other character joins it.
-/
def splitPieces
    (isSeparator : Char → Bool)
    (text : List Char) :
    List Char × List (List Char) :=
  text.foldr
    (fun character parts =>
      if isSeparator character then
        ([], parts.1 :: parts.2)
      else
        (character :: parts.1, parts.2))
    ([], [])

/-- The pieces between the separators of a text: one more than there are separators. -/
def pieces
    (isSeparator : Char → Bool)
    (text : List Char) :
    List (List Char) :=
  let parts := splitPieces isSeparator text
  parts.1 :: parts.2

/-- Remove one carriage return at the end of a line. -/
def dropReturn (line : List Char) : List Char :=
  if line.getLast? = some '\r' then line.dropLast else line

/--
The lines of a text.

A line ends at a line feed, and a carriage return just before that belongs to
the line end.  What follows the last line feed is a line only if it is not
empty.
-/
def lines (text : List Char) : List (List Char) :=
  let parts := pieces (· = '\n') text
  parts.dropLast.map dropReturn ++
    (parts.getLast?.toList.filter fun last => !last.isEmpty)

/-- The words of a text: its longest runs without a blank. -/
def words (text : List Char) : List (List Char) :=
  (pieces isBlank text).filter fun piece => !piece.isEmpty

example :
    lines "a\r\n\nb".toList = ["a".toList, [], "b".toList] := by
  decide

example : lines "a\n".toList = ["a".toList] := by
  decide

example : words " a\tbc ".toList = ["a".toList, "bc".toList] := by
  decide

end Dominance.Text
