namespace Dominance.Text

/-!
# Blank characters

The characters that separate words and surround addresses are those with the
Unicode property White_Space: twenty-five code points in ten ranges.  Core's
`Char.isWhitespace` knows only four of them, so the property is a table here.

Texts are handled as lists of characters, on which cutting blanks from either
end is `dropWhile`.
-/

/-- The code points with the property White_Space, as inclusive ranges. -/
def blankRanges : List (Nat × Nat) :=
  [ (0x0009, 0x000D)
  , (0x0020, 0x0020)
  , (0x0085, 0x0085)
  , (0x00A0, 0x00A0)
  , (0x1680, 0x1680)
  , (0x2000, 0x200A)
  , (0x2028, 0x2029)
  , (0x202F, 0x202F)
  , (0x205F, 0x205F)
  , (0x3000, 0x3000) ]

/-- A character is blank when its code point lies in one of the ranges. -/
def isBlank (character : Char) : Bool :=
  blankRanges.any fun range =>
    range.1 ≤ character.toNat && character.toNat ≤ range.2

/-- The table holds twenty-five code points. -/
example : (blankRanges.map fun range => range.2 + 1 - range.1).sum = 25 := by
  decide

/-- Every character that core calls whitespace is blank. -/
theorem isBlank_of_isWhitespace
    {character : Char}
    (whitespace : character.isWhitespace = true) :
    isBlank character = true := by
  simp only [Char.isWhitespace, Bool.or_eq_true, decide_eq_true_eq] at whitespace
  rcases whitespace with ((rfl | rfl) | rfl) | rfl <;> decide

/-- Remove the blanks at the start of a text. -/
def trimStart (text : List Char) : List Char :=
  text.dropWhile isBlank

/-- Remove the blanks at the end of a text. -/
def trimEnd (text : List Char) : List Char :=
  (text.reverse.dropWhile isBlank).reverse

/-- Remove the blanks at both ends of a text. -/
def trim (text : List Char) : List Char :=
  trimEnd (trimStart text)

end Dominance.Text
