namespace Dominance.Dot

/-!
# Escaped label text

A title stands inside a quoted label.  Its special characters are replaced one
after the other, each over the whole text.  Backslashes come first, because
every later replacement writes one; no replacement writes a character that a
later one replaces.
-/

/-- Replace every occurrence of one character by a text. -/
def substitute
    (target : Char)
    (replacement : List Char)
    (text : List Char) :
    List Char :=
  text.flatMap fun character =>
    if character = target then replacement else [character]

/-- The replacements in the order in which they are made. -/
def escapeRules : List (Char × List Char) :=
  [ ('\\', ['\\', '\\'])
  , ('"', ['\\', '"'])
  , ('\n', ['\\', 'n'])
  , ('\r', [])
  , ('<', ['\\', '<'])
  , ('>', ['\\', '>']) ]

/-- Make every replacement, each over the result of the one before. -/
def escapeChars (text : List Char) : List Char :=
  escapeRules.foldl
    (fun current rule => substitute rule.1 rule.2 current)
    text

/-- The text as it stands in a quoted label. -/
def escape (text : String) : String :=
  String.ofList (escapeChars text.toList)

end Dominance.Dot
