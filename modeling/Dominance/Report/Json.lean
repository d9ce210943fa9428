import Dominance.Text.Numeral

namespace Dominance.Report

/-!
# Reports in JSON

Values are written over several lines, each level indented by two more blanks,
with the fields of an object in the order in which they are given.  In a string
the quotation mark, the backslash and the control characters are escaped.
-/

/-- A JSON value. -/
inductive Json where
  | null
  | bool (value : Bool)
  | number (value : Nat)
  | string (value : String)
  | list (items : List Json)
  | object (fields : List (String × Json))

namespace Json

/-- One character of a string. -/
def escapeChar (character : Char) : List Char :=
  match character with
  | '"' => ['\\', '"']
  | '\\' => ['\\', '\\']
  | '\n' => ['\\', 'n']
  | '\r' => ['\\', 'r']
  | '\t' => ['\\', 't']
  | '\x08' => ['\\', 'b']
  | '\x0c' => ['\\', 'f']
  | _ =>
      if character.toNat < 0x20 then
        ['\\', 'u', '0', '0',
          Text.hexDigit (character.toNat / 16),
          Text.hexDigit (character.toNat % 16)]
      else
        [character]

/-- A string in quotation marks. -/
def quote (text : String) : String :=
  "\"" ++ String.ofList (text.toList.flatMap escapeChar) ++ "\""

/-- A line feed and the indentation of a level. -/
def newline (level : Nat) : String :=
  "\n" ++ String.ofList (List.replicate (2 * level) ' ')

mutual

/-- The text of a value at a level of indentation. -/
def write (level : Nat) : Json → String
  | .null => "null"
  | .bool value => if value then "true" else "false"
  | .number value => toString value
  | .string value => quote value
  | .list [] => "[]"
  | .list (item :: rest) =>
      "[" ++ newline (level + 1) ++ write (level + 1) item ++
        writeItems (level + 1) rest ++ newline level ++ "]"
  | .object [] => "\x7b\x7d"
  | .object ((name, value) :: rest) =>
      "\x7b" ++ newline (level + 1) ++ quote name ++ ": " ++
        write (level + 1) value ++
        writeFields (level + 1) rest ++ newline level ++ "\x7d"

/-- The items of a list after the first. -/
def writeItems (level : Nat) : List Json → String
  | [] => ""
  | item :: rest =>
      "," ++ newline level ++ write level item ++ writeItems level rest

/-- The fields of an object after the first. -/
def writeFields (level : Nat) : List (String × Json) → String
  | [] => ""
  | (name, value) :: rest =>
      "," ++ newline level ++ quote name ++ ": " ++ write level value ++
        writeFields level rest

end

/-- The text of a value, with a final line feed. -/
def text (value : Json) : String :=
  value.write 0 ++ "\n"

end Json

end Dominance.Report
