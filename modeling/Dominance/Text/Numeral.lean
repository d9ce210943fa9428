namespace Dominance.Text

/-!
# Numerals of bounded value

A numeral is read digit by digit from the left, and reading stops at the first
problem: a character that is no digit of the base, or a value that reaches the
limit.  At one character the first of these is looked at first.

Values are written in hexadecimal with `hexDigits`, most significant digit
first and without leading zeros.
-/

/-- Why a text is not a numeral. -/
inductive NumeralError where
  | empty
  | invalidDigit
  | tooLarge
  deriving DecidableEq, Repr

/-- The wording of a numeral error. -/
def NumeralError.message : NumeralError → String
  | .empty => "cannot parse integer from empty string"
  | .invalidDigit => "invalid digit found in string"
  | .tooLarge => "number too large to fit in target type"

/-- The value of an ASCII letter or digit as a digit, in base sixteen at most. -/
def hexValue? (character : Char) : Option Nat :=
  if '0' ≤ character ∧ character ≤ '9' then
    some (character.toNat - '0'.toNat)
  else if 'a' ≤ character ∧ character ≤ 'f' then
    some (character.toNat - 'a'.toNat + 10)
  else if 'A' ≤ character ∧ character ≤ 'F' then
    some (character.toNat - 'A'.toNat + 10)
  else
    none

/-- The value of a character as a digit of the given base. -/
def digitValue? (base : Nat) (character : Char) : Option Nat :=
  (hexValue? character).filter (· < base)

/-- Read digits after a value that has been read already. -/
def accumulate
    (base limit value : Nat) :
    List Char → Except NumeralError Nat
  | [] => .ok value
  | character :: rest =>
      match digitValue? base character with
      | none => .error .invalidDigit
      | some digit =>
          if value * base + digit < limit then
            accumulate base limit (value * base + digit) rest
          else
            .error .tooLarge

/--
Read a numeral below a limit.

One plus sign may stand before the digits; a sign alone is an invalid digit.
-/
def readNumeral (base limit : Nat) : List Char → Except NumeralError Nat
  | [] => .error .empty
  | ['+'] => .error .invalidDigit
  | '+' :: digits => accumulate base limit 0 digits
  | digits => accumulate base limit 0 digits

/-- The number of values of a 64-bit word. -/
def wordLimit : Nat := UInt64.size

/-- The lower-case hexadecimal digit of a value below sixteen. -/
def hexDigit (value : Nat) : Char :=
  if value < 10 then
    Char.ofNat ('0'.toNat + value)
  else
    Char.ofNat ('a'.toNat + (value - 10))

/-- The hexadecimal digits of a value, without leading zeros. -/
def hexDigits (value : Nat) : List Char :=
  if value < 16 then
    [hexDigit value]
  else
    hexDigits (value / 16) ++ [hexDigit (value % 16)]

/-- Zero has one digit. -/
example : hexDigits 0 = ['0'] := by
  decide +kernel

example : hexDigits 0x1f0a = ['1', 'f', '0', 'a'] := by
  decide +kernel

example : (readNumeral 16 wordLimit "+fF".toList).toOption = some 255 := by
  decide

end Dominance.Text
