import Dominance.Text.Blank
import Dominance.Text.Numeral

namespace Dominance

/-!
# Addresses

An address is a 64-bit word that names a block.  It is written in hexadecimal
with a lower-case `0x` in front, and read from decimal or, after `0x` or `0X`,
hexadecimal digits.
-/

/-- The address of a block. -/
structure Address where
  value : UInt64
  deriving DecidableEq, Repr

namespace Address

/-- The default address is zero. -/
instance : Inhabited Address := ⟨⟨0⟩⟩

/-- Addresses are ordered by value. -/
instance : LT Address := ⟨fun first second => first.value < second.value⟩

instance : LE Address := ⟨fun first second => first.value ≤ second.value⟩

instance (first second : Address) : Decidable (first < second) :=
  inferInstanceAs (Decidable (first.value < second.value))

instance (first second : Address) : Decidable (first ≤ second) :=
  inferInstanceAs (Decidable (first.value ≤ second.value))

/-- The address whose value is a number modulo the word size. -/
def ofNat (value : Nat) : Address :=
  ⟨UInt64.ofNat value⟩

/-- The text of an address. -/
def text (address : Address) : String :=
  "0x" ++ String.ofList (Text.hexDigits address.value.toNat)

instance : ToString Address := ⟨text⟩

/-- The text of an address that also names its type. -/
def debugText (address : Address) : String :=
  s!"Address({address})"

end Address

/-- A text that is no address, without surrounding blanks, and why. -/
structure AddressError where
  text : String
  reason : Text.NumeralError
  deriving DecidableEq, Repr

/-- The wording of an address error. -/
def AddressError.message (error : AddressError) : String :=
  s!"Invalid address '{error.text}': {error.reason.message}"

/-- The wording for an input that breaks a rule, as it stands in a report. -/
def malformedText (message : String) : String :=
  s!"Malformed - {message}"

/-- The wording of an address error as it stands in a report. -/
def AddressError.reportText (error : AddressError) : String :=
  malformedText error.message

namespace Address

/-- Read the characters of an address without surrounding blanks. -/
def readTrimmed : List Char → Except Text.NumeralError Nat
  | '0' :: 'x' :: digits => Text.readNumeral 16 Text.wordLimit digits
  | '0' :: 'X' :: digits => Text.readNumeral 16 Text.wordLimit digits
  | digits => Text.readNumeral 10 Text.wordLimit digits

/-- Read an address, ignoring blanks around it. -/
def parse (text : String) : Except AddressError Address :=
  let trimmed := Text.trim text.toList
  match readTrimmed trimmed with
  | .ok value => .ok (ofNat value)
  | .error reason => .error ⟨String.ofList trimmed, reason⟩

end Address

end Dominance
