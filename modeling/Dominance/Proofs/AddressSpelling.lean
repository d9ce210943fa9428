import Mathlib.Data.List.TakeWhile
import Dominance.Address
import Dominance.Proofs.Positional

namespace Dominance

/-!
# How addresses are spelled

An address may be spelled in many ways: with blanks around it, in decimal or after a mark
in hexadecimal, with a plus sign, and with any number of zeros in front.  A text is read
as an address exactly if it is such a spelling of a value that fits into a word.

Every other text is refused for one of three reasons.  To tell which one it is, a text is
taken apart: after the blanks, the mark and the sign there is a longest run of digits, and
the value of this run counts even if other characters come after it.
-/

namespace Text

/-- A text without the blanks around it. -/
structure Trims (text trimmed : List Char) : Prop where
  surrounds :
    ∃ before after,
      text = before ++ trimmed ++ after ∧
        (∀ character ∈ before, isBlank character = true) ∧
          ∀ character ∈ after, isBlank character = true
  starts : ∀ character ∈ trimmed.head?, isBlank character = false
  ends : ∀ character ∈ trimmed.getLast?, isBlank character = false

variable {text trimmed before after : List Char}

/-- Blanks in front are removed up to the first other character. -/
theorem trimStart_append
    (areBlank : ∀ character ∈ before, isBlank character = true)
    (starts : ∀ character ∈ text.head?, isBlank character = false) :
    trimStart (before ++ text) = text := by
  rw [trimStart, List.dropWhile_append_of_pos areBlank]
  cases text with
  | nil => rfl
  | cons first rest =>
      exact List.dropWhile_cons_of_neg (Bool.eq_false_iff.mp (starts first rfl))

/-- Blanks at the end are removed up to the last other character. -/
theorem trimEnd_append
    (areBlank : ∀ character ∈ after, isBlank character = true)
    (ends : ∀ character ∈ text.getLast?, isBlank character = false) :
    trimEnd (text ++ after) = text := by
  have reversedBlank : ∀ character ∈ after.reverse, isBlank character = true :=
    fun character member => areBlank character (List.mem_reverse.mp member)
  rw [← List.head?_reverse] at ends
  have removed := trimStart_append reversedBlank ends
  rw [trimStart, ← List.reverse_append] at removed
  rw [trimEnd, removed, List.reverse_reverse]

theorem trimStart_of_blank
    (areBlank : ∀ character ∈ text, isBlank character = true) :
    trimStart text = [] :=
  List.dropWhile_eq_nil_iff.mpr areBlank

/-- What is left begins with no blank. -/
theorem starts_trimStart (text : List Char) :
    ∀ character ∈ (trimStart text).head?, isBlank character = false := by
  intro character isHead
  have stops := List.head?_dropWhile_not isBlank text
  rw [← trimStart, Option.mem_def.mp isHead] at stops
  simpa using stops

/-- A text without the blanks around it is what trimming gives. -/
theorem Trims.trim_eq
    (trims : Trims text trimmed) :
    trim text = trimmed := by
  obtain ⟨⟨before, after, rfl, beforeBlank, afterBlank⟩, starts, ends⟩ := trims
  rw [trim, List.append_assoc]
  by_cases isEmpty : trimmed = []
  · subst isEmpty
    rw [trimStart_of_blank]
    · rfl
    · simpa [or_imp, forall_and] using ⟨beforeBlank, afterBlank⟩
  · have startsToo : ∀ character ∈ (trimmed ++ after).head?, isBlank character = false := by
      rw [List.head?_append_of_ne_nil _ isEmpty]
      exact starts
    rw [trimStart_append beforeBlank startsToo, trimEnd_append afterBlank ends]

/-- Trimming removes the blanks around a text, and nothing else. -/
theorem trims_trim (text : List Char) : Trims text (trim text) := by
  -- What is removed from the end is seen in the text without its blanks in front.
  obtain ⟨after, afterBlank, rest_eq⟩ :
      ∃ after, (∀ character ∈ after, isBlank character = true) ∧
        trimStart text = trim text ++ after := by
    refine ⟨((trimStart text).reverse.takeWhile isBlank).reverse, ?_, ?_⟩
    · intro character member
      exact List.all_eq_true.mp List.all_takeWhile character (List.mem_reverse.mp member)
    · rw [trim, trimEnd, ← List.reverse_append, List.takeWhile_append_dropWhile,
        List.reverse_reverse]
  refine ⟨⟨text.takeWhile isBlank, after, ?_, ?_, afterBlank⟩, ?_, ?_⟩
  · rw [List.append_assoc, ← rest_eq, trimStart, List.takeWhile_append_dropWhile]
  · exact fun character => List.all_eq_true.mp List.all_takeWhile character
  · intro character isHead
    refine starts_trimStart text character ?_
    rw [rest_eq, List.head?_append, Option.mem_def.mp isHead]
    rfl
  · rw [trim, trimEnd, ← List.head?_reverse, List.reverse_reverse]
    exact starts_trimStart (trimStart text).reverse

end Text

namespace Address

/-! ## Spellings and parts -/

/-- What stands before a numeral to tell its base. -/
inductive Mark where
  | decimal
  | lowerHex
  | upperHex
  deriving DecidableEq, Repr

namespace Mark

def text : Mark → List Char
  | .decimal => []
  | .lowerHex => ['0', 'x']
  | .upperHex => ['0', 'X']

def base : Mark → Nat
  | .decimal => 10
  | .lowerHex => 16
  | .upperHex => 16

theorem base_le (mark : Mark) : mark.base ≤ 16 := by
  cases mark <;> decide

theorem base_pos (mark : Mark) : 0 < mark.base := by
  cases mark <;> decide

theorem noBlank (mark : Mark) : ∀ character ∈ mark.text, Text.isBlank character = false := by
  cases mark <;> simp [text, Text.isBlank, Text.blankRanges]

end Mark

/-- A numeral with a mark, perhaps with a sign, and with what stands around it. -/
structure Spelling where
  before : List Char
  mark : Mark
  sign : List Char
  digits : List Char
  after : List Char

namespace Spelling

/-- The numeral with its mark and sign. -/
def core (spelling : Spelling) : List Char :=
  spelling.mark.text ++ (spelling.sign ++ spelling.digits)

def text (spelling : Spelling) : List Char :=
  spelling.before ++ spelling.core ++ spelling.after

/-- Blanks around one or more digits that have a value in the base of the mark. -/
structure Spells (spelling : Spelling) (value : Nat) : Prop where
  before_blank : ∀ character ∈ spelling.before, Text.isBlank character = true
  after_blank : ∀ character ∈ spelling.after, Text.isBlank character = true
  sign_eq : spelling.sign = [] ∨ spelling.sign = ['+']
  someDigit : spelling.digits ≠ []
  hasValue : Text.HasValue spelling.mark.base spelling.digits value

end Spelling

/-- The parts of any text that decide what is read. -/
structure Parts where
  mark : Mark
  /-- What follows the mark, up to the blanks at the end. -/
  body : List Char
  /-- The longest run of digits after the mark and a sign. -/
  digits : List Char
  /-- What follows the run. -/
  rest : List Char
  /-- The value of the run. -/
  value : Nat

/-- A text that begins with no mark. -/
def Unmarked (text : List Char) : Prop :=
  ∀ following, text ≠ '0' :: 'x' :: following ∧ text ≠ '0' :: 'X' :: following

/-- A text is made of parts. -/
structure HasParts (text : List Char) (parts : Parts) : Prop where
  trims : Text.Trims text (parts.mark.text ++ parts.body)
  isMarked : parts.mark = .decimal → Unmarked parts.body
  isRun :
    ∃ unsigned,
      Text.IsSigned parts.body unsigned ∧
        Text.IsRun parts.mark.base unsigned parts.digits parts.rest parts.value

namespace Parts

/-- What comes of a text with these parts. -/
def verdict (parts : Parts) : Except Text.NumeralError Nat :=
  if parts.body = [] then
    .error .empty
  else if Text.wordLimit ≤ parts.value then
    .error .tooLarge
  else if parts.digits = [] ∨ parts.rest ≠ [] then
    .error .invalidDigit
  else
    .ok parts.value

end Parts

variable {text : List Char} {parts : Parts}

/-! ## Parts -/

/-- Every text has a mark, if only the one that is not written. -/
theorem exists_mark (trimmed : List Char) :
    ∃ (mark : Mark) (body : List Char),
      trimmed = mark.text ++ body ∧ (mark = .decimal → Unmarked body) := by
  by_cases isLower : ∃ body, trimmed = '0' :: 'x' :: body
  · obtain ⟨body, rfl⟩ := isLower
    exact ⟨.lowerHex, body, rfl, fun isDecimal => by cases isDecimal⟩
  · by_cases isUpper : ∃ body, trimmed = '0' :: 'X' :: body
    · obtain ⟨body, rfl⟩ := isUpper
      exact ⟨.upperHex, body, rfl, fun isDecimal => by cases isDecimal⟩
    · refine ⟨.decimal, trimmed, rfl, fun _ following => ⟨?_, ?_⟩⟩
      · exact fun same => isLower ⟨following, same⟩
      · exact fun same => isUpper ⟨following, same⟩

theorem exists_isSigned (body : List Char) : ∃ unsigned, Text.IsSigned body unsigned := by
  by_cases isPlus : body.head? = some '+'
  · obtain ⟨unsigned, rfl⟩ := List.head?_eq_some_iff.mp isPlus
    exact ⟨unsigned, .inl rfl⟩
  · exact ⟨body, .inr ⟨rfl, isPlus⟩⟩

/-- Every text can be cut into a mark, a sign, digits and a rest. -/
theorem exists_hasParts (text : List Char) : ∃ parts, HasParts text parts := by
  obtain ⟨mark, body, trimmed_eq, isMarked⟩ := exists_mark (Text.trim text)
  obtain ⟨unsigned, isSigned⟩ := exists_isSigned body
  obtain ⟨digits, rest, value, isRun⟩ := Text.exists_isRun mark.base_le unsigned
  have trims := Text.trims_trim text
  rw [trimmed_eq] at trims
  exact ⟨⟨mark, body, digits, rest, value⟩, trims, isMarked, unsigned, isSigned, isRun⟩

/-- The mark is read before the numeral. -/
theorem HasParts.readTrimmed_eq
    (hasParts : HasParts text parts) :
    readTrimmed (parts.mark.text ++ parts.body) =
      Text.readNumeral parts.mark.base Text.wordLimit parts.body := by
  have isMarked := hasParts.isMarked
  cases isMark : parts.mark with
  | decimal =>
      rw [Mark.text, List.nil_append, readTrimmed.eq_def]
      split
      · rename_i digits body_eq
        exact absurd body_eq (isMarked isMark digits).1
      · rename_i digits body_eq
        exact absurd body_eq (isMarked isMark digits).2
      · rfl
  | lowerHex => rfl
  | upperHex => rfl

/-- Reading a text decides by its parts. -/
theorem HasParts.verdict_eq
    (hasParts : HasParts text parts) :
    readTrimmed (Text.trim text) = parts.verdict := by
  obtain ⟨unsigned, isSigned, isRun⟩ := hasParts.isRun
  rw [hasParts.trims.trim_eq, hasParts.readTrimmed_eq,
    Text.readNumeral_of_isRun parts.mark.base_le parts.mark.base_pos (by decide) isSigned isRun]
  rfl

/-- The mark of a text and what follows it are found in one way. -/
theorem mark_unique
    {mark other : Mark}
    {body rest : List Char}
    (same : mark.text ++ body = other.text ++ rest)
    (isMarked : mark = .decimal → Unmarked body)
    (otherMarked : other = .decimal → Unmarked rest) :
    mark = other ∧ body = rest := by
  cases mark with
  | decimal =>
      cases other with
      | decimal => exact ⟨rfl, same⟩
      | lowerHex => exact absurd same (isMarked rfl rest).1
      | upperHex => exact absurd same (isMarked rfl rest).2
  | lowerHex =>
      cases other with
      | decimal => exact absurd same.symm (otherMarked rfl body).1
      | lowerHex => exact ⟨rfl, by simpa [Mark.text] using same⟩
      | upperHex => simp [Mark.text] at same
  | upperHex =>
      cases other with
      | decimal => exact absurd same.symm (otherMarked rfl body).2
      | lowerHex => simp [Mark.text] at same
      | upperHex => exact ⟨rfl, by simpa [Mark.text] using same⟩

/-- A text has one set of parts only. -/
theorem HasParts.unique
    {others : Parts}
    (hasParts : HasParts text parts)
    (again : HasParts text others) :
    parts = others := by
  obtain ⟨mark, body, digits, rest, value⟩ := parts
  obtain ⟨mark', body', digits', rest', value'⟩ := others
  obtain ⟨trims, isMarked, unsigned, isSigned, isRun⟩ := hasParts
  obtain ⟨trimsToo, isMarkedToo, unsigned', isSignedToo, isRunToo⟩ := again
  obtain ⟨rfl, rfl⟩ :=
    mark_unique (trims.trim_eq.symm.trans trimsToo.trim_eq) isMarked isMarkedToo
  obtain rfl := isSigned.unique isSignedToo
  obtain ⟨rfl, rfl, rfl⟩ := isRun.unique mark.base_le isRunToo
  rfl

/-! ## Spellings -/

/-- A digit is neither a blank nor a sign. -/
theorem isBlank_of_isDigit
    {base digit : Nat}
    {character : Char}
    (small : base ≤ 16)
    (isDigit : Text.IsDigit base character digit) :
    Text.isBlank character = false ∧ character ≠ '+' := by
  obtain ⟨below, isDigit⟩ := isDigit
  have plain :
      ∀ digit < 16,
        (Text.isBlank (Nat.digitChar digit) = false ∧ Nat.digitChar digit ≠ '+') ∧
          Text.isBlank (Nat.digitChar digit).toUpper = false ∧
            (Nat.digitChar digit).toUpper ≠ '+' := by
    decide
  obtain ⟨isLower, isUpper⟩ := plain digit (Nat.lt_of_lt_of_le below small)
  rcases isDigit with rfl | rfl
  · exact isLower
  · exact isUpper

/-- The mark of hexadecimal digits holds no decimal digit. -/
theorem unmarked_of_hasValue
    {digits : List Char}
    {value : Nat}
    (hasValue : Text.HasValue 10 digits value) :
    Unmarked digits := by
  have notMember
      (letter : Char)
      (noDigit :
        ∀ digit < 10,
          letter ≠ Nat.digitChar digit ∧ letter ≠ (Nat.digitChar digit).toUpper) :
      letter ∉ digits := by
    intro member
    obtain ⟨digit, below, isDigit⟩ := hasValue.mem_isDigit member
    obtain ⟨notLower, notUpper⟩ := noDigit digit below
    exact isDigit.elim notLower notUpper
  intro following
  constructor
  · rintro rfl
    exact notMember 'x' (by decide) (by simp)
  · rintro rfl
    exact notMember 'X' (by decide) (by simp)

namespace Spelling

variable {spelling : Spelling} {value : Nat}

/-- The parts of a text that is a spelling. -/
def toParts (spelling : Spelling) (value : Nat) : Parts where
  mark := spelling.mark
  body := spelling.sign ++ spelling.digits
  digits := spelling.digits
  rest := []
  value := value

theorem Spells.isSigned
    (spells : spelling.Spells value) :
    Text.IsSigned (spelling.sign ++ spelling.digits) spelling.digits := by
  rcases spells.sign_eq with noSign | isSign
  · refine .inr ⟨by rw [noSign, List.nil_append], ?_⟩
    intro isPlus
    obtain ⟨_, isDigit⟩ := spells.hasValue.mem_isDigit (List.mem_of_mem_head? isPlus)
    exact (isBlank_of_isDigit spelling.mark.base_le isDigit).2 rfl
  · exact .inl (by rw [isSign, List.singleton_append])

/-- No blank stands inside of a spelling. -/
theorem Spells.noBlank
    (spells : spelling.Spells value) :
    ∀ character ∈ spelling.core, Text.isBlank character = false := by
  intro character member
  rcases List.mem_append.mp member with inMark | afterMark
  · exact spelling.mark.noBlank character inMark
  · rcases List.mem_append.mp afterMark with inSign | inDigits
    · rcases spells.sign_eq with noSign | isSign
      · simp [noSign] at inSign
      · rw [isSign, List.mem_singleton] at inSign
        rw [inSign]
        decide
    · obtain ⟨_, isDigit⟩ := spells.hasValue.mem_isDigit inDigits
      exact (isBlank_of_isDigit spelling.mark.base_le isDigit).1

/-- The digits of a decimal spelling are not taken for a mark. -/
theorem Spells.unmarked
    (spells : spelling.Spells value)
    (isDecimal : spelling.mark = .decimal) :
    Unmarked (spelling.sign ++ spelling.digits) := by
  rcases spells.sign_eq with noSign | isSign
  · have hasValue := spells.hasValue
    rw [isDecimal] at hasValue
    rw [noSign, List.nil_append]
    exact unmarked_of_hasValue hasValue
  · intro following
    simp [isSign]

/-- A spelling consists of its digits, with nothing left after them. -/
theorem Spells.hasParts
    (spells : spelling.Spells value) :
    HasParts spelling.text (spelling.toParts value) where
  trims :=
    { surrounds :=
        ⟨spelling.before, spelling.after, rfl, spells.before_blank, spells.after_blank⟩
      starts := fun character isHead =>
        spells.noBlank character (List.mem_of_mem_head? isHead)
      ends := fun character isLast =>
        spells.noBlank character (List.mem_of_mem_getLast? isLast) }
  isMarked := spells.unmarked
  isRun :=
    ⟨spelling.digits, spells.isSigned, (List.append_nil _).symm, spells.hasValue, by simp [toParts]⟩

end Spelling

/-- A text whose parts end with one or more digits is a spelling. -/
theorem HasParts.exists_spelling
    (hasParts : HasParts text parts)
    (someDigit : parts.digits ≠ [])
    (noRest : parts.rest = []) :
    ∃ spelling : Spelling, spelling.text = text ∧ spelling.Spells parts.value := by
  obtain ⟨⟨⟨before, after, text_eq, beforeBlank, afterBlank⟩, _, _⟩, _, unsigned, isSigned, isRun⟩ :=
    hasParts
  have unsigned_eq : unsigned = parts.digits := by
    rw [isRun.text_eq, noRest, List.append_nil]
  subst unsigned_eq
  obtain ⟨sign, sign_eq, body_eq⟩ :
      ∃ sign, (sign = [] ∨ sign = ['+']) ∧ parts.body = sign ++ parts.digits := by
    rcases isSigned with body_eq | ⟨body_eq, _⟩
    · exact ⟨['+'], .inr rfl, body_eq⟩
    · exact ⟨[], .inl rfl, body_eq⟩
  refine ⟨⟨before, parts.mark, sign, parts.digits, after⟩, ?_, ?_⟩
  · rw [text_eq, body_eq]
    rfl
  · exact ⟨beforeBlank, afterBlank, sign_eq, someDigit, isRun.hasValue⟩

/-! ## What is read -/

namespace Parts

/-- A text is accepted if it has digits and nothing else, with a value below the limit. -/
theorem verdict_eq_ok_iff
    {value : Nat} :
    parts.verdict = .ok value ↔
      parts.body ≠ [] ∧
        parts.value < Text.wordLimit ∧
          parts.digits ≠ [] ∧ parts.rest = [] ∧ parts.value = value := by
  rw [verdict]
  split
  · simp_all
  · split
    · simp_all
    · split
      · rename_i isBad
        simp only [reduceCtorEq, false_iff]
        rintro ⟨_, _, someDigit, noRest, _⟩
        exact isBad.elim someDigit fun someRest => someRest noRest
      · simp_all

/-- The reason for which a text is refused, if it is. -/
theorem reason_of_verdict
    {reason : Text.NumeralError}
    (refused : parts.verdict = .error reason)
    (fits : parts.body = [] → parts.value < Text.wordLimit) :
    (reason = .empty ↔ parts.body = []) ∧
      (reason = .tooLarge ↔ Text.wordLimit ≤ parts.value) ∧
        (reason = .invalidDigit ↔ parts.body ≠ [] ∧ parts.value < Text.wordLimit) := by
  rw [verdict] at refused
  split at refused
  · cases refused
    simp_all
  · split at refused
    · cases refused
      simp_all
    · split at refused
      · cases refused
        simp_all
      · cases refused

end Parts

theorem HasParts.value_of_empty
    (hasParts : HasParts text parts)
    (isEmpty : parts.body = []) :
    parts.value = 0 := by
  obtain ⟨unsigned, isSigned, isRun⟩ := hasParts.isRun
  rw [isEmpty] at isSigned
  obtain rfl : unsigned = [] := isSigned.unique (.inr ⟨rfl, by simp⟩)
  exact (isRun.unique parts.mark.base_le ⟨rfl, ⟨[], .nil, rfl⟩, by simp⟩).2.2

/-- An address is read from the text without the blanks around it. -/
theorem parse_eq_ok_iff
    {text : String}
    {address : Address} :
    parse text = .ok address ↔
      ∃ value, readTrimmed (Text.trim text.toList) = .ok value ∧ address = ofNat value := by
  rw [parse]
  cases readTrimmed (Text.trim text.toList) with
  | error reason => simp
  | ok value => simp [eq_comm]

/-- The error tells the reason for which the numeral was refused. -/
theorem readTrimmed_of_parse_eq_error
    {text : String}
    {error : AddressError}
    (refused : parse text = .error error) :
    readTrimmed (Text.trim text.toList) = .error error.reason := by
  rw [parse] at refused
  cases read : readTrimmed (Text.trim text.toList) with
  | error reason =>
      rw [read] at refused
      cases refused
      rfl
  | ok value =>
      rw [read] at refused
      cases refused

/-- A number that fits into a word is the value of its address, and of no other. -/
theorem eq_ofNat_iff
    {address : Address}
    {value : Nat}
    (fits : value < 2 ^ 64) :
    address = ofNat value ↔ address.value.toNat = value := by
  constructor
  · rintro rfl
    rw [ofNat, UInt64.toNat_ofNat']
    exact Nat.mod_eq_of_lt fits
  · rintro rfl
    rw [ofNat, UInt64.ofNat_toNat]

/-- A text is read as an address exactly if it spells the value of the address. -/
theorem parse_eq_ok_iff_exists_spelling
    {text : String}
    {address : Address} :
    parse text = .ok address ↔
      ∃ (spelling : Spelling) (value : Nat),
        spelling.text = text.toList ∧
          spelling.Spells value ∧ value < 2 ^ 64 ∧ address.value.toNat = value := by
  rw [parse_eq_ok_iff]
  constructor
  · rintro ⟨value, read, address_eq⟩
    obtain ⟨parts, hasParts⟩ := exists_hasParts text.toList
    rw [hasParts.verdict_eq, Parts.verdict_eq_ok_iff] at read
    obtain ⟨_, fits, someDigit, noRest, rfl⟩ := read
    obtain ⟨spelling, text_eq, spells⟩ := hasParts.exists_spelling someDigit noRest
    exact ⟨spelling, parts.value, text_eq, spells, fits, (eq_ofNat_iff fits).mp address_eq⟩
  · rintro ⟨spelling, value, text_eq, spells, fits, address_eq⟩
    refine ⟨value, ?_, (eq_ofNat_iff fits).mpr address_eq⟩
    rw [← text_eq, spells.hasParts.verdict_eq, Parts.verdict_eq_ok_iff]
    have someBody : spelling.sign ++ spelling.digits ≠ [] :=
      List.append_ne_nil_of_right_ne_nil _ spells.someDigit
    exact ⟨someBody, fits, spells.someDigit, rfl, rfl⟩

/--
The texts that are read as addresses are the spellings of values that fit into a word.

Every other text is refused because it is empty after its mark, because the longest run of
digits after its mark and sign has a value that does not fit, or because of a character
that is no digit; a text has one set of parts, and they tell which reason it is.
-/
theorem parse_decides_spelling (text : String) :
    (∀ address,
      parse text = .ok address ↔
        ∃ (spelling : Spelling) (value : Nat),
          spelling.text = text.toList ∧
            spelling.Spells value ∧ value < 2 ^ 64 ∧ address.value.toNat = value) ∧
    ∃ parts,
      (∀ others, HasParts text.toList others ↔ others = parts) ∧
        ∀ error,
          parse text = .error error →
            (error.reason = .empty ↔ parts.body = []) ∧
              (error.reason = .tooLarge ↔ 2 ^ 64 ≤ parts.value) ∧
                (error.reason = .invalidDigit ↔ parts.body ≠ [] ∧ parts.value < 2 ^ 64) := by
  refine ⟨fun _ => parse_eq_ok_iff_exists_spelling, ?_⟩
  obtain ⟨parts, hasParts⟩ := exists_hasParts text.toList
  refine ⟨parts, ?_, ?_⟩
  · intro others
    constructor
    · exact fun again => again.unique hasParts
    · rintro rfl
      exact hasParts
  · intro error refused
    have read := readTrimmed_of_parse_eq_error refused
    rw [hasParts.verdict_eq] at read
    refine Parts.reason_of_verdict read fun isEmpty => ?_
    rw [hasParts.value_of_empty isEmpty]
    decide

/-- Blanks, a mark in upper case, a sign, zeros in front and digits in both cases. -/
def ornateSpelling : Spelling where
  before := ['\t']
  mark := .upperHex
  sign := ['+']
  digits := ['0', '0', 'f', 'F']
  after := [' ']

/--
The ornate spelling is read as its value.  A numeral that is too large is refused as such,
although a character that is no digit comes after it.
-/
theorem ornateSpelling_decided :
    parse "\t0X+00fF " = .ok ⟨255⟩ ∧
      parse "18446744073709551616z" = .error ⟨"18446744073709551616z", .tooLarge⟩ ∧
        ∃ parts, HasParts "18446744073709551616z".toList parts ∧ 2 ^ 64 ≤ parts.value := by
  refine ⟨?_, by decide +kernel, ?_⟩
  · have isUpper : Text.IsDigit 16 'F' 15 := ⟨by decide, .inr (by decide)⟩
    have isLower : Text.IsDigit 16 'f' 15 := ⟨by decide, .inl (by decide)⟩
    have isZero : Text.IsDigit 16 '0' 0 := ⟨by decide, .inl (by decide)⟩
    have hasValue : Text.HasValue 16 ['0', '0', 'f', 'F'] 255 :=
      ⟨[0, 0, 15, 15], .cons isZero (.cons isZero (.cons isLower (.cons isUpper .nil))),
        by simp [Nat.ofDigits_cons]⟩
    have spells : ornateSpelling.Spells 255 :=
      ⟨by simp [ornateSpelling, Text.isBlank, Text.blankRanges],
        by simp [ornateSpelling, Text.isBlank, Text.blankRanges], .inr rfl,
        List.cons_ne_nil _ _, hasValue⟩
    exact ((parse_decides_spelling "\t0X+00fF ").1 ⟨255⟩).mpr
      ⟨ornateSpelling, 255, rfl, spells, by decide, rfl⟩
  · obtain ⟨_, parts, isParts, reasons⟩ := parse_decides_spelling "18446744073709551616z"
    obtain ⟨_, tooLarge_iff, _⟩ :=
      reasons ⟨"18446744073709551616z", .tooLarge⟩ (by decide +kernel)
    exact ⟨parts, (isParts parts).mpr rfl, tooLarge_iff.mp rfl⟩

end Address

end Dominance
