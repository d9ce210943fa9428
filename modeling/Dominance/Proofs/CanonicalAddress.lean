import Dominance.Proofs.AddressText

namespace Dominance

/-!
# The canonical spelling of an address

Of all the spellings of an address one is canonical: it has the mark in lower case, and no
sign, blank, upper-case letter or needless zero.  It is the text that the address is
written as, and so reading and writing are inverse to each other.

What makes it the only one is that digits in lower case, without a needless zero, are
determined by their value.
-/

namespace Text

variable {value : Nat} {digits : List Char}

/-! ## Hexadecimal digits -/

theorem forall₂_isDigit_lt
    {base : Nat}
    {values : List Nat}
    (areDigits : List.Forall₂ (IsDigit base) digits values) :
    ∀ digit ∈ values, digit < base := by
  induction areDigits with
  | nil => simp
  | cons isDigit _ inductionHypothesis =>
      exact List.forall_mem_cons.mpr ⟨isDigit.1, inductionHypothesis⟩

/-- A digit that is not in upper case is the one that is written. -/
theorem IsDigit.eq_digitChar
    {character : Char}
    {digit : Nat}
    (isDigit : IsDigit 16 character digit)
    (notUpper : character.isUpper = false) :
    character = Nat.digitChar digit := by
  obtain ⟨small, rfl | rfl⟩ := isDigit
  · rfl
  · have onlyCase :
        ∀ digit < 16,
          (Nat.digitChar digit).toUpper.isUpper = false →
            (Nat.digitChar digit).toUpper = Nat.digitChar digit := by
      decide
    exact onlyCase digit small notUpper

/-- Digits that are not in upper case are known from their values. -/
theorem eq_map_digitChar
    {values : List Nat}
    (areDigits : List.Forall₂ (IsDigit 16) digits values)
    (notUpper : ∀ character ∈ digits, character.isUpper = false) :
    digits = values.map Nat.digitChar := by
  induction areDigits with
  | nil => rfl
  | cons isDigit _ inductionHypothesis =>
      obtain ⟨firstNotUpper, restNotUpper⟩ := List.forall_mem_cons.mp notUpper
      rw [List.map_cons, ← isDigit.eq_digitChar firstNotUpper, ← inductionHypothesis restNotUpper]

/-- Digits in lower case without a needless zero are those that their value is written with. -/
theorem HasValue.eq_hexDigits
    (hasValue : HasValue 16 digits value)
    (someDigit : digits ≠ [])
    (notUpper : ∀ character ∈ digits, character.isUpper = false)
    (noZero : digits.head? = some '0' → digits = ['0']) :
    digits = hexDigits value := by
  by_cases startsZero : digits.head? = some '0'
  · have zeroValue := hasValue_hexDigits 0
    rw [hexDigits_zero] at zeroValue
    rw [noZero startsZero] at hasValue ⊢
    rw [hasValue.unique (by decide) zeroValue, hexDigits_zero]
  · obtain ⟨values, areDigits, rfl⟩ := hasValue
    have digits_eq := eq_map_digitChar areDigits notUpper
    have someValue : values ≠ [] := by
      rintro rfl
      exact someDigit digits_eq
    -- The first digit is the last one in the order in which division finds them.
    have readBack : Nat.digits 16 (Nat.ofDigits 16 values.reverse) = values.reverse := by
      refine Nat.digits_ofDigits 16 (by decide) values.reverse ?_ ?_
      · intro digit member
        exact forall₂_isDigit_lt areDigits digit (List.mem_reverse.mp member)
      · intro someReversed isZero
        rw [List.getLast_reverse] at isZero
        refine startsZero ?_
        rw [digits_eq, List.head?_map, List.head?_eq_some_head someValue, isZero]
        rfl
    have positive : 0 < Nat.ofDigits 16 values.reverse := by
      refine Nat.pos_of_ne_zero fun isZero => someValue ?_
      rw [isZero, Nat.digits_zero] at readBack
      simpa using readBack.symm
    rw [hexDigits_of_pos positive, readBack, List.reverse_reverse, ← digits_eq]

/-- A value is written with a zero in front only if it is zero. -/
theorem hexDigits_noZero
    (startsZero : hexDigits value = '0' :: digits) :
    digits = [] := by
  rcases Nat.eq_zero_or_pos value with rfl | positive
  · rw [hexDigits_zero] at startsZero
    exact (List.tail_eq_of_cons_eq startsZero).symm
  · have someDigit : Nat.digits 16 value ≠ [] :=
      Nat.digits_ne_nil_iff_ne_zero.mpr (Nat.ne_of_gt positive)
    have last_ne : (Nat.digits 16 value).getLast someDigit ≠ 0 :=
      Nat.getLast_digit_ne_zero 16 (Nat.ne_of_gt positive)
    have last_lt : (Nat.digits 16 value).getLast someDigit < 16 :=
      Nat.digits_lt_base (by decide) (List.getLast_mem someDigit)
    have first_eq : Nat.digitChar ((Nat.digits 16 value).getLast someDigit) = '0' := by
      have heads := congrArg List.head? startsZero
      rw [hexDigits_of_pos positive, List.head?_map, List.head?_reverse,
        List.getLast?_eq_some_getLast someDigit] at heads
      exact Option.some_inj.mp heads
    have onlyZero : ∀ digit < 16, Nat.digitChar digit = '0' → digit = 0 := by decide
    exact absurd (onlyZero _ last_lt first_eq) last_ne

end Text

namespace Address

/-! ## The canonical spelling -/

/-- A text with the mark in lower case, and with nothing that could be left out. -/
structure IsCanonical (text : String) : Prop where
  isMarked : ∃ digits, text.toList = '0' :: 'x' :: digits
  noSign : '+' ∉ text.toList
  starts : ∀ character ∈ text.toList.head?, Text.isBlank character = false
  ends : ∀ character ∈ text.toList.getLast?, Text.isBlank character = false
  notUpper : ∀ character ∈ text.toList, character.isUpper = false
  noZero : ∀ digits, text.toList = '0' :: 'x' :: '0' :: digits → digits = []

variable {address : Address} {text : String}

/-- Addresses are written in the canonical way. -/
theorem isCanonical_text (address : Address) : IsCanonical address.text := by
  have plainDigit :
      ∀ digit < 16,
        Text.hexDigit digit ≠ '+' ∧ (Text.hexDigit digit).isUpper = false := by
    decide
  have plain :
      ∀ character ∈ address.text.toList, character ≠ '+' ∧ character.isUpper = false :=
    address.forall_mem_text (by decide) plainDigit
  have noBlank := address.isPlain_text.noBlank
  exact
    { isMarked := ⟨_, address.toList_text⟩
      noSign := fun member => (plain '+' member).1 rfl
      starts := fun character isHead => noBlank character (List.mem_of_mem_head? isHead)
      ends := fun character isLast => noBlank character (List.mem_of_mem_getLast? isLast)
      notUpper := fun character member => (plain character member).2
      noZero := by
        intro digits text_eq
        rw [toList_text] at text_eq
        exact Text.hexDigits_noZero (List.cons.inj (List.cons.inj text_eq).2).2 }

/-- Every canonical text that is read as an address is the one that is written. -/
theorem IsCanonical.eq_text
    (isCanonical : IsCanonical text)
    (accepted : parse text = .ok address) :
    text = address.text := by
  obtain ⟨body, text_eq⟩ := isCanonical.isMarked
  obtain ⟨spelling, value, spelled, spells, _, rfl⟩ :=
    parse_eq_ok_iff_exists_spelling.mp accepted
  -- Nothing is trimmed from a canonical text, so it is the numeral with its mark and sign.
  have trims : Text.Trims text.toList text.toList :=
    ⟨⟨[], [], by simp, by simp, by simp⟩, isCanonical.starts, isCanonical.ends⟩
  have core_eq : spelling.core = Mark.lowerHex.text ++ body :=
    calc
      spelling.core = Text.trim spelling.text := spells.hasParts.trims.trim_eq.symm
      _ = Text.trim text.toList := by rw [spelled]
      _ = text.toList := trims.trim_eq
      _ = Mark.lowerHex.text ++ body := text_eq
  obtain ⟨isLower, signed_eq⟩ :=
    mark_unique core_eq spells.unmarked fun isDecimal => by cases isDecimal
  have body_eq : body = spelling.digits := by
    rcases spells.sign_eq with noSign | isSign
    · rw [← signed_eq, noSign, List.nil_append]
    · refine absurd ?_ isCanonical.noSign
      rw [text_eq, ← signed_eq, isSign]
      simp
  subst body_eq
  have hasValue := spells.hasValue
  rw [isLower] at hasValue
  have notUpper : ∀ character ∈ spelling.digits, character.isUpper = false := by
    intro character member
    refine isCanonical.notUpper character ?_
    rw [text_eq]
    exact List.mem_cons_of_mem _ (List.mem_cons_of_mem _ member)
  have noZero : spelling.digits.head? = some '0' → spelling.digits = ['0'] := by
    intro startsZero
    obtain ⟨rest, digits_eq⟩ := List.head?_eq_some_iff.mp startsZero
    rw [digits_eq] at text_eq ⊢
    rw [isCanonical.noZero rest text_eq]
  rw [← String.toList_inj, text_eq, toList_text,
    ← hasValue.eq_hexDigits spells.someDigit notUpper noZero]

/--
The text of an address is read back as this address, with any blanks around it.  Among all
the texts that are read as an address, the one that it is written as is canonical, and no
other one is.
-/
theorem text_canonical :
    (∀ (address : Address) (before after : List Char),
      (∀ character ∈ before, Text.isBlank character = true) →
        (∀ character ∈ after, Text.isBlank character = true) →
          parse (String.ofList (before ++ address.text.toList ++ after)) = .ok address) ∧
    ∀ (text : String) (address : Address),
      parse text = .ok address →
        ∀ other,
          parse other = parse text ∧ IsCanonical other ↔ other = address.text := by
  refine ⟨fun address _ _ => address.parse_text_of_blank, ?_⟩
  intro text address accepted other
  rw [accepted]
  constructor
  · rintro ⟨alike, isCanonical⟩
    exact isCanonical.eq_text alike
  · rintro rfl
    exact ⟨address.parse_text, address.isCanonical_text⟩

/-- Of the spellings of 255, the ornate one among them, the canonical one is written. -/
theorem ornateSpelling_canonical :
    parse " 0xff\r\n" = .ok ⟨255⟩ ∧
      ∀ other, parse other = parse "\t0X+00fF " ∧ IsCanonical other ↔ other = "0xff" := by
  have written : (⟨255⟩ : Address).text = "0xff" := by decide +kernel
  constructor
  · have readBack := text_canonical.1 ⟨255⟩ [' '] ['\r', '\n']
      (by simp [Text.isBlank, Text.blankRanges]) (by simp [Text.isBlank, Text.blankRanges])
    rw [written] at readBack
    exact readBack
  · have unique := text_canonical.2 "\t0X+00fF " ⟨255⟩ (by decide +kernel)
    rw [written] at unique
    exact unique

end Address

end Dominance
