import Mathlib.Data.Nat.Digits.Lemmas
import Dominance.Proofs.AddressSpelling

namespace Dominance

/-!
# Addresses read back

An address is written with hexadecimal digits, and reading these digits gives its value
back, with any blanks around them.  The text of an address holds no blank and no mark of a
comment, so it is one word wherever it stands.

Digits are written by dividing and read by multiplying.  What the two have in common is the
value that the digits have by position.
-/

namespace Text

variable {value : Nat}

theorem hexDigit_eq
    (small : value < 16) :
    hexDigit value = Nat.digitChar value := by
  have same : ∀ value < 16, hexDigit value = Nat.digitChar value := by decide
  exact same value small

theorem hexDigits_zero : hexDigits 0 = ['0'] := by
  rw [hexDigits, if_pos (by decide)]
  rfl

/-- Division finds the digits from the last one on. -/
theorem hexDigits_of_pos
    (positive : 0 < value) :
    hexDigits value = (Nat.digits 16 value).reverse.map Nat.digitChar := by
  induction value using hexDigits.induct with
  | case1 value small =>
      rw [hexDigits, if_pos small, hexDigit_eq small,
        Nat.digits_of_lt 16 value (Nat.ne_of_gt positive) small]
      rfl
  | case2 value large inductionHypothesis =>
      have quotientPositive : 0 < value / 16 := by omega
      have remainderSmall : value % 16 < 16 := Nat.mod_lt value (by decide)
      rw [hexDigits, if_neg large, inductionHypothesis quotientPositive,
        hexDigit_eq remainderSmall, Nat.digits_def' (by decide) positive, List.reverse_cons,
        List.map_append]
      rfl

theorem isDigit_digitChar
    (small : value < 16) :
    IsDigit 16 (Nat.digitChar value) value :=
  ⟨small, .inl rfl⟩

/-- The digits that a value is written with have this value. -/
theorem hasValue_hexDigits (value : Nat) : HasValue 16 (hexDigits value) value := by
  rcases Nat.eq_zero_or_pos value with rfl | positive
  · refine ⟨[0], ?_, by simp⟩
    rw [hexDigits_zero]
    exact .cons (isDigit_digitChar (by decide)) .nil
  · refine ⟨(Nat.digits 16 value).reverse, ?_, ?_⟩
    · rw [hexDigits_of_pos positive, List.forall₂_map_left_iff, List.forall₂_same]
      intro digit member
      exact isDigit_digitChar (Nat.digits_lt_base (by decide) (List.mem_reverse.mp member))
    · rw [List.reverse_reverse, Nat.ofDigits_digits]

/-- A value is written with hexadecimal digits only. -/
theorem mem_hexDigits
    {character : Char}
    (member : character ∈ hexDigits value) :
    ∃ digit < 16, character = hexDigit digit := by
  induction value using hexDigits.induct with
  | case1 value small =>
      rw [hexDigits, if_pos small, List.mem_singleton] at member
      exact ⟨value, small, member⟩
  | case2 value large inductionHypothesis =>
      rw [hexDigits, if_neg large, List.mem_append, List.mem_singleton] at member
      rcases member with isEarlier | isLast
      · exact inductionHypothesis isEarlier
      · exact ⟨value % 16, Nat.mod_lt value (by decide), isLast⟩

theorem hexDigits_ne_nil (value : Nat) : hexDigits value ≠ [] := by
  rw [hexDigits]
  split <;> simp

/-- A word that stands for itself wherever it is written. -/
structure IsPlain (word : String) : Prop where
  ne_empty : word ≠ ""
  noBlank : ∀ character ∈ word.toList, isBlank character = false
  noComment : '#' ∉ word.toList

end Text

namespace Address

/-- An address is written with its mark and its digits. -/
theorem toList_text (address : Address) :
    address.text.toList = '0' :: 'x' :: Text.hexDigits address.value.toNat := by
  simp [text]

/-- The text of an address consists of its mark and of hexadecimal digits. -/
theorem forall_mem_text
    {property : Char → Prop}
    (address : Address)
    (mark : property 'x')
    (digits : ∀ digit < 16, property (Text.hexDigit digit)) :
    ∀ character ∈ address.text.toList, property character := by
  rw [toList_text, List.forall_mem_cons, List.forall_mem_cons]
  refine ⟨digits 0 (by decide), mark, ?_⟩
  intro character member
  obtain ⟨digit, small, rfl⟩ := Text.mem_hexDigits member
  exact digits digit small

/-- The text of an address is one word, and it opens no comment. -/
theorem isPlain_text (address : Address) : Text.IsPlain address.text := by
  have plainDigit :
      ∀ digit < 16,
        Text.isBlank (Text.hexDigit digit) = false ∧ Text.hexDigit digit ≠ '#' := by
    decide
  have plain :
      ∀ character ∈ address.text.toList, Text.isBlank character = false ∧ character ≠ '#' :=
    address.forall_mem_text (by decide) plainDigit
  refine ⟨?_, fun character member => (plain character member).1, ?_⟩
  · intro isEmpty
    have characters_eq := address.toList_text
    rw [isEmpty] at characters_eq
    cases characters_eq
  · intro member
    exact (plain '#' member).2 rfl

/-- The text of an address is read back with any blanks around it. -/
theorem parse_text_of_blank
    {before after : List Char}
    (address : Address)
    (beforeBlank : ∀ character ∈ before, Text.isBlank character = true)
    (afterBlank : ∀ character ∈ after, Text.isBlank character = true) :
    parse (String.ofList (before ++ address.text.toList ++ after)) = .ok address := by
  have spells :
      Spelling.Spells ⟨before, .lowerHex, [], Text.hexDigits address.value.toNat, after⟩
        address.value.toNat :=
    ⟨beforeBlank, afterBlank, .inl rfl, Text.hexDigits_ne_nil _, Text.hasValue_hexDigits _⟩
  refine parse_eq_ok_iff_exists_spelling.mpr
    ⟨_, _, ?_, spells, address.value.toNat_lt, rfl⟩
  rw [String.toList_ofList, toList_text]
  rfl

/-- An address is read back from its text. -/
theorem parse_text (address : Address) : parse address.text = .ok address := by
  have readBack :=
    address.parse_text_of_blank (List.forall_mem_nil _) (List.forall_mem_nil _)
  rw [List.nil_append, List.append_nil, String.ofList_toList] at readBack
  exact readBack

end Address

end Dominance
