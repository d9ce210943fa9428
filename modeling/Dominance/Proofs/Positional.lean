import Mathlib.Data.List.Forall2
import Mathlib.Data.Nat.Digits.Defs
import Dominance.Text.Numeral

namespace Dominance.Text

/-!
# Positional values of numerals

A numeral is read from the left, and its value grows with every digit.  The value that a
row of digits has by position does not depend on such an order.  Reading comes to this
value if it is below the limit; otherwise it stops at the digit where the limit is reached,
and what follows is not looked at any more.
-/

variable {base limit value : Nat} {digits rest : List Char} {values : List Nat}

/-- A character is the digit of a value in a base, in lower or upper case. -/
def IsDigit (base : Nat) (character : Char) (digit : Nat) : Prop :=
  digit < base ∧
    (character = Nat.digitChar digit ∨ character = (Nat.digitChar digit).toUpper)

/-- Digits have a value by position, the last one that of its own. -/
def HasValue (base : Nat) (digits : List Char) (value : Nat) : Prop :=
  ∃ values,
    List.Forall₂ (IsDigit base) digits values ∧ value = Nat.ofDigits base values.reverse

/-- Digits at the start of a text that go on for as long as they can, with their value. -/
structure IsRun
    (base : Nat)
    (text digits rest : List Char)
    (value : Nat) : Prop where
  text_eq : text = digits ++ rest
  hasValue : HasValue base digits value
  stops : ∀ character ∈ rest.head?, ∀ digit, ¬ IsDigit base character digit

/-- A text is a plus sign and what follows it, or it has no such sign. -/
def IsSigned (text unsigned : List Char) : Prop :=
  text = '+' :: unsigned ∨ text = unsigned ∧ unsigned.head? ≠ some '+'

/-! ## Digits -/

/-- The codes of the digits. -/
theorem toNat_digitChar
    {digit : Nat}
    (small : digit < 16) :
    (Nat.digitChar digit).toNat = (if digit < 10 then 48 else 87) + digit ∧
      (Nat.digitChar digit).toUpper.toNat = (if digit < 10 then 48 else 55) + digit := by
  have codes :
      ∀ digit < 16,
        (Nat.digitChar digit).toNat = (if digit < 10 then 48 else 87) + digit ∧
          (Nat.digitChar digit).toUpper.toNat = (if digit < 10 then 48 else 55) + digit := by
    decide
  exact codes digit small

/-- The characters that are read as digits are the ASCII digits. -/
theorem hexValue?_eq_some_iff
    {character : Char}
    {digit : Nat} :
    hexValue? character = some digit ↔ IsDigit 16 character digit := by
  have codes_le (lower upper : Char) : lower ≤ upper ↔ lower.toNat ≤ upper.toNat := Iff.rfl
  simp only [hexValue?, codes_le, Char.reduceToNat]
  constructor
  · intro read
    split at read
    · obtain rfl := Option.some.inj read
      have small : character.toNat - 48 < 10 := by omega
      refine ⟨by omega, .inl (Char.toNat_inj.mp ?_)⟩
      rw [(toNat_digitChar (by omega)).1, if_pos small]
      omega
    · split at read
      · obtain rfl := Option.some.inj read
        refine ⟨by omega, .inl (Char.toNat_inj.mp ?_)⟩
        rw [(toNat_digitChar (by omega)).1, if_neg (by omega)]
        omega
      · split at read
        · obtain rfl := Option.some.inj read
          refine ⟨by omega, .inr (Char.toNat_inj.mp ?_)⟩
          rw [(toNat_digitChar (by omega)).2, if_neg (by omega)]
          omega
        · cases read
  · rintro ⟨small, rfl | rfl⟩
    · rw [(toNat_digitChar small).1]
      split <;> grind
    · rw [(toNat_digitChar small).2]
      split <;> grind

/-- A character is read as the digit that it is in the base. -/
theorem digitValue?_eq_some_iff
    {character : Char}
    {digit : Nat}
    (small : base ≤ 16) :
    digitValue? base character = some digit ↔ IsDigit base character digit := by
  rw [digitValue?, Option.filter_eq_some_iff, hexValue?_eq_some_iff, decide_eq_true_eq]
  constructor
  · rintro ⟨⟨_, isDigit⟩, below⟩
    exact ⟨below, isDigit⟩
  · rintro ⟨below, isDigit⟩
    exact ⟨⟨Nat.lt_of_lt_of_le below small, isDigit⟩, below⟩

/-- A character is refused if it is no digit of the base. -/
theorem digitValue?_eq_none_iff
    {character : Char}
    (small : base ≤ 16) :
    digitValue? base character = none ↔ ∀ digit, ¬ IsDigit base character digit := by
  rw [Option.eq_none_iff_forall_ne_some]
  simp only [ne_eq, digitValue?_eq_some_iff small]

/-- A character is one digit only. -/
theorem IsDigit.unique
    {character : Char}
    {first second : Nat}
    (small : base ≤ 16)
    (isFirst : IsDigit base character first)
    (isSecond : IsDigit base character second) :
    first = second := by
  rw [← digitValue?_eq_some_iff small] at isFirst isSecond
  rw [isFirst, Option.some.injEq] at isSecond
  exact isSecond

/-! ## Runs of digits -/

/-- Digits have one value only. -/
theorem HasValue.unique
    {first second : Nat}
    (small : base ≤ 16)
    (hasFirst : HasValue base digits first)
    (hasSecond : HasValue base digits second) :
    first = second := by
  obtain ⟨values, areDigits, rfl⟩ := hasFirst
  obtain ⟨others, areToo, rfl⟩ := hasSecond
  have rightUnique : Relator.RightUnique (IsDigit base) :=
    fun _ _ _ isFirst isSecond => isFirst.unique small isSecond
  rw [List.right_unique_forall₂' rightUnique areDigits areToo]

/-- Every text begins with a run of digits, which may be empty. -/
theorem exists_isRun
    (small : base ≤ 16)
    (text : List Char) :
    ∃ digits rest value, IsRun base text digits rest value := by
  induction text with
  | nil => exact ⟨[], [], 0, rfl, ⟨[], .nil, rfl⟩, by simp⟩
  | cons character text inductionHypothesis =>
      cases isDigit : digitValue? base character with
      | none =>
          refine ⟨[], character :: text, 0, rfl, ⟨[], .nil, rfl⟩, ?_⟩
          simpa using (digitValue?_eq_none_iff small).mp isDigit
      | some digit =>
          obtain ⟨digits, rest, _, rfl, ⟨values, areDigits, _⟩, stops⟩ := inductionHypothesis
          refine ⟨character :: digits, rest, _, rfl, ⟨digit :: values, ?_, rfl⟩, stops⟩
          exact .cons ((digitValue?_eq_some_iff small).mp isDigit) areDigits

/-- What has a value consists of digits. -/
theorem HasValue.mem_isDigit
    (hasValue : HasValue base digits value)
    {character : Char}
    (member : character ∈ digits) :
    ∃ digit, IsDigit base character digit := by
  obtain ⟨values, areDigits, rfl⟩ := hasValue
  induction areDigits with
  | nil => cases member
  | cons isDigit _ inductionHypothesis =>
      rcases List.mem_cons.mp member with rfl | isLater
      · exact ⟨_, isDigit⟩
      · exact inductionHypothesis isLater

/-- The longest run of digits at the start of a text is found in one way. -/
theorem IsRun.unique
    {text others left : List Char}
    {other : Nat}
    (small : base ≤ 16)
    (isRun : IsRun base text digits rest value)
    (again : IsRun base text others left other) :
    digits = others ∧ rest = left ∧ value = other := by
  have isCut {digits rest : List Char} {value : Nat} (isRun : IsRun base text digits rest value) :
      text.takeWhile (fun character => (digitValue? base character).isSome) = digits := by
    have areDigits :
        ∀ character ∈ digits, (digitValue? base character).isSome = true := by
      intro character member
      obtain ⟨digit, isDigit⟩ := isRun.hasValue.mem_isDigit member
      rw [(digitValue?_eq_some_iff small).mpr isDigit, Option.isSome_some]
    have noMore : rest.takeWhile (fun character => (digitValue? base character).isSome) = [] := by
      cases rest with
      | nil => rfl
      | cons character rest =>
          have noDigit := (digitValue?_eq_none_iff small).mpr (isRun.stops character rfl)
          rw [List.takeWhile_cons_of_neg (by simp [noDigit])]
    rw [isRun.text_eq, List.takeWhile_append_of_pos areDigits, noMore, List.append_nil]
  have sameDigits : digits = others := (isCut isRun).symm.trans (isCut again)
  subst sameDigits
  have sameRest : rest = left :=
    List.append_cancel_left (isRun.text_eq.symm.trans again.text_eq)
  exact ⟨rfl, sameRest, isRun.hasValue.unique small again.hasValue⟩

/-- What follows the sign is found in one way. -/
theorem IsSigned.unique
    {text first second : List Char}
    (isFirst : IsSigned text first)
    (isSecond : IsSigned text second) :
    first = second := by
  rcases isFirst with rfl | ⟨rfl, noSign⟩
  · rcases isSecond with same | ⟨rfl, noSign⟩
    · exact (List.cons.inj same).2
    · exact absurd rfl noSign
  · rcases isSecond with rfl | ⟨rfl, _⟩
    · exact absurd rfl noSign
    · rfl

/-! ## Reading from the left -/

/-- The value after digits with given values have been read. -/
def grown (base value : Nat) (values : List Nat) : Nat :=
  value * base ^ values.length + Nat.ofDigits base values.reverse

theorem grown_nil : grown base value [] = value := by
  simp [grown]

theorem grown_cons (digit : Nat) :
    grown base value (digit :: values) = grown base (value * base + digit) values := by
  rw [grown, grown, Nat.ofDigits_reverse_cons, List.length_cons, Nat.pow_succ']
  ring

/-- From zero the value grows to that by position. -/
theorem grown_zero : grown base 0 values = Nat.ofDigits base values.reverse := by
  rw [grown, Nat.zero_mul, Nat.zero_add]

theorem le_grown (positive : 0 < base) : value ≤ grown base value values :=
  calc
    value ≤ value * base ^ values.length :=
      Nat.le_mul_of_pos_right value (Nat.pow_pos positive)
    _ ≤ grown base value values := Nat.le_add_right _ _

/-- A digit is read if the value stays below the limit. -/
theorem accumulate_cons
    {character : Char}
    {digit : Nat}
    (small : base ≤ 16)
    (isDigit : IsDigit base character digit)
    (rest : List Char) :
    accumulate base limit value (character :: rest) =
      if value * base + digit < limit then
        accumulate base limit (value * base + digit) rest
      else
        .error .tooLarge := by
  rw [accumulate, (digitValue?_eq_some_iff small).mpr isDigit]

/-- Digits are read to their end if the value stays below the limit. -/
theorem accumulate_of_grown_lt
    (small : base ≤ 16)
    (positive : 0 < base)
    (areDigits : List.Forall₂ (IsDigit base) digits values)
    (inside : grown base value values < limit)
    (rest : List Char) :
    accumulate base limit value (digits ++ rest) =
      accumulate base limit (grown base value values) rest := by
  induction areDigits generalizing value with
  | nil => rw [grown_nil, List.nil_append]
  | @cons character digit digits values isDigit _ inductionHypothesis =>
      rw [grown_cons] at inside ⊢
      have stepInside : value * base + digit < limit :=
        Nat.lt_of_le_of_lt (le_grown positive) inside
      rw [List.cons_append, accumulate_cons small isDigit, if_pos stepInside,
        inductionHypothesis inside]

/-- The digit that makes the value reach the limit stops the reading, whatever follows it. -/
theorem accumulate_of_le_grown
    (small : base ≤ 16)
    (areDigits : List.Forall₂ (IsDigit base) digits values)
    (below : value < limit)
    (outside : limit ≤ grown base value values)
    (rest : List Char) :
    accumulate base limit value (digits ++ rest) = .error .tooLarge := by
  induction areDigits generalizing value with
  | nil =>
      rw [grown_nil] at outside
      exact absurd below (Nat.not_lt.mpr outside)
  | @cons character digit digits values isDigit _ inductionHypothesis =>
      rw [grown_cons] at outside
      rw [List.cons_append, accumulate_cons small isDigit]
      split
      · rename_i stepInside
        exact inductionHypothesis stepInside outside
      · rfl

/-- Reading ends well only at the end of the text. -/
theorem accumulate_of_stops
    (small : base ≤ 16)
    (stops : ∀ character ∈ rest.head?, ∀ digit, ¬ IsDigit base character digit) :
    accumulate base limit value rest = if rest = [] then .ok value else .error .invalidDigit := by
  cases rest with
  | nil => rfl
  | cons character rest =>
      rw [accumulate, (digitValue?_eq_none_iff small).mpr (stops character rfl)]
      rfl

/-- What comes of a text that begins with a run of digits. -/
theorem accumulate_of_isRun
    {text : List Char}
    (small : base ≤ 16)
    (positive : 0 < base)
    (someLimit : 0 < limit)
    (isRun : IsRun base text digits rest value) :
    accumulate base limit 0 text =
      if limit ≤ value then
        .error .tooLarge
      else if rest = [] then
        .ok value
      else
        .error .invalidDigit := by
  obtain ⟨rfl, ⟨values, areDigits, rfl⟩, stops⟩ := isRun
  rw [← grown_zero]
  split
  · rename_i outside
    exact accumulate_of_le_grown small areDigits someLimit outside rest
  · rename_i inside
    rw [accumulate_of_grown_lt small positive areDigits (Nat.lt_of_not_le inside),
      accumulate_of_stops small stops]

/-- A numeral with something to read is read digit by digit after its sign. -/
theorem readNumeral_of_isSigned
    {text unsigned : List Char}
    (isSigned : IsSigned text unsigned)
    (someCharacter : unsigned ≠ []) :
    readNumeral base limit text = accumulate base limit 0 unsigned := by
  obtain ⟨first, others, rfl⟩ := List.exists_cons_of_ne_nil someCharacter
  rcases isSigned with rfl | ⟨rfl, noSign⟩
  · rfl
  · have notSign : first ≠ '+' := by simpa using noSign
    simp [readNumeral, notSign]

/-- What comes of a numeral with or without a sign. -/
theorem readNumeral_of_isRun
    {text unsigned : List Char}
    (small : base ≤ 16)
    (positive : 0 < base)
    (someLimit : 0 < limit)
    (isSigned : IsSigned text unsigned)
    (isRun : IsRun base unsigned digits rest value) :
    readNumeral base limit text =
      if text = [] then
        .error .empty
      else if limit ≤ value then
        .error .tooLarge
      else if digits = [] ∨ rest ≠ [] then
        .error .invalidDigit
      else
        .ok value := by
  by_cases someCharacter : unsigned = []
  · -- Nothing or a sign alone: the run of digits is empty and has the value zero.
    have noRun : IsRun base unsigned [] [] 0 :=
      ⟨someCharacter, ⟨[], .nil, rfl⟩, by simp⟩
    obtain ⟨rfl, rfl, rfl⟩ := isRun.unique small noRun
    rcases isSigned with rfl | ⟨rfl, _⟩
    · rw [someCharacter, if_neg (List.cons_ne_nil _ _), if_neg (Nat.not_le.mpr someLimit),
        if_pos (.inl rfl)]
      rfl
    · rw [someCharacter, if_pos rfl]
      rfl
  · have someText : text ≠ [] := by
      rcases isSigned with rfl | ⟨rfl, _⟩
      · exact List.cons_ne_nil _ _
      · exact someCharacter
    have isBad_iff : digits = [] ∨ rest ≠ [] ↔ rest ≠ [] := by
      refine or_iff_right_of_imp ?_
      rintro rfl rfl
      exact someCharacter isRun.text_eq
    rw [readNumeral_of_isSigned isSigned someCharacter,
      accumulate_of_isRun small positive someLimit isRun, if_neg someText]
    simp only [isBad_iff, ne_eq, ite_not]

end Dominance.Text
