import Mathlib.Data.List.Basic
import Dominance.Report.Json

namespace Dominance.Report.Json

/-!
# What a JSON text says

The text of a value determines the value, and it shows where the value ends.  Its first
character tells of which kind the value is.  A string ends at the first quotation mark that
is not escaped, and a number at the first character that is no digit, so what follows a
number must not begin with one.  Lists and objects are written in the same way: one piece for
every item or field, and a comma or the closing bracket after each.
-/

/-- Values by their form: a list by its items, an object by the values of its fields. -/
@[elab_as_elim]
theorem induct
    {motive : Json → Prop}
    (null : motive .null)
    (bool : ∀ value, motive (.bool value))
    (number : ∀ value, motive (.number value))
    (string : ∀ value, motive (.string value))
    (list : ∀ items, (∀ item ∈ items, motive item) → motive (.list items))
    (object : ∀ fields, (∀ field ∈ fields, motive field.2) → motive (.object fields))
    (value : Json) :
    motive value :=
  @Json.rec motive
    (fun items => ∀ item ∈ items, motive item)
    (fun fields => ∀ field ∈ fields, motive field.2)
    (fun field => motive field.2)
    null bool number string list object
    (fun _ member => absurd member List.not_mem_nil)
    (fun _ _ first rest => List.forall_mem_cons.mpr ⟨first, rest⟩)
    (fun _ member => absurd member List.not_mem_nil)
    (fun _ _ first rest => List.forall_mem_cons.mpr ⟨first, rest⟩)
    (fun _ _ holds => holds)
    value

/-! ## Strings -/

/-- The character that a mark after a backslash stands for. -/
def meaning (mark : Char) : Char :=
  if mark = 'n' then '\n'
  else if mark = 'r' then '\r'
  else if mark = 't' then '\t'
  else if mark = 'b' then '\x08'
  else if mark = 'f' then '\x0c'
  else mark

/-- Read one character of a string, with what follows it. -/
def readChar? : List Char → Option (Char × List Char)
  | '\\' :: 'u' :: _ :: _ :: high :: low :: rest =>
      (Text.hexValue? high).bind fun upper =>
        (Text.hexValue? low).map fun lower => (Char.ofNat (16 * upper + lower), rest)
  | '\\' :: mark :: rest => some (meaning mark, rest)
  | character :: rest => some (character, rest)
  | [] => none

theorem hexValue?_hexDigit
    {digit : Nat}
    (small : digit < 16) :
    Text.hexValue? (Text.hexDigit digit) = some digit := by
  have readBack : ∀ digit < 16, Text.hexValue? (Text.hexDigit digit) = some digit := by decide
  exact readBack digit small

/-- A character is read back from the way it is written. -/
theorem readChar?_escapeChar (character : Char) (rest : List Char) :
    readChar? (escapeChar character ++ rest) = some (character, rest) := by
  fun_cases escapeChar character with
  | case8 character control =>
      have upper :
          Text.hexValue? (Text.hexDigit (character.toNat / 16)) = some (character.toNat / 16) :=
        hexValue?_hexDigit (by omega)
      have lower :
          Text.hexValue? (Text.hexDigit (character.toNat % 16)) = some (character.toNat % 16) :=
        hexValue?_hexDigit (Nat.mod_lt _ (by decide))
      rw [if_pos control]
      simp only [List.cons_append, List.nil_append, readChar?, upper, lower, Option.bind_some,
        Option.map_some, Nat.div_add_mod, Char.ofNat_toNat]
  | case9 character notControl _ notBackslash =>
      rw [if_neg notControl, List.singleton_append, readChar?]
      · exact fun _ _ _ _ _ isBackslash _ => notBackslash isBackslash
      · exact fun _ _ isBackslash _ => notBackslash isBackslash
  | _ => rfl

/-- No character of a string is written as a quotation mark. -/
theorem escapeChar_append_ne (character : Char) (rest others : List Char) :
    escapeChar character ++ rest ≠ '"' :: others := by
  fun_cases escapeChar character with
  | case8 character control => simp [if_pos control]
  | case9 character notControl notQuote =>
      rw [if_neg notControl]
      exact fun same => notQuote (List.cons.inj same).1
  | _ => simp

theorem toList_quote (text : String) :
    (quote text).toList = '"' :: (text.toList.flatMap escapeChar ++ ['"']) := by
  simp [quote]

/-- Characters are known from the way they are written before a quotation mark. -/
theorem flatMap_escapeChar_append_inj
    {first second rest others : List Char}
    (same :
      first.flatMap escapeChar ++ '"' :: rest = second.flatMap escapeChar ++ '"' :: others) :
    first = second ∧ rest = others := by
  induction first generalizing second with
  | nil =>
      cases second with
      | nil => exact ⟨rfl, (List.cons.inj same).2⟩
      | cons character later =>
          rw [List.flatMap_cons, List.append_assoc] at same
          exact absurd same.symm (escapeChar_append_ne character _ _)
  | cons character later inductionHypothesis =>
      rw [List.flatMap_cons, List.append_assoc] at same
      cases second with
      | nil => exact absurd same (escapeChar_append_ne character _ _)
      | cons other further =>
          rw [List.flatMap_cons, List.append_assoc] at same
          have sameRead := congrArg readChar? same
          rw [readChar?_escapeChar, readChar?_escapeChar, Option.some.injEq, Prod.mk.injEq]
            at sameRead
          obtain ⟨rfl, sameLater⟩ := sameRead
          obtain ⟨rfl, sameRest⟩ := inductionHypothesis sameLater
          exact ⟨rfl, sameRest⟩

/-- A string is known from its text, whatever follows. -/
theorem quote_append_inj
    {first second : String}
    {rest others : List Char}
    (same : (quote first).toList ++ rest = (quote second).toList ++ others) :
    first = second ∧ rest = others := by
  rw [toList_quote, toList_quote, List.cons_append, List.cons_append, List.append_assoc,
    List.append_assoc] at same
  obtain ⟨sameCharacters, sameRest⟩ := flatMap_escapeChar_append_inj (List.cons.inj same).2
  exact ⟨String.toList_inj.mp sameCharacters, sameRest⟩

/-! ## Numbers -/

/-- A text does not go on with a digit. -/
def EndsNumeral (rest : List Char) : Prop :=
  ∀ character ∈ rest.head?, character.isDigit = false

theorem isDigit_of_mem_toString
    {value : Nat}
    {character : Char}
    (member : character ∈ (toString value).toList) :
    character.isDigit = true := by
  rw [Nat.toString_eq_repr, Nat.toList_repr] at member
  exact Nat.isDigit_of_mem_toDigits (by decide) (by decide) member

/-- A number is known from its digits, if no digit follows. -/
theorem digits_append_inj
    {first second : Nat}
    {rest others : List Char}
    (restEnds : EndsNumeral rest)
    (othersEnd : EndsNumeral others)
    (same : (toString first).toList ++ rest = (toString second).toList ++ others) :
    first = second ∧ rest = others := by
  have isCut (value : Nat) {rest : List Char} (ends : EndsNumeral rest) :
      ((toString value).toList ++ rest).takeWhile Char.isDigit = (toString value).toList := by
    have noMore : rest.takeWhile Char.isDigit = [] := by
      cases rest with
      | nil => rfl
      | cons character rest =>
          exact List.takeWhile_cons_of_neg (Bool.eq_false_iff.mp (ends character rfl))
    rw [List.takeWhile_append_of_pos fun _ => isDigit_of_mem_toString, noMore, List.append_nil]
  have sameDigits : (toString first).toList = (toString second).toList := by
    rw [← isCut first restEnds, same, isCut second othersEnd]
  rw [sameDigits] at same
  refine ⟨?_, List.append_cancel_left same⟩
  rw [Nat.toString_eq_repr, Nat.toString_eq_repr, Nat.toList_repr, Nat.toList_repr] at sameDigits
  have sameValue := congrArg (Nat.ofDigitChars 10 · 0) sameDigits
  simpa only [Nat.ofDigitChars_ten_toDigits] using sameValue

/-! ## Lists and objects -/

/-- An item is known from the text in which it is written, if no digit follows. -/
def Known {Item : Type} (piece : Item → List Char) (item : Item) : Prop :=
  ∀ ⦃other rest others⦄,
    EndsNumeral rest →
      EndsNumeral others →
        piece item ++ rest = piece other ++ others → item = other ∧ rest = others

/-- Pieces after the first, each with a comma before it. -/
def continued (level : Nat) (pieces : List (List Char)) : List Char :=
  pieces.flatMap fun piece => ',' :: ((newline level).toList ++ piece)

/-- The pieces of a list or of an object in its brackets. -/
def enclosed (opening closing : Char) (level : Nat) : List (List Char) → List Char
  | [] => [opening, closing]
  | piece :: rest =>
      opening :: ((newline (level + 1)).toList ++ (piece ++
        (continued (level + 1) rest ++ ((newline level).toList ++ [closing]))))

/-- The text of a field. -/
def fieldText (level : Nat) (field : String × Json) : List Char :=
  (quote field.1).toList ++ (':' :: ' ' :: (field.2.write level).toList)

theorem toList_newline (level : Nat) :
    (newline level).toList = '\n' :: List.replicate (2 * level) ' ' := by
  simp [newline]

/-- Further items are pieces with a comma before each. -/
theorem toList_writeItems (level : Nat) (items : List Json) :
    (writeItems level items).toList =
      continued level (items.map fun item => (item.write level).toList) := by
  induction items with
  | nil => rfl
  | cons item rest inductionHypothesis =>
      simp [writeItems, continued, inductionHypothesis]

theorem toList_writeFields (level : Nat) (fields : List (String × Json)) :
    (writeFields level fields).toList = continued level (fields.map (fieldText level)) := by
  induction fields with
  | nil => rfl
  | cons field rest inductionHypothesis =>
      simp [writeFields, continued, fieldText, inductionHypothesis]

/-- A list is its items in brackets. -/
theorem toList_write_list (level : Nat) (items : List Json) :
    (write level (.list items)).toList =
      enclosed '[' ']' level (items.map fun item => (item.write (level + 1)).toList) := by
  cases items with
  | nil => simp [write, enclosed]
  | cons item rest => simp [write, enclosed, toList_writeItems]

/-- An object is its fields in braces. -/
theorem toList_write_object (level : Nat) (fields : List (String × Json)) :
    (write level (.object fields)).toList =
      enclosed '\x7b' '\x7d' level (fields.map (fieldText (level + 1))) := by
  cases fields with
  | nil => simp [write, enclosed]
  | cons field rest => simp [write, enclosed, toList_writeFields, fieldText]

section Pieces

variable {Item : Type} {piece : Item → List Char} {items others : List Item}
  {level outer : Nat} {rest ending : List Char}

/-- After a piece there is a comma or a line feed. -/
theorem endsNumeral_continued (pieces : List (List Char)) :
    EndsNumeral (continued level pieces ++ ((newline outer).toList ++ rest)) := by
  intro character isHead
  cases pieces with
  | nil =>
      rw [toList_newline] at isHead
      cases isHead
      decide
  | cons piece pieces =>
      cases isHead
      decide

/-- Further items are known from their pieces, up to the line of the bracket. -/
theorem continued_append_inj
    (known : ∀ item ∈ items, Known piece item)
    (same :
      continued level (items.map piece) ++ ((newline outer).toList ++ rest) =
        continued level (others.map piece) ++ ((newline outer).toList ++ ending)) :
    items = others ∧ rest = ending := by
  induction items generalizing others with
  | nil =>
      cases others with
      | nil => exact ⟨rfl, List.append_cancel_left same⟩
      | cons other further => simp [continued, toList_newline] at same
  | cons item later inductionHypothesis =>
      cases others with
      | nil => simp [continued, toList_newline] at same
      | cons other further =>
          obtain ⟨itemKnown, laterKnown⟩ := List.forall_mem_cons.mp known
          simp only [continued, List.map_cons, List.flatMap_cons, List.cons_append,
            List.append_assoc, List.cons.injEq, true_and, List.append_cancel_left_eq] at same
          obtain ⟨rfl, sameLater⟩ :=
            itemKnown (endsNumeral_continued _) (endsNumeral_continued _) same
          obtain ⟨rfl, sameRest⟩ := inductionHypothesis laterKnown sameLater
          exact ⟨rfl, sameRest⟩

/-- Items are known from their pieces in brackets, whatever follows. -/
theorem enclosed_append_inj
    {opening closing : Char}
    (known : ∀ item ∈ items, Known piece item)
    (visible : closing ≠ '\n')
    (same :
      enclosed opening closing level (items.map piece) ++ rest =
        enclosed opening closing level (others.map piece) ++ ending) :
    items = others ∧ rest = ending := by
  cases items with
  | nil =>
      cases others with
      | nil => exact ⟨rfl, List.append_cancel_left same⟩
      | cons other further => simp [enclosed, toList_newline, visible] at same
  | cons item later =>
      cases others with
      | nil => simp [enclosed, toList_newline, visible.symm] at same
      | cons other further =>
          obtain ⟨itemKnown, laterKnown⟩ := List.forall_mem_cons.mp known
          simp only [enclosed, List.map_cons, List.cons_append, List.append_assoc,
            List.cons.injEq, true_and, List.append_cancel_left_eq] at same
          obtain ⟨rfl, sameLater⟩ :=
            itemKnown (endsNumeral_continued _) (endsNumeral_continued _) same
          obtain ⟨rfl, sameRest⟩ := continued_append_inj laterKnown sameLater
          exact ⟨rfl, by simpa using sameRest⟩

end Pieces

/-! ## Values -/

/-- The kinds of values, each shown by a character. -/
def kind : Json → Char
  | .null => 'n'
  | .bool _ => 'b'
  | .number _ => '0'
  | .string _ => '"'
  | .list _ => '['
  | .object _ => '\x7b'

/-- The kind of the values whose texts begin with a character. -/
def kindOf (first : Char) : Char :=
  if first.isDigit then '0'
  else if first = 't' ∨ first = 'f' then 'b'
  else first

/-- The first character of a text tells of which kind the value is. -/
theorem head?_write (level : Nat) (value : Json) (rest : List Char) :
    ((write level value).toList ++ rest).head?.map kindOf = some value.kind := by
  cases value with
  | null =>
      rw [write]
      rfl
  | bool value =>
      rw [write]
      cases value <;> rfl
  | number value =>
      rw [write]
      cases digits : (toString value).toList with
      | nil =>
          rw [Nat.toString_eq_repr, Nat.toList_repr] at digits
          exact absurd digits Nat.toDigits_ne_nil
      | cons first later =>
          have isDigit : first.isDigit = true :=
            isDigit_of_mem_toString (digits ▸ List.mem_cons_self)
          simp [kindOf, isDigit, kind]
  | string value =>
      rw [write, toList_quote]
      rfl
  | list items =>
      rw [toList_write_list]
      cases items <;> rfl
  | object fields =>
      rw [toList_write_object]
      cases fields <;> rfl

theorem kind_eq_of_write
    {level : Nat}
    {first second : Json}
    {rest others : List Char}
    (same : (write level first).toList ++ rest = (write level second).toList ++ others) :
    first.kind = second.kind := by
  have firstKind := head?_write level first rest
  rw [same, head?_write] at firstKind
  exact (Option.some.inj firstKind).symm

/-- A field is known from its text if its value is. -/
theorem known_fieldText
    {level : Nat}
    {field : String × Json}
    (known : Known (fun value => (write level value).toList) field.2) :
    Known (fieldText level) field := by
  obtain ⟨name, value⟩ := field
  rintro ⟨otherName, other⟩ rest others restEnds othersEnd same
  simp only [fieldText, List.append_assoc] at same
  obtain ⟨rfl, sameValue⟩ := quote_append_inj same
  simp only [List.cons_append, List.cons.injEq, true_and] at sameValue
  obtain ⟨rfl, sameRest⟩ := known restEnds othersEnd sameValue
  exact ⟨rfl, sameRest⟩

/-- A value is known from its text. -/
theorem known_write (value : Json) (level : Nat) :
    Known (fun value => (write level value).toList) value := by
  intro other rest others restEnds othersEnd same
  have sameKind := kind_eq_of_write same
  induction value using induct generalizing level other rest others with
  | null =>
      cases other with
      | null => exact ⟨rfl, List.append_cancel_left same⟩
      | _ => simp [kind] at sameKind
  | bool value =>
      cases other with
      | bool other =>
          simp only [write] at same
          cases value <;> cases other <;> simp at same ⊢
          · exact same
          · exact same
      | _ => simp [kind] at sameKind
  | number value =>
      cases other with
      | number other =>
          simp only [write] at same
          obtain ⟨rfl, sameRest⟩ := digits_append_inj restEnds othersEnd same
          exact ⟨rfl, sameRest⟩
      | _ => simp [kind] at sameKind
  | string value =>
      cases other with
      | string other =>
          simp only [write] at same
          obtain ⟨rfl, sameRest⟩ := quote_append_inj same
          exact ⟨rfl, sameRest⟩
      | _ => simp [kind] at sameKind
  | list items inductionHypothesis =>
      cases other with
      | list other =>
          simp only [toList_write_list] at same
          have known :
              ∀ item ∈ items, Known (fun item => (write (level + 1) item).toList) item :=
            fun item member _ _ _ restEnds othersEnd same =>
              inductionHypothesis item member _ restEnds othersEnd same (kind_eq_of_write same)
          obtain ⟨rfl, sameRest⟩ := enclosed_append_inj known (by decide) same
          exact ⟨rfl, sameRest⟩
      | _ => simp [kind] at sameKind
  | object fields inductionHypothesis =>
      cases other with
      | object other =>
          simp only [toList_write_object] at same
          have known : ∀ field ∈ fields, Known (fieldText (level + 1)) field :=
            fun field member => known_fieldText fun _ _ _ restEnds othersEnd same =>
              inductionHypothesis field member _ restEnds othersEnd same (kind_eq_of_write same)
          obtain ⟨rfl, sameRest⟩ := enclosed_append_inj known (by decide) same
          exact ⟨rfl, sameRest⟩
      | _ => simp [kind] at sameKind

/-- Different values have different texts. -/
theorem text_inj
    {first second : Json}
    (same : first.text = second.text) :
    first = second := by
  have sameCharacters := congrArg String.toList same
  simp only [text, String.toList_append] at sameCharacters
  have ends : EndsNumeral "\n".toList := by
    intro character isHead
    cases isHead
    decide
  exact (known_write first 0 ends ends sameCharacters).1

end Dominance.Report.Json
