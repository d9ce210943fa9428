import Dominance.Proofs.AddressText
import Dominance.Proofs.JsonText
import Dominance.Report.Postorder

namespace Dominance.Report

/-!
# What the report on a numbering shows

In JSON the report is one object, and no other value has the same text.  As text it is a
title, the counts, an empty line and a table.  The line of a row begins with the index and the
address of the block and ends with the remark.  A row without a remark ends with a successor
or with the mark for none, and neither can be taken for the remark about blocks that are not
reached.
-/

/-- The value of a field of an object. -/
def Json.field? (json : Json) (name : String) : Option Json :=
  match json with
  | .object fields => fields.lookup name
  | _ => none

/-! ## The object -/

/-- An object with the number of blocks that are not reached and with one object per row. -/
structure PostorderReport.WrittenIn (report : PostorderReport) (output : String) : Prop where
  /-- The text stands for this object only. -/
  text_eq_iff : ∀ value : Json, value.text = output ↔ value = report.json
  unreachable : report.json.field? "unreachable" = some (.number report.unreachable)
  blocks : report.json.field? "blocks" = some (.list (report.rows.map PostorderRow.json))
  fields :
    ∀ row ∈ report.rows,
      row.json.field? "address" = some (.string row.address.text) ∧
        row.json.field? "postorder" = some (.number row.postorder) ∧
          row.json.field? "reachable" = some (.bool row.reachable)

/-- The report in JSON is the text of its object. -/
theorem PostorderReport.writtenIn_jsonText (report : PostorderReport) :
    report.WrittenIn report.jsonText where
  text_eq_iff := fun _ => ⟨Json.text_inj, fun isObject => isObject ▸ rfl⟩
  unreachable := rfl
  blocks := rfl
  fields := fun _ _ => ⟨rfl, rfl, rfl⟩

/-! ## The last word of a row -/

namespace PostorderRow

/-- What the line of a row ends with: the remark, or else the successors. -/
def ending (row : PostorderRow) : String :=
  if row.note = "" then
    listCell "(exit)" (row.successors.map Address.text)
  else
    row.note

end PostorderRow

/-- The items of a cell end with the last one. -/
theorem suffix_intercalate
    {items : List String}
    {item : String}
    (isLast : items.getLast? = some item) :
    item.toList <:+ (", ".intercalate items).toList := by
  induction items with
  | nil => cases isLast
  | cons first rest inductionHypothesis =>
      cases rest with
      | nil =>
          cases isLast
          simp
      | cons second later =>
          rw [List.getLast?_cons_cons] at isLast
          rw [String.intercalate_cons_cons, String.toList_append]
          exact (inductionHypothesis isLast).trans (List.suffix_append _ _)

/-- A cell of addresses ends with one of them or with the mark for none. -/
theorem exists_suffix_listCell (mark : String) (addresses : List Address) :
    mark = listCell mark (addresses.map Address.text) ∨
      ∃ address : Address,
        address.text.toList <:+ (listCell mark (addresses.map Address.text)).toList := by
  cases isLast : addresses.getLast? with
  | none =>
      rw [List.getLast?_eq_none_iff.mp isLast]
      exact .inl rfl
  | some address =>
      refine .inr ⟨address, ?_⟩
      have notEmpty : (addresses.map Address.text).isEmpty = false := by
        cases addresses with
        | nil => cases isLast
        | cons first rest => rfl
      rw [listCell, if_neg (by simp [notEmpty])]
      exact suffix_intercalate (by rw [List.getLast?_map, isLast]; rfl)

/-- A word that does not end a text which ends with the remark. -/
structure IsOtherWord (word : String) : Prop where
  isPlain : Text.IsPlain word
  lacks : 'u' ∉ word.toList
  foreign : ∃ character ∈ word.toList, character ∉ "unreachable".toList

theorem isOtherWord_exit : IsOtherWord "(exit)" where
  isPlain := ⟨by decide, by simp [Text.isBlank, Text.blankRanges], by decide⟩
  lacks := by decide
  foreign := ⟨'(', by decide, by decide⟩

theorem isOtherWord_entry : IsOtherWord "entry" where
  isPlain := ⟨by decide, by simp [Text.isBlank, Text.blankRanges], by decide⟩
  lacks := by decide
  foreign := ⟨'y', by decide, by decide⟩

/-- No address can be taken for the end of the remark. -/
theorem isOtherWord_text (address : Address) : IsOtherWord address.text where
  isPlain := address.isPlain_text
  lacks := by
    intro member
    have notU : ∀ character ∈ address.text.toList, character ≠ 'u' :=
      address.forall_mem_text (by decide) (by decide)
    exact notU 'u' member rfl
  foreign := ⟨'0', by rw [Address.toList_text]; exact List.mem_cons_self, by decide⟩

namespace IsOtherWord

/-- A text ends in one way only. -/
theorem not_suffix
    {word : String}
    {text : List Char}
    (isOther : IsOtherWord word)
    (ends : word.toList <:+ text) :
    ¬ "unreachable".toList <:+ text := by
  intro endsToo
  rcases List.suffix_or_suffix_of_suffix ends endsToo with isWithin | isAround
  · obtain ⟨character, member, isForeign⟩ := isOther.foreign
    exact isForeign (isWithin.subset member)
  · exact isOther.lacks (isAround.subset (by decide))

end IsOtherWord

namespace PostorderRow

/-- The last word of a row tells whether its block is reached. -/
theorem exists_last_word (row : PostorderRow) :
    ∃ word : String,
      Text.IsPlain word ∧
        word.toList <:+ row.ending.toList ∧
          (row.reachable = true → IsOtherWord word) ∧
            (row.reachable = false → word = "unreachable") := by
  cases isReached : row.reachable with
  | false =>
      have ending_eq : row.ending = "unreachable" := by simp [ending, note, isReached]
      have isPlain : Text.IsPlain "unreachable" :=
        ⟨by decide, by simp [Text.isBlank, Text.blankRanges], by decide⟩
      exact ⟨"unreachable", isPlain, by rw [ending_eq],
        fun reached => absurd reached Bool.false_ne_true, fun _ => rfl⟩
  | true =>
      have isOther : ∃ word, IsOtherWord word ∧ word.toList <:+ row.ending.toList := by
        cases isEntry : row.isEntry with
        | true =>
            have ending_eq : row.ending = "entry" := by simp [ending, note, isReached, isEntry]
            exact ⟨"entry", isOtherWord_entry, by rw [ending_eq]⟩
        | false =>
            have ending_eq :
                row.ending = listCell "(exit)" (row.successors.map Address.text) := by
              simp [ending, note, isReached, isEntry]
            rw [ending_eq]
            rcases exists_suffix_listCell "(exit)" row.successors with isMark | ⟨address, ends⟩
            · exact ⟨"(exit)", isOtherWord_exit, by rw [← isMark]⟩
            · exact ⟨address.text, isOtherWord_text address, ends⟩
      obtain ⟨word, isOther, ends⟩ := isOther
      exact ⟨word, isOther.isPlain, ends, fun _ => isOther,
        fun unreached => absurd unreached.symm Bool.false_ne_true⟩

/-- Cutting off blanks leaves the ending of a row whole. -/
theorem trimEnd_ending
    (row : PostorderRow)
    (before : List Char)
    {blanks : List Char}
    (areBlank : ∀ character ∈ blanks, character = ' ') :
    Text.trimEnd (before ++ (row.ending.toList ++ blanks)) = before ++ row.ending.toList := by
  obtain ⟨word, isPlain, ⟨lead, ending_eq⟩, _⟩ := row.exists_last_word
  have notEmpty : word.toList ≠ [] :=
    fun isEmpty => isPlain.ne_empty (String.toList_eq_nil_iff.mp isEmpty)
  rw [← List.append_assoc]
  refine Text.trimEnd_append (fun character member => ?_) (fun character isLast => ?_)
  · rw [areBlank character member]
    decide
  · rw [← ending_eq, ← List.append_assoc, List.getLast?_append_of_ne_nil _ notEmpty] at isLast
    exact isPlain.noBlank character (List.mem_of_getLast? isLast)

/-! ## The line of a row -/

/-- What the line of a row begins with: blanks, the index, two blanks and the address. -/
def opening (row : PostorderRow) (blanks : Nat) : List Char :=
  List.replicate blanks ' ' ++
    ((toString row.postorder).toList ++ ([' ', ' '] ++ row.address.text.toList))

/-- The line of a row: the index, the address and, at the end, whether the block is reached. -/
structure ShownBy (row : PostorderRow) (line : String) : Prop where
  starts : ∃ blanks rest, line.toList = row.opening blanks ++ ' ' :: rest
  ends : "unreachable".toList <:+ line.toList ↔ row.reachable = false

end PostorderRow

namespace PostorderReport

variable (report : PostorderReport) (row : PostorderRow)

/-- The cells of a row side by side, before blanks are cut off at the end. -/
theorem exists_toList_line :
    ∃ before afterAddress afterSuccessors afterNote,
      (report.table.line row.cells).toList =
        Text.trimEnd
          (row.opening before ++ (List.replicate afterAddress ' ' ++ ([' ', ' '] ++
            ((listCell "(exit)" (row.successors.map Address.text)).toList ++
              (List.replicate afterSuccessors ' ' ++ ([' ', ' '] ++
                (row.note.toList ++ List.replicate afterNote ' '))))))) := by
  obtain ⟨first, second, third, fourth, widths_eq⟩ :
      ∃ first second third fourth, report.table.widths = [first, second, third, fourth] :=
    ⟨_, _, _, _, rfl⟩
  refine ⟨first - (toString row.postorder).length, second - row.address.text.length,
    third - (listCell "(exit)" (row.successors.map Address.text)).length,
    fourth - row.note.length, ?_⟩
  rw [Table.line, widths_eq]
  simp [table, PostorderRow.cells, PostorderRow.opening, Table.padCell, List.intercalate]

/-- The line begins with the index and the address and ends with the ending of the row. -/
theorem exists_line_eq :
    ∃ before between,
      (report.table.line row.cells).toList =
        row.opening before ++ ' ' :: (between ++ row.ending.toList) := by
  obtain ⟨before, afterAddress, afterSuccessors, afterNote, line_eq⟩ :=
    report.exists_toList_line row
  have gap_eq :
      List.replicate afterAddress ' ' ++ [' ', ' '] =
        ' ' :: List.replicate (afterAddress + 1) ' ' := by
    exact List.replicate_append_replicate (m := 2)
  by_cases noNote : row.note = ""
  · have ending_eq : row.ending = listCell "(exit)" (row.successors.map Address.text) :=
      if_pos noNote
    have areBlank :
        ∀ character ∈
          List.replicate afterSuccessors ' ' ++
            ([' ', ' '] ++ (row.note.toList ++ List.replicate afterNote ' ')),
          character = ' ' := by
      simp +contextual [noNote, or_imp]
    have trimmed :=
      row.trimEnd_ending
        (row.opening before ++ (List.replicate afterAddress ' ' ++ [' ', ' '])) areBlank
    refine ⟨before, List.replicate (afterAddress + 1) ' ', ?_⟩
    rw [line_eq, ← ending_eq, ← List.cons_append, ← gap_eq]
    simpa only [List.append_assoc] using trimmed
  · have ending_eq : row.ending = row.note := if_neg noNote
    have trimmed :=
      row.trimEnd_ending
        (row.opening before ++ (List.replicate afterAddress ' ' ++ ([' ', ' '] ++
          ((listCell "(exit)" (row.successors.map Address.text)).toList ++
            (List.replicate afterSuccessors ' ' ++ [' ', ' '])))))
        (fun _ => List.eq_of_mem_replicate (n := afterNote))
    refine ⟨before,
      List.replicate (afterAddress + 1) ' ' ++
        ((listCell "(exit)" (row.successors.map Address.text)).toList ++
          (List.replicate afterSuccessors ' ' ++ [' ', ' '])), ?_⟩
    rw [line_eq, ← ending_eq, List.append_assoc, ← List.cons_append, ← gap_eq]
    simpa only [List.append_assoc] using trimmed

/-- A row is shown by its line in the table. -/
theorem shownBy_line : row.ShownBy (report.table.line row.cells) := by
  obtain ⟨before, between, line_eq⟩ := report.exists_line_eq row
  obtain ⟨word, _, endsRow, isOther, isRemark⟩ := row.exists_last_word
  have endsLine : word.toList <:+ (report.table.line row.cells).toList := by
    rw [line_eq, ← List.cons_append, ← List.append_assoc]
    exact endsRow.trans (List.suffix_append _ _)
  refine ⟨⟨before, _, line_eq⟩, ?_, ?_⟩
  · intro endsUnreached
    by_contra reached
    exact (isOther (Bool.eq_true_of_not_eq_false reached)).not_suffix endsLine endsUnreached
  · intro unreached
    exact isRemark unreached ▸ endsLine

/-! ## The report as text -/

/-- Lines with the title, the counts and the rows of a table, each row shown by its line. -/
structure ShownIn (report : PostorderReport) (output : String) : Prop where
  output_eq :
    output =
      String.join
        ((report.title :: report.summary :: "" :: report.table.lines).map (· ++ "\n"))
  summary_eq :
    report.summary =
      "Blocks: " ++ toString report.blockCount ++ ", Edges: " ++ toString report.edgeCount ++
        ", Entry: " ++ report.entry.text ++ ", Unreachable: " ++ toString report.unreachable
  /-- After the headings there is one line for every row. -/
  lines_eq : report.table.lines.tail = report.rows.map fun row => report.table.line row.cells
  shown : ∀ row ∈ report.rows, row.ShownBy (report.table.line row.cells)

/-- The report as text shows its rows. -/
theorem shownIn_plainText : report.ShownIn report.plainText where
  output_eq := by
    apply String.toList_inj.mp
    simp [plainText, Table.text]
  summary_eq := by
    apply String.toList_inj.mp
    simp [summary, toString]
  lines_eq := by
    simp [Table.lines, table]
  shown := fun row _ => report.shownBy_line row

end PostorderReport

end Dominance.Report
