import Mathlib.Data.List.Induction
import Dominance.Proofs.Layout

namespace Dominance.EdgeList

/-!
# The grammar of edge lists

An edge list has one statement in a row of words: a keyword with an address, or a
source, an arrow and at least one target.  Rows without words are skipped.  A row breaks
the rules if it has not the form of a statement, if one of its words should be an
address and is none, or if it names the entry once more.

Reading follows these rules exactly.  It ends with the statements that the rows spell,
or with what is wrong with the first row that breaks a rule.
-/

/-- The words of a row spell a statement. -/
inductive Spells : List String → Statement → Prop where
  | entry
      {word : String}
      {address : Address} :
      Address.parse word = .ok address →
      Spells ["entry", word] (.entry address)
  | block
      {word : String}
      {address : Address} :
      Address.parse word = .ok address →
      Spells ["block", word] (.block address)
  | edges
      {source target : String}
      {targets : List String}
      {address : Address}
      {addresses : List Address} :
      source ≠ "entry" →
      source ≠ "block" →
      Address.parse source = .ok address →
      List.Forall₂ (fun word named => Address.parse word = .ok named)
        (target :: targets) addresses →
      Spells (source :: "->" :: target :: targets) (.edges address addresses)

/-- At most one statement names the entry. -/
def OneEntry (statements : List Statement) : Prop :=
  (statements.filterMap Statement.entryAddress?).length ≤ 1

/-- Rows spell statements, those without words left out, and name one entry at most. -/
structure Reads (rows : List (List String)) (statements : List Statement) : Prop where
  spelled : List.Forall₂ Spells (rows.filter (· ≠ [])) statements
  oneEntry : OneEntry statements

/-- The leftmost of some words that is no address, and why it is none. -/
structure FirstInvalid
    (words : List String)
    (word : String)
    (error : AddressError) : Prop where
  rejected : Address.parse word = .error error
  leftmost :
    ∃ before after,
      words = before ++ word :: after ∧
        ∀ other ∈ before, ∃ address, Address.parse other = .ok address

/-- A row with a number breaks the rules after statements that have been read. -/
inductive Breaks
    (line : Nat)
    (earlier : List Statement) :
    List String → ReadError → Prop where
  | operandCount
      {words : List String}
      (keyword : Keyword) :
      words.length ≠ 1 →
      Breaks line earlier (keyword.text :: words) (.operandCount line keyword)
  | unrecognized
      {word : String}
      {words : List String} :
      (∀ keyword : Keyword, word ≠ keyword.text) →
      (∀ target targets, words ≠ "->" :: target :: targets) →
      Breaks line earlier (word :: words) (.unrecognized line)
  | invalidOperand
      {word : String}
      {error : AddressError}
      (keyword : Keyword) :
      Address.parse word = .error error →
      Breaks line earlier [keyword.text, word] (.invalidAddress line word error)
  | invalidEnd
      {source target word : String}
      {targets : List String}
      {error : AddressError} :
      (∀ keyword : Keyword, source ≠ keyword.text) →
      FirstInvalid (source :: target :: targets) word error →
      Breaks line earlier (source :: "->" :: target :: targets)
        (.invalidAddress line word error)
  /-- A second entry counts only if its address can be read. -/
  | repeatedEntry
      {words : List String}
      {address previous : Address} :
      Spells words (.entry address) →
      entryAddress? earlier = some previous →
      Breaks line earlier words (.repeatedEntry line previous)

variable {line : Nat} {words : List String} {statement : Statement} {error : ReadError}

/-! ## Words -/

namespace Keyword

@[simp] theorem ofWord?_text (keyword : Keyword) : ofWord? keyword.text = some keyword := by
  cases keyword <;> rfl

theorem text_of_ofWord?
    {word : String}
    {keyword : Keyword}
    (isKeyword : ofWord? word = some keyword) :
    word = keyword.text := by
  rw [ofWord?] at isKeyword
  split at isKeyword
  · rename_i isEntry
    cases isKeyword
    exact isEntry
  · split at isKeyword
    · rename_i isBlock
      cases isKeyword
      exact isBlock
    · cases isKeyword

theorem ofWord?_eq_none
    {word : String}
    (noKeyword : ∀ keyword : Keyword, word ≠ keyword.text) :
    ofWord? word = none :=
  Option.eq_none_iff_forall_ne_some.mpr fun keyword isKeyword =>
    noKeyword keyword (text_of_ofWord? isKeyword)

end Keyword

/-- A keyword and an address spell a statement. -/
theorem Spells.keyword
    {word : String}
    {address : Address}
    (keyword : Keyword)
    (accepted : Address.parse word = .ok address) :
    Spells [keyword.text, word] (keyword.statement address) := by
  cases keyword with
  | entry => exact .entry accepted
  | block => exact .block accepted

theorem readAddresses_eq_ok
    {addresses : List Address}
    (accepted :
      List.Forall₂ (fun word address => Address.parse word = .ok address) words addresses)
    (line : Nat) :
    readAddresses line words = .ok addresses := by
  induction accepted with
  | nil => rfl
  | cons isAddress _ inductionHypothesis =>
      simp only [readAddresses, readAddress, isAddress, inductionHypothesis]

/-- The leftmost word that is no address is reported. -/
theorem readAddresses_eq_error
    {word : String}
    {cause : AddressError}
    (invalid : FirstInvalid words word cause)
    (line : Nat) :
    readAddresses line words = .error (.invalidAddress line word cause) := by
  obtain ⟨rejected, before, after, rfl, accepted⟩ := invalid
  induction before with
  | nil => simp only [List.nil_append, readAddresses, readAddress, rejected]
  | cons other before inductionHypothesis =>
      obtain ⟨⟨address, isAddress⟩, othersAccepted⟩ := List.forall_mem_cons.mp accepted
      simp only [List.cons_append, readAddresses, readAddress, isAddress,
        inductionHypothesis othersAccepted]

/-- Some words are all addresses, or there is a leftmost one that is none. -/
theorem addresses_or_firstInvalid (words : List String) :
    (∃ addresses,
      List.Forall₂ (fun word address => Address.parse word = .ok address) words addresses) ∨
    ∃ word cause, FirstInvalid words word cause := by
  induction words with
  | nil => exact .inl ⟨[], .nil⟩
  | cons word rest inductionHypothesis =>
      cases parsed : Address.parse word with
      | error cause => exact .inr ⟨word, cause, parsed, [], rest, rfl, by simp⟩
      | ok address =>
          rcases inductionHypothesis with
              ⟨addresses, accepted⟩ | ⟨other, cause, rejected, before, after, rfl, accepted⟩
          · exact .inl ⟨address :: addresses, .cons parsed accepted⟩
          · refine .inr ⟨other, cause, rejected, word :: before, after, rfl, ?_⟩
            exact List.forall_mem_cons.mpr ⟨⟨address, parsed⟩, accepted⟩

/-! ## Rows -/

/-- A row of edges is read like one list of addresses, the source first. -/
theorem readEdges_eq_ok
    {source target : String}
    {targets : List String}
    {address : Address}
    {addresses : List Address}
    (read :
      readAddresses line (source :: target :: targets) = .ok (address :: addresses)) :
    readEdges line source ("->" :: target :: targets) = .ok (.edges address addresses) := by
  simp only [readEdges, arrow, ↓reduceIte]
  rw [readAddresses] at read
  split at read
  · cases read
  · split at read
    · cases read
    · cases read
      rfl

/-- An address that cannot be read makes the row of edges fail. -/
theorem readEdges_eq_error
    {source target : String}
    {targets : List String}
    (read : readAddresses line (source :: target :: targets) = .error error) :
    readEdges line source ("->" :: target :: targets) = .error error := by
  simp only [readEdges, arrow, ↓reduceIte]
  rw [readAddresses] at read
  split at read
  · cases read
    rfl
  · split at read
    · cases read
      rfl
    · cases read

/-- A row without an arrow and a target after its first word is no row of edges. -/
theorem readEdges_unrecognized
    (noEdges : ∀ target targets, words ≠ "->" :: target :: targets)
    (line : Nat)
    (source : String) :
    readEdges line source words = .error (.unrecognized line) := by
  rw [readEdges.eq_def]
  split
  · rename_i middle target targets
    rw [if_neg]
    rintro rfl
    exact noEdges target targets rfl
  · rfl

/-- A keyword takes one word. -/
theorem readOperand_eq_error
    (notOne : words.length ≠ 1)
    (line : Nat)
    (keyword : Keyword) :
    readOperand line keyword words = .error (.operandCount line keyword) := by
  rw [readOperand.eq_def]
  split
  · exact absurd rfl notOne
  · rfl

/-- Words after a keyword are read as its operand. -/
theorem readStatement_keyword
    (line : Nat)
    (keyword : Keyword)
    (words : List String) :
    readStatement line (keyword.text :: words) = (readOperand line keyword words).map some := by
  rw [readStatement, Keyword.ofWord?_text]

/-- Words after any other word are read as edges. -/
theorem readStatement_other
    {word : String}
    (noKeyword : ∀ keyword : Keyword, word ≠ keyword.text)
    (line : Nat)
    (words : List String) :
    readStatement line (word :: words) = (readEdges line word words).map some := by
  rw [readStatement, Keyword.ofWord?_eq_none noKeyword]

/-- A row that spells a statement is read as this statement. -/
theorem Spells.readStatement_eq
    (spells : Spells words statement)
    (line : Nat) :
    readStatement line words = .ok (some statement) := by
  cases spells with
  | entry accepted =>
      rw [← Keyword.text.eq_1, readStatement_keyword]
      simp only [readOperand, readAddress, accepted, Keyword.statement, Except.map]
  | block accepted =>
      rw [← Keyword.text.eq_2, readStatement_keyword]
      simp only [readOperand, readAddress, accepted, Keyword.statement, Except.map]
  | @edges source target targets _ _ notEntry notBlock accepted allAccepted =>
      have noKeyword (keyword : Keyword) : source ≠ keyword.text := by
        cases keyword with
        | entry => exact notEntry
        | block => exact notBlock
      rw [readStatement_other noKeyword,
        readEdges_eq_ok (readAddresses_eq_ok (.cons accepted allAccepted) line)]
      rfl

/-- A row with words spells a statement or breaks a rule, whatever stands before it. -/
theorem spells_or_breaks
    (line : Nat)
    (earlier : List Statement)
    (word : String)
    (words : List String) :
    (∃ statement, Spells (word :: words) statement) ∨
    ∃ error, Breaks line earlier (word :: words) error := by
  by_cases isKeyword : ∃ keyword : Keyword, word = keyword.text
  · obtain ⟨keyword, rfl⟩ := isKeyword
    by_cases isOne : words.length = 1
    · obtain ⟨operand, rfl⟩ := List.length_eq_one_iff.mp isOne
      cases parsed : Address.parse operand with
      | ok address => exact .inl ⟨_, .keyword keyword parsed⟩
      | error cause => exact .inr ⟨_, .invalidOperand keyword parsed⟩
    · exact .inr ⟨_, .operandCount keyword isOne⟩
  · have noKeyword (keyword : Keyword) : word ≠ keyword.text :=
      fun same => isKeyword ⟨keyword, same⟩
    by_cases isEdges : ∃ target targets, words = "->" :: target :: targets
    · obtain ⟨target, targets, rfl⟩ := isEdges
      rcases addresses_or_firstInvalid (word :: target :: targets) with
          ⟨_, accepted⟩ | ⟨_, cause, invalid⟩
      · cases accepted with
        | cons sourceAccepted targetsAccepted =>
            exact .inl ⟨_, .edges (noKeyword .entry) (noKeyword .block) sourceAccepted
              targetsAccepted⟩
      · exact .inr ⟨_, .invalidEnd noKeyword invalid⟩
    · refine .inr ⟨_, .unrecognized noKeyword ?_⟩
      intro target targets same
      exact isEdges ⟨target, targets, same⟩

/-! ## Entries -/

theorem entryAddress?_append (first second : List Statement) :
    entryAddress? (first ++ second) = (entryAddress? first).or (entryAddress? second) :=
  List.findSome?_append

theorem entryAddress?_eq_none_iff
    {statements : List Statement} :
    entryAddress? statements = none ↔ statements.filterMap Statement.entryAddress? = [] := by
  rw [entryAddress?, List.findSome?_eq_none_iff, List.filterMap_eq_nil_iff]

/-- A statement does not name the entry if one before it has. -/
theorem OneEntry.fresh
    {earlier later : List Statement}
    (oneEntry : OneEntry (earlier ++ statement :: later)) :
    entryAddress? earlier = none ∨ statement.entryAddress? = none := by
  by_contra both
  obtain ⟨someBefore, someNow⟩ := not_or.mp both
  rw [entryAddress?_eq_none_iff, ← List.length_eq_zero_iff] at someBefore
  obtain ⟨address, named⟩ := Option.ne_none_iff_exists'.mp someNow
  rw [OneEntry, List.filterMap_append, List.filterMap_cons_some named, List.length_append,
    List.length_cons] at oneEntry
  omega

/-- One entry stays one if a statement names none or is the first to name one. -/
theorem OneEntry.append
    {earlier : List Statement}
    (oneEntry : OneEntry earlier)
    (fresh : entryAddress? earlier = none ∨ statement.entryAddress? = none) :
    OneEntry (earlier ++ [statement]) := by
  rw [OneEntry, List.filterMap_append, List.length_append]
  rcases fresh with noneBefore | noneNow
  · rw [entryAddress?_eq_none_iff.mp noneBefore, List.length_nil, Nat.zero_add]
    exact List.length_filterMap_le _ [statement]
  · rw [List.filterMap_cons_none noneNow]
    exact oneEntry

/-! ## Lines -/

variable {known : Option Address} {rest : List (List String × Nat)}

/-- A row that spells a statement is read, and reading goes on after it. -/
theorem readLines_of_spells
    (spells : Spells words statement)
    (fresh : known = none ∨ statement.entryAddress? = none) :
    readLines known ((words, line) :: rest) =
      (readLines (known.or statement.entryAddress?) rest).map (statement :: ·) := by
  simp only [readLines, spells.readStatement_eq]
  cases known with
  | none =>
      cases statement.entryAddress? with
      | none =>
          simp only [Option.or_none]
          cases readLines none rest <;> rfl
      | some address =>
          simp only [Option.or_none, Option.none_or]
          cases readLines (some address) rest <;> rfl
  | some previous =>
      simp only [fresh.resolve_left (Option.some_ne_none previous), Option.or_none,
        Option.none_or]
      cases readLines (some previous) rest <;> rfl

/-- Reading ends at a row that breaks a rule. -/
theorem readLines_of_breaks
    {earlier : List Statement}
    (breaks : Breaks line earlier words error) :
    readLines (entryAddress? earlier) ((words, line) :: rest) = .error error := by
  cases breaks with
  | operandCount keyword notOne =>
      simp only [readLines, readStatement_keyword, readOperand_eq_error notOne, Except.map]
  | unrecognized noKeyword noEdges =>
      simp only [readLines, readStatement_other noKeyword, readEdges_unrecognized noEdges,
        Except.map]
  | invalidOperand keyword rejected =>
      simp only [readLines, readStatement_keyword, readOperand, readAddress, rejected, Except.map]
  | invalidEnd noKeyword invalid =>
      simp only [readLines, readStatement_other noKeyword,
        readEdges_eq_error (readAddresses_eq_error invalid line), Except.map]
  | repeatedEntry spells isKnown =>
      simp only [readLines, spells.readStatement_eq, Statement.entryAddress?, isKnown]

/-- Rows that can be read are read one after the other, and reading goes on after them. -/
theorem readLines_append
    (earlier : List Statement)
    {statements : List Statement}
    {rows : List (List String)}
    (spelled : List.Forall₂ Spells (rows.filter (· ≠ [])) statements)
    (oneEntry : OneEntry (earlier ++ statements))
    (number : Nat)
    (rest : List (List String × Nat)) :
    readLines (entryAddress? earlier) (rows.zipIdx number ++ rest) =
      (readLines (entryAddress? (earlier ++ statements)) rest).map (statements ++ ·) := by
  induction rows generalizing earlier statements number with
  | nil =>
      cases spelled
      rw [List.append_nil, List.zipIdx_nil, List.nil_append]
      cases readLines (entryAddress? earlier) rest <;> rfl
  | cons row rows inductionHypothesis =>
      rw [List.zipIdx_cons, List.cons_append]
      by_cases isBlank : row = []
      · subst isBlank
        exact inductionHypothesis earlier spelled oneEntry (number + 1)
      · rw [List.filter_cons_of_pos (by simpa using isBlank)] at spelled
        cases spelled with
        | @cons _ statement _ later spells laterSpelled =>
            rw [readLines_of_spells spells oneEntry.fresh]
            have rejoined : earlier ++ statement :: later = earlier ++ [statement] ++ later := by
              simp
            have known_eq :
                (entryAddress? earlier).or statement.entryAddress? =
                  entryAddress? (earlier ++ [statement]) := by
              rw [entryAddress?_append]
              simp [entryAddress?]
            rw [rejoined] at oneEntry
            rw [known_eq, inductionHypothesis _ laterSpelled oneEntry (number + 1), rejoined]
            cases readLines (entryAddress? (earlier ++ [statement] ++ later)) rest <;> rfl

/-! ## Texts -/

/-- A row without words adds no statement. -/
theorem Reads.append_blank
    {rows : List (List String)}
    {statements : List Statement}
    (reads : Reads rows statements) :
    Reads (rows ++ [[]]) statements where
  spelled := by
    rw [List.filter_append]
    simpa using reads.spelled
  oneEntry := reads.oneEntry

/-- A row that spells a statement adds it, unless it names a second entry. -/
theorem Reads.append
    {rows : List (List String)}
    {statements : List Statement}
    (reads : Reads rows statements)
    (spells : Spells words statement)
    (fresh : entryAddress? statements = none ∨ statement.entryAddress? = none) :
    Reads (rows ++ [words]) (statements ++ [statement]) where
  spelled := by
    have someWord : words ≠ [] := by
      rintro rfl
      cases spells
    rw [List.filter_append, List.filter_cons_of_pos (by simpa using someWord)]
    exact List.rel_append reads.spelled (.cons spells .nil)
  oneEntry := reads.oneEntry.append fresh

/-- Rows can be read to the end, or there is a first one that breaks a rule. -/
theorem reads_or_breaks (rows : List (List String)) :
    (∃ statements, Reads rows statements) ∨
    ∃ before row after statements error,
      rows = before ++ row :: after ∧
        Reads before statements ∧
          Breaks (before.length + 1) statements row error := by
  -- What the last row does is seen after the rows before it have been read.
  induction rows using List.reverseRecOn with
  | nil => exact .inl ⟨[], .nil, Nat.zero_le 1⟩
  | append_singleton rows row inductionHypothesis =>
      rcases inductionHypothesis with
          ⟨statements, reads⟩ | ⟨before, broken, after, statements, error, rfl, reads, breaks⟩
      · cases row with
        | nil => exact .inl ⟨statements, reads.append_blank⟩
        | cons word words =>
            rcases spells_or_breaks (rows.length + 1) statements word words with
                ⟨statement, spells⟩ | ⟨error, breaks⟩
            · by_cases fresh : entryAddress? statements = none ∨ statement.entryAddress? = none
              · exact .inl ⟨_, reads.append spells fresh⟩
              · obtain ⟨someBefore, someNow⟩ := not_or.mp fresh
                obtain ⟨previous, isKnown⟩ := Option.ne_none_iff_exists'.mp someBefore
                obtain ⟨address, rfl⟩ : ∃ address, statement = .entry address := by
                  cases statement with
                  | entry address => exact ⟨address, rfl⟩
                  | block address => exact absurd rfl someNow
                  | edges source targets => exact absurd rfl someNow
                exact .inr ⟨rows, _, [], statements, _, rfl, reads,
                  .repeatedEntry spells isKnown⟩
            · exact .inr ⟨rows, _, [], statements, error, rfl, reads, breaks⟩
      · exact .inr ⟨before, broken, after ++ [row], statements, error, by simp, reads, breaks⟩

variable {text : String} {rows : List (List String)} {statements : List Statement}

/-- Lines are counted from one. -/
theorem numberedLines_eq
    (hasRows : HasRows text.toList rows) :
    numberedLines text = rows.zipIdx 1 := by
  rw [numberedLines, hasRows_iff.mp hasRows]

/-- A text whose rows can be read is read as the statements that they spell. -/
theorem Reads.readStatements_eq
    (reads : Reads rows statements)
    (hasRows : HasRows text.toList rows) :
    readStatements text = .ok statements := by
  have readAll := readLines_append [] reads.spelled reads.oneEntry 1 []
  rw [List.append_nil] at readAll
  rw [readStatements, numberedLines_eq hasRows]
  exact readAll.trans (congrArg Except.ok (List.append_nil statements))

/-- A text is refused because of the first row that breaks a rule. -/
theorem Breaks.readStatements_eq
    {before after : List (List String)}
    {row : List String}
    (breaks : Breaks (before.length + 1) statements row error)
    (reads : Reads before statements)
    (hasRows : HasRows text.toList (before ++ row :: after)) :
    readStatements text = .error error := by
  have readBefore :=
    readLines_append [] reads.spelled reads.oneEntry 1 ((row :: after).zipIdx (1 + before.length))
  rw [readStatements, numberedLines_eq hasRows, List.zipIdx_append]
  refine readBefore.trans ?_
  rw [List.nil_append, List.zipIdx_cons, Nat.add_comm 1, readLines_of_breaks breaks]
  rfl

/-- A text is read as the statements that its rows spell. -/
theorem readStatements_eq_ok_iff
    (hasRows : HasRows text.toList rows) :
    readStatements text = .ok statements ↔ Reads rows statements := by
  constructor
  · intro read
    rcases reads_or_breaks rows with
        ⟨found, reads⟩ | ⟨before, row, after, earlier, error, rfl, reads, breaks⟩
    · rw [reads.readStatements_eq hasRows] at read
      cases read
      exact reads
    · rw [breaks.readStatements_eq reads hasRows] at read
      cases read
  · intro reads
    exact reads.readStatements_eq hasRows

/-- The first row that breaks a rule is what is blamed. -/
theorem readStatements_eq_error_iff
    (hasRows : HasRows text.toList rows) :
    readStatements text = .error error ↔
      ∃ before row after statements,
        rows = before ++ row :: after ∧
          Reads before statements ∧
            Breaks (before.length + 1) statements row error := by
  constructor
  · intro read
    rcases reads_or_breaks rows with
        ⟨found, reads⟩ | ⟨before, row, after, earlier, other, rfl, reads, breaks⟩
    · rw [reads.readStatements_eq hasRows] at read
      cases read
    · rw [breaks.readStatements_eq reads hasRows] at read
      cases read
      exact ⟨before, row, after, earlier, rfl, reads, breaks⟩
  · rintro ⟨before, row, after, earlier, rfl, reads, breaks⟩
    exact breaks.readStatements_eq reads hasRows

/-- What is wrong with a row is reported with its number. -/
theorem Breaks.exists_message
    {earlier : List Statement}
    (breaks : Breaks line earlier words error) :
    ∃ what : String, error.message = s!"line {line}: {what}" := by
  have located (first second : String) :
      "line " ++ toString line ++ (": " ++ first) ++ second =
        s!"line {line}: {first ++ second}" := by
    show _ = "line " ++ toString line ++ ": " ++ (first ++ second)
    simp only [String.append_assoc]
  cases breaks with
  | operandCount keyword notOne =>
      refine ⟨"'" ++ (keyword.text ++ "' takes exactly one address"), ?_⟩
      rw [← located, ← String.append_assoc]
      rfl
  | unrecognized noKeyword noEdges =>
      refine ⟨"expected 'entry <addr>', 'block <addr>' or '<addr> -> <addr>...'" ++ "", ?_⟩
      rw [← located, String.append_empty]
      rfl
  | @invalidOperand word cause keyword rejected =>
      refine ⟨"invalid address '" ++ (word ++ "'"), ?_⟩
      rw [← located, ← String.append_assoc]
      rfl
  | @invalidEnd source target word targets cause noKeyword invalid =>
      refine ⟨"invalid address '" ++ (word ++ "'"), ?_⟩
      rw [← located, ← String.append_assoc]
      rfl
  | @repeatedEntry words address previous spells isKnown =>
      refine ⟨"entry already set to " ++ previous.text, ?_⟩
      rw [← located]
      rfl

end Dominance.EdgeList
