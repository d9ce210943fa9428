import Mathlib.Data.List.Basic
import Dominance.Dot.Picture
import Dominance.Proofs.AddressText
import Dominance.Proofs.LabelText

namespace Dominance

/-!
# What the text of a picture says

The text of a picture determines the picture.  No line of it holds a line feed, so the
lines are known from the text; a title cannot add lines, because it is escaped.  The first
empty line comes before the vertices and the next one after them.  In the line of a vertex
or of an edge the quotation marks show where addresses and labels end, since neither holds
one.

Only the carriage returns of a title are lost.
-/

namespace Dot

/-- A text that stands between quotation marks, on one line, as it is. -/
structure IsLegible (text : String) : Prop where
  noQuote : '"' ∉ text.toList
  noFeed : '\n' ∉ text.toList

end Dot

namespace Address

theorem toString_eq (address : Address) : toString address = address.text := rfl

/-- Different addresses have different texts. -/
theorem text_inj
    {first second : Address}
    (same : first.text = second.text) :
    first = second := by
  have readBack := first.parse_text
  rw [same, second.parse_text] at readBack
  exact (Except.ok.inj readBack).symm

/-- The text of an address holds no quotation mark and no line feed. -/
theorem isLegible_text (address : Address) : Dot.IsLegible address.text := by
  have legibleDigit :
      ∀ digit < 16, Text.hexDigit digit ≠ '"' ∧ Text.hexDigit digit ≠ '\n' := by
    decide
  have legible : ∀ character ∈ address.text.toList, character ≠ '"' ∧ character ≠ '\n' :=
    address.forall_mem_text (by decide) legibleDigit
  exact ⟨fun member => (legible '"' member).1 rfl, fun member => (legible '\n' member).2 rfl⟩

end Address

namespace Dot

theorem toString_string (text : String) : toString text = text := rfl

/-! ## Cutting at a mark -/

/-- What stands before and after the first of some marks is known from the whole. -/
theorem append_cons_inj
    {Item : Type}
    {mark : Item}
    {first second rest others : List Item}
    (notFirst : mark ∉ first)
    (notSecond : mark ∉ second)
    (same : first ++ mark :: rest = second ++ mark :: others) :
    first = second ∧ rest = others := by
  induction first generalizing second with
  | nil =>
      cases second with
      | nil => exact ⟨rfl, (List.cons.inj same).2⟩
      | cons item later =>
          exact (notSecond ((List.cons.inj same).1 ▸ List.mem_cons_self)).elim
  | cons item later inductionHypothesis =>
      cases second with
      | nil => exact (notFirst ((List.cons.inj same).1 ▸ List.mem_cons_self)).elim
      | cons other further =>
          obtain ⟨rfl, sameLater⟩ := List.cons.inj same
          obtain ⟨rfl, sameRest⟩ :=
            inductionHypothesis (fun member => notFirst (List.mem_cons_of_mem _ member))
              (fun member => notSecond (List.mem_cons_of_mem _ member)) sameLater
          exact ⟨rfl, sameRest⟩

/-- Lines that end with line feeds are known from the text that they make. -/
theorem lines_inj
    {first second : List String}
    (firstWhole : ∀ line ∈ first, '\n' ∉ line.toList)
    (secondWhole : ∀ line ∈ second, '\n' ∉ line.toList)
    (same : String.join (first.map (· ++ "\n")) = String.join (second.map (· ++ "\n"))) :
    first = second := by
  induction first generalizing second with
  | nil =>
      cases second with
      | nil => rfl
      | cons line rest => simp at same
  | cons line rest inductionHypothesis =>
      cases second with
      | nil => simp at same
      | cons other others =>
          obtain ⟨lineWhole, restWhole⟩ := List.forall_mem_cons.mp firstWhole
          obtain ⟨otherWhole, othersWhole⟩ := List.forall_mem_cons.mp secondWhole
          have sameCharacters :
              line.toList ++ '\n' :: (String.join (rest.map (· ++ "\n"))).toList =
                other.toList ++ '\n' :: (String.join (others.map (· ++ "\n"))).toList := by
            simpa using congrArg String.toList same
          obtain ⟨sameLine, sameRest⟩ := append_cons_inj lineWhole otherWhole sameCharacters
          rw [String.toList_inj.mp sameLine,
            inductionHypothesis restWhole othersWhole (String.toList_inj.mp sameRest)]

/-! ## Lines of vertices and edges -/

/-- What the line of a vertex ends with. -/
def Vertex.ending (vertex : Vertex) : List Char :=
  if vertex.highlighted then
    ", style=filled, fillcolor=lightgreen];".toList
  else
    "];".toList

/-- The line of a vertex has its address and its label in quotation marks. -/
theorem Vertex.toList_line (vertex : Vertex) :
    vertex.line.toList =
      "    \"".toList ++ (vertex.address.text.toList ++
        '"' :: (" [label=\"".toList ++ (vertex.label.toList ++ '"' :: vertex.ending))) := by
  cases isHighlighted : vertex.highlighted <;>
    simp [line, ending, Address.toString_eq, toString_string, isHighlighted]

/-- A vertex is known from its line. -/
theorem Vertex.line_inj
    {first second : Vertex}
    (firstLegible : IsLegible first.label)
    (secondLegible : IsLegible second.label)
    (same : first.line = second.line) :
    first = second := by
  have sameCharacters := congrArg String.toList same
  rw [toList_line, toList_line] at sameCharacters
  obtain ⟨sameAddress, afterAddress⟩ :=
    append_cons_inj first.address.isLegible_text.noQuote second.address.isLegible_text.noQuote
      (List.append_cancel_left sameCharacters)
  obtain ⟨sameLabel, sameEnding⟩ :=
    append_cons_inj firstLegible.noQuote secondLegible.noQuote
      (List.append_cancel_left afterAddress)
  have sameHighlight : first.highlighted = second.highlighted := by
    rw [ending, ending] at sameEnding
    cases isFirst : first.highlighted <;> cases isSecond : second.highlighted <;>
      simp [isFirst, isSecond] at sameEnding ⊢
  obtain ⟨firstAddress, firstLabel, _⟩ := first
  obtain ⟨secondAddress, secondLabel, _⟩ := second
  obtain rfl : firstAddress = secondAddress :=
    Address.text_inj (String.toList_inj.mp sameAddress)
  obtain rfl : firstLabel = secondLabel := String.toList_inj.mp sameLabel
  exact congrArg (Vertex.mk firstAddress firstLabel) sameHighlight

theorem Vertex.feed_not_mem_line
    {vertex : Vertex}
    (legible : IsLegible vertex.label) :
    '\n' ∉ vertex.line.toList := by
  have noFeedEnding : '\n' ∉ vertex.ending := by
    rw [ending]
    split <;> decide
  rw [toList_line]
  simp [vertex.address.isLegible_text.noFeed, legible.noFeed, noFeedEnding]

theorem Vertex.line_ne_empty (vertex : Vertex) : vertex.line ≠ "" := by
  intro isEmpty
  have characters_eq := vertex.toList_line
  rw [isEmpty] at characters_eq
  cases characters_eq

/-- Vertices are known from their lines. -/
theorem Vertex.map_line_inj
    {first second : List Vertex}
    (firstLegible : ∀ vertex ∈ first, IsLegible vertex.label)
    (secondLegible : ∀ vertex ∈ second, IsLegible vertex.label)
    (same : first.map line = second.map line) :
    first = second := by
  induction first generalizing second with
  | nil => exact (List.map_eq_nil_iff.mp same.symm).symm
  | cons vertex rest inductionHypothesis =>
      cases second with
      | nil => cases same
      | cons other others =>
          obtain ⟨legible, restLegible⟩ := List.forall_mem_cons.mp firstLegible
          obtain ⟨otherLegible, othersLegible⟩ := List.forall_mem_cons.mp secondLegible
          obtain ⟨sameLine, sameRest⟩ := List.cons.inj same
          rw [line_inj legible otherLegible sameLine,
            inductionHypothesis restLegible othersLegible sameRest]

/-- The line of an edge has both its ends in quotation marks. -/
theorem toList_edgeLine (edge : Address × Address) :
    (edgeLine edge).toList =
      "    \"".toList ++ (edge.1.text.toList ++
        '"' :: (" -> \"".toList ++ (edge.2.text.toList ++ '"' :: [';']))) := by
  simp [edgeLine, Address.toString_eq, toString_string]

/-- An edge is known from its line. -/
theorem edgeLine_inj
    {first second : Address × Address}
    (same : edgeLine first = edgeLine second) :
    first = second := by
  have sameCharacters := congrArg String.toList same
  rw [toList_edgeLine, toList_edgeLine] at sameCharacters
  obtain ⟨sameSource, afterSource⟩ :=
    append_cons_inj first.1.isLegible_text.noQuote second.1.isLegible_text.noQuote
      (List.append_cancel_left sameCharacters)
  obtain ⟨sameTarget, _⟩ :=
    append_cons_inj first.2.isLegible_text.noQuote second.2.isLegible_text.noQuote
      (List.append_cancel_left afterSource)
  exact Prod.ext (Address.text_inj (String.toList_inj.mp sameSource))
    (Address.text_inj (String.toList_inj.mp sameTarget))

theorem feed_not_mem_edgeLine (edge : Address × Address) : '\n' ∉ (edgeLine edge).toList := by
  rw [toList_edgeLine]
  simp [edge.1.isLegible_text.noFeed, edge.2.isLegible_text.noFeed]

/-! ## Pictures -/

/-- Two titles are both missing, or they are equal but for carriage returns. -/
def TitlesAgree (first second : Option String) : Prop :=
  first.map withoutReturns = second.map withoutReturns

instance (first second : Option String) : Decidable (TitlesAgree first second) :=
  inferInstanceAs (Decidable (_ = _))

/-- A picture whose fixed texts and labels stand on one line each. -/
structure Picture.IsLegible (picture : Picture) : Prop where
  name : '\n' ∉ picture.name.toList
  subject : '\n' ∉ picture.subject.toList
  labels : ∀ vertex ∈ picture.vertices, Dot.IsLegible vertex.label

namespace Picture

variable {first second : Picture}

/-- The lines of the vertices and of the edges, up to the end of the text. -/
def body (picture : Picture) : List String :=
  picture.vertices.map Vertex.line ++ "" :: (picture.edges.map edgeLine ++ ["\x7d"])

/-- The lines of a picture in the order in which they stand. -/
theorem lines_eq (picture : Picture) :
    picture.lines =
      s!"digraph {picture.name} \x7b" ::
        (picture.titleLines ++
          "    labelloc=t;" ::
            "    node [shape=box, fontname=\"Courier\", fontsize=10];" :: "" :: picture.body) := by
  simp [lines, body]

theorem feed_not_mem_titleLines
    {picture : Picture}
    (legible : picture.IsLegible) :
    ∀ line ∈ picture.titleLines, '\n' ∉ line.toList := by
  rw [titleLines]
  split
  · simp
  · simp [toString_string, legible.subject, feed_not_mem_escape]

/-- No line of a picture holds a line feed. -/
theorem feed_not_mem_lines
    {picture : Picture}
    (legible : picture.IsLegible) :
    ∀ line ∈ picture.lines, '\n' ∉ line.toList := by
  have ofVertex :
      ∀ vertex ∈ picture.vertices, '\n' ∉ vertex.line.toList := fun vertex member =>
    Vertex.feed_not_mem_line (legible.labels vertex member)
  intro line member
  simp only [lines_eq, body, List.mem_cons, List.mem_append, List.mem_map, List.not_mem_nil,
    or_false] at member
  rcases member with
      rfl | isTitle | rfl | rfl | rfl | ⟨vertex, isVertex, rfl⟩ | rfl | ⟨edge, _, rfl⟩ | rfl
  · simp [toString_string, legible.name]
  · exact feed_not_mem_titleLines legible line isTitle
  · decide
  · decide
  · decide
  · exact ofVertex vertex isVertex
  · decide
  · exact feed_not_mem_edgeLine edge
  · decide

/-- Titles are written alike exactly if they are equal but for carriage returns. -/
theorem titleLines_eq_iff (sameSubject : first.subject = second.subject) :
    first.titleLines = second.titleLines ↔ TitlesAgree first.title second.title := by
  rw [titleLines, titleLines, sameSubject, TitlesAgree]
  cases first.title with
  | none => cases second.title <;> simp
  | some title =>
      cases second.title with
      | none => simp
      | some other =>
          simp only [List.cons.injEq, and_true, Option.map_some, Option.some.injEq,
            String.append_left_inj, String.append_right_inj, toString_string,
            escape_eq_escape_iff]

/-- The line of a title is not the line after it. -/
theorem labelloc_not_mem_titleLines (picture : Picture) :
    "    labelloc=t;" ∉ picture.titleLines := by
  rw [titleLines]
  split
  · simp
  · rw [List.mem_singleton]
    intro same
    have sameCharacters := congrArg String.toList same
    simp [toString_string] at sameCharacters

/-- The lines after the title are those of the vertices and of the edges. -/
theorem body_inj
    (firstLegible : first.IsLegible)
    (secondLegible : second.IsLegible)
    (same : first.body = second.body) :
    first.vertices = second.vertices ∧ first.edges = second.edges := by
  have noEmptyLine (picture : Picture) : "" ∉ picture.vertices.map Vertex.line := by
    rw [List.mem_map]
    rintro ⟨vertex, _, isEmpty⟩
    exact vertex.line_ne_empty isEmpty
  obtain ⟨sameVertices, sameRest⟩ := append_cons_inj (noEmptyLine first) (noEmptyLine second) same
  have sameEdges := List.append_cancel_right sameRest
  exact ⟨Vertex.map_line_inj firstLegible.labels secondLegible.labels sameVertices,
    List.map_injective_iff.mpr (fun _ _ => edgeLine_inj) sameEdges⟩

/--
Two pictures under the same name have the same text exactly if they show the same vertices
and edges in the same order, under titles that differ in carriage returns at most.
-/
theorem text_eq_iff
    (firstLegible : first.IsLegible)
    (secondLegible : second.IsLegible)
    (sameName : first.name = second.name)
    (sameSubject : first.subject = second.subject) :
    first.text = second.text ↔
      TitlesAgree first.title second.title ∧
        first.vertices = second.vertices ∧ first.edges = second.edges := by
  rw [← titleLines_eq_iff sameSubject]
  constructor
  · intro same
    have sameLines :=
      lines_inj (feed_not_mem_lines firstLegible) (feed_not_mem_lines secondLegible) same
    rw [lines_eq, lines_eq] at sameLines
    obtain ⟨sameTitle, sameRest⟩ :=
      append_cons_inj first.labelloc_not_mem_titleLines second.labelloc_not_mem_titleLines
        (List.cons.inj sameLines).2
    have sameBody : first.body = second.body := by simpa using sameRest
    exact ⟨sameTitle, body_inj firstLegible secondLegible sameBody⟩
  · rintro ⟨sameTitle, sameVertices, sameEdges⟩
    have sameBody : first.body = second.body := by rw [body, sameVertices, sameEdges, body]
    rw [text, lines_eq, sameName, sameTitle, sameBody, ← lines_eq, text]

end Picture

end Dot

end Dominance
