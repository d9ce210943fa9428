import Dominance.EdgeList.Statement
import Dominance.Log
import Dominance.Text.Line

namespace Dominance

/-!
# Reading edge lists

Each line is cut at its first number sign and split into words.  A line without
words is skipped.  The first line that is no statement is reported with its
number, counted from one; an address that cannot be read is reported before a
second entry statement.
-/

namespace EdgeList

/-- A word that starts a statement with one address. -/
inductive Keyword where
  | entry
  | block
  deriving DecidableEq, Repr

namespace Keyword

/-- The word itself. -/
def text : Keyword → String
  | .entry => "entry"
  | .block => "block"

/-- The keyword that a word is. -/
def ofWord? (word : String) : Option Keyword :=
  if word = Keyword.entry.text then
    some .entry
  else if word = Keyword.block.text then
    some .block
  else
    none

/-- The statement of a keyword about an address. -/
def statement : Keyword → Address → Statement
  | .entry, address => .entry address
  | .block, address => .block address

end Keyword

/-- The word between the source of edges and their targets. -/
def arrow : String := "->"

end EdgeList

/-- Why a text is no edge list. -/
inductive ReadError where
  | invalidAddress (line : Nat) (word : String) (error : AddressError)
  | repeatedEntry (line : Nat) (previous : Address)
  | operandCount (line : Nat) (keyword : EdgeList.Keyword)
  | unrecognized (line : Nat)
  | noBlocks
  | unknownBlock (error : UnknownBlock)
  deriving DecidableEq, Repr

namespace ReadError

/-- The wording of a read error. -/
def message : ReadError → String
  | .invalidAddress line word _ => s!"line {line}: invalid address '{word}'"
  | .repeatedEntry line previous => s!"line {line}: entry already set to {previous}"
  | .operandCount line keyword =>
      s!"line {line}: '{keyword.text}' takes exactly one address"
  | .unrecognized line =>
      s!"line {line}: expected 'entry <addr>', 'block <addr>' or '<addr> -> <addr>...'"
  | .noBlocks => "graph has no blocks"
  | .unknownBlock error => error.message

/-- The wording of the errors behind a read error. -/
def causes : ReadError → List String
  | .invalidAddress _ _ error => [error.reportText]
  | .repeatedEntry .. => []
  | .operandCount .. => []
  | .unrecognized _ => []
  | .noBlocks => []
  | .unknownBlock _ => []

end ReadError

namespace EdgeList

/-- Read one word of a line as an address. -/
def readAddress (line : Nat) (word : String) : Except ReadError Address :=
  match Address.parse word with
  | .error error => .error (.invalidAddress line word error)
  | .ok address => .ok address

/-- Read words of a line as addresses, up to the first that is none. -/
def readAddresses (line : Nat) : List String → Except ReadError (List Address)
  | [] => .ok []
  | word :: rest =>
      match readAddress line word with
      | .error error => .error error
      | .ok address =>
          match readAddresses line rest with
          | .error error => .error error
          | .ok addresses => .ok (address :: addresses)

/-- Read the words after a keyword. -/
def readOperand
    (line : Nat)
    (keyword : Keyword) :
    List String → Except ReadError Statement
  | [word] =>
      match readAddress line word with
      | .error error => .error error
      | .ok address => .ok (keyword.statement address)
  | _ => .error (.operandCount line keyword)

/-- Read a line of edges: a source, an arrow and at least one target. -/
def readEdges
    (line : Nat)
    (source : String) :
    List String → Except ReadError Statement
  | middle :: target :: targets =>
      if middle = arrow then
        match readAddress line source with
        | .error error => .error error
        | .ok address =>
            match readAddresses line (target :: targets) with
            | .error error => .error error
            | .ok addresses => .ok (.edges address addresses)
      else
        .error (.unrecognized line)
  | _ => .error (.unrecognized line)

/-- Read the words of a line; a line without words has no statement. -/
def readStatement
    (line : Nat) :
    List String → Except ReadError (Option Statement)
  | [] => .ok none
  | word :: rest =>
      match Keyword.ofWord? word with
      | some keyword => (readOperand line keyword rest).map some
      | none => (readEdges line word rest).map some

/-- Read numbered lines of words, given the entry named before them. -/
def readLines
    (known : Option Address) :
    List (List String × Nat) → Except ReadError (List Statement)
  | [] => .ok []
  | line :: rest =>
      match readStatement line.2 line.1 with
      | .error error => .error error
      | .ok none => readLines known rest
      | .ok (some statement) =>
          match statement.entryAddress?, known with
          | some _, some previous => .error (.repeatedEntry line.2 previous)
          | named, _ =>
              match readLines (named.or known) rest with
              | .error error => .error error
              | .ok statements => .ok (statement :: statements)

/-- The words of a line before its first number sign. -/
def lineWords (line : List Char) : List String :=
  (Text.words (line.takeWhile (· ≠ '#'))).map String.ofList

/-- The words of each line of a text, with the number of the line. -/
def numberedLines (text : String) : List (List String × Nat) :=
  ((Text.lines text.toList).map lineWords).zipIdx 1

/-- The statements of a text. -/
def readStatements (text : String) : Except ReadError (List Statement) :=
  readLines none (numberedLines text)

/-- The flow graph that statements describe. -/
def graph (statements : List Statement) : Except ReadError FlowGraph :=
  match mentions statements with
  | [] => .error .noBlocks
  | first :: _ =>
      let entry := (entryAddress? statements).getD first
      match FlowGraph.assemble entry (mentions statements) (edgePairs statements) with
      | .error error => .error (.unknownBlock error)
      | .ok graph => .ok graph

/-- The flow graph that a text describes. -/
def parse (text : String) : Except ReadError FlowGraph :=
  match readStatements text with
  | .error error => .error error
  | .ok statements => graph statements

/-- Read a flow graph and report its size. -/
def load (text : String) : Logged (Except ReadError FlowGraph) :=
  match parse text with
  | .error error => { value := .error error }
  | .ok graph =>
      { value := .ok graph
        log := [.parsed graph.size graph.edgeCount graph.entry] }

end EdgeList

end Dominance
