import Dominance.Address

namespace Dominance

/-!
# Log records

What the analysis reports while it runs.  Operations that report return their
records beside their result, oldest first.
-/

/-- How important a record is. -/
inductive LogLevel where
  | warn
  | debug
  | trace
  deriving DecidableEq, Repr

/-- One reported event. -/
inductive LogRecord where
  /-- Some blocks could not be numbered by the walk from the entry. -/
  | unreachable (count size : Nat) (entry : Address)
  /-- A link was recorded or changed during a pass. -/
  | linked (pass node dominator : Nat)
  /-- A pass changed nothing, so the tree is complete. -/
  | converged (size : Nat) (entry : Address) (passes : Nat)
  /-- An edge list was read. -/
  | parsed (blocks edges : Nat) (entry : Address)
  /-- A command works on a graph with blocks that the entry does not reach. -/
  | notReached (count size : Nat) (entry : Address)
  deriving DecidableEq, Repr

namespace LogLevel

/-- The name of a level. -/
def name : LogLevel → String
  | .warn => "WARN"
  | .debug => "DEBUG"
  | .trace => "TRACE"

end LogLevel

namespace LogRecord

/-- The level of a record. -/
def level : LogRecord → LogLevel
  | .unreachable .. => .debug
  | .linked .. => .trace
  | .converged .. => .debug
  | .parsed .. => .debug
  | .notReached .. => .warn

/-- The wording of a record. -/
def message : LogRecord → String
  | .unreachable count size entry =>
      s!"{count} of {size} blocks are unreachable from entry {entry}"
  | .linked pass node dominator =>
      s!"pass {pass}: idom(#{node}) = #{dominator}"
  | .converged size entry passes =>
      s!"dominator tree for {size} nodes (entry {entry}) converged after {passes} passes"
  | .parsed blocks edges entry =>
      s!"parsed {blocks} blocks and {edges} edges, entry {entry}"
  | .notReached count size entry =>
      s!"{count} of {size} blocks are not reachable from entry {entry}"

/-- The level and the wording of a record. -/
def text (record : LogRecord) : String :=
  s!"{record.level.name} {record.message}"

end LogRecord

/-- A result with the records that were made on the way to it. -/
structure Logged (α : Type) where
  value : α
  log : List LogRecord := []

end Dominance
