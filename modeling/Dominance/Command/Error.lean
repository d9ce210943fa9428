import Dominance.Build.Error
import Dominance.Command.Directory
import Dominance.EdgeList.Reader

namespace Dominance.Command

/-!
# Failures of commands

A failure has a message and the chain of causes behind it.  The report numbers
the causes if there are several.
-/

/-- Why a command fails. -/
inductive CommandError where
  | unreadable (file : String) (error : FileError)
  | unparsable (file : String) (error : ReadError)
  /-- The block, if it is known, cannot be reached from the entry. -/
  | unreachable (block : Option Address) (entry : Address) (error : BuildError)
  | buildFailed (error : BuildError)
  /-- The build does not end. -/
  | unsettled
  | brokenTree (error : DanglingLink)
  | unknownFormat (format : String)
  deriving DecidableEq, Repr

namespace CommandError

/-- The wording of a failure. -/
def message : CommandError → String
  | .unreadable file _ => s!"failed to read graph: {file}"
  | .unparsable file _ => s!"failed to parse graph: {file}"
  | .unreachable block entry _ =>
      let name := (block.map Address.text).getD "?"
      s!"block {name} is not reachable from entry {entry}"
  | .buildFailed _ => "failed to compute dominator tree"
  | .unsettled => "failed to compute dominator tree"
  | .brokenTree error => s!"dominator #{error.index} is not part of the tree"
  | .unknownFormat format =>
      s!"unknown format '{format}' (expected text, json, or dot)"

/-- The wording of the errors behind a failure, the nearest first. -/
def causes : CommandError → List String
  | .unreadable _ error => [error.message]
  | .unparsable _ error => error.message :: error.causes
  | .unreachable _ _ error => [error.reportText]
  | .buildFailed error => [error.reportText]
  | .unsettled => []
  | .brokenTree _ => []
  | .unknownFormat _ => []

/-- The lines that list causes. -/
def causeLines : List String → List String
  | [] => []
  | [cause] => ["", "Caused by:", s!"    {cause}"]
  | causes =>
      ["", "Caused by:"] ++
        causes.zipIdx.map fun cause => s!"    {cause.2}: {cause.1}"

/-- The report on a failure. -/
def report (error : CommandError) : String :=
  String.join
    ((s!"Error: {error.message}" :: causeLines error.causes).map (· ++ "\n"))

end CommandError

end Dominance.Command
