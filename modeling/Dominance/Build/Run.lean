import Dominance.Build.Config
import Dominance.Build.Index
import Dominance.Build.Pass
import Dominance.Tree.Query

namespace Dominance

/-!
# Building dominator trees

Passes are repeated until one of them changes nothing.  If there is a limit on
the passes it is looked at before each of them, so the pass that changes nothing
counts as well.

A host that keeps changing its answers may keep a build without a limit busy
for ever.  `Host.build?` therefore takes the number of rounds after which it
gives up and has no outcome.  For a host that settles there is a number that
cannot be too small: once it has settled a pass depends on the links alone, so a
run that lasts longer than there are ways to link the indices repeats itself.
-/

/-- What comes out of a build. -/
structure Outcome where
  result : Except BuildError DominatorTree
  /-- The number of questions that the host was asked. -/
  questions : Nat
  log : List LogRecord

namespace Progress

/-- Whether the passes made so far use up a limit. -/
def reachesLimit (progress : Progress) : Option Nat → Option Nat
  | none => none
  | some limit => if limit ≤ progress.passes then some limit else none

/-- Make passes until one changes nothing, in a bounded number of rounds. -/
def settle?
    (host : Host)
    (limit : Option Nat) :
    Nat → Progress → Option (Except Failure Progress)
  | 0, _ => none
  | rounds + 1, progress =>
      if progress.changed then
        match progress.reachesLimit limit with
        | some reached => some (.error ⟨.passLimit reached, progress⟩)
        | none =>
            match progress.pass host with
            | .error failure => some (.error failure)
            | .ok next => settle? host limit rounds next
      else
        some (.ok progress)

/-- The finished tree. -/
def finished (progress : Progress) : DominatorTree :=
  progress.tree.setPasses progress.passes

/-- The outcome of a build that has settled. -/
def outcome (config : BuildConfig) (progress : Progress) : Outcome where
  result :=
    if config.verifyResult then
      match progress.finished.fault? with
      | some fault => .error (.invalidTree fault)
      | none => .ok progress.finished
    else
      .ok progress.finished
  questions := progress.questions
  log :=
    progress.log.toList ++
      [.converged progress.tree.size progress.finished.entry progress.passes]

end Progress

/-- The outcome of a build that has failed. -/
def Failure.outcome (failure : Failure) : Outcome where
  result := .error failure.cause
  questions := failure.progress.questions
  log := failure.progress.log.toList

namespace Host

/-- Build the dominator tree of a host in a bounded number of rounds. -/
def build? (host : Host) (config : BuildConfig) (rounds : Nat) : Option Outcome :=
  match host.index with
  | .error error => some ⟨.error error, 0, []⟩
  | .ok tree =>
      match (Progress.start tree).settle? host config.maxPasses rounds with
      | none => none
      | some (.error failure) => some failure.outcome
      | some (.ok progress) => some (progress.outcome config)

/--
Rounds that suffice for a host that settles at some time, if any number does.

With a limit one more round than there are passes is enough.  Without one, each
index has no link or one of as many links as there are nodes.
-/
def sufficientRounds
    (host : Host)
    (time : Nat) :
    Option Nat → Nat
  | some limit => limit + 1
  | none => time + Nat.pow (host.nodes.length + 1) host.nodes.length + 2

end Host

/-- Build the dominator tree of a host that is given by tables. -/
def HostTable.build? (table : HostTable) (config : BuildConfig) : Option Outcome :=
  table.host.build? config
    (table.host.sufficientRounds table.settlingTime config.maxPasses)

namespace FlowGraph

/-- Build the dominator tree of a flow graph. -/
def build? (graph : FlowGraph) (config : BuildConfig) : Option Outcome :=
  graph.host.build? config (graph.host.sufficientRounds 0 config.maxPasses)

/-- Build the dominator trees of several flow graphs. -/
def buildAll
    (config : BuildConfig)
    (graphs : List FlowGraph) :
    List (Option Outcome) :=
  graphs.map fun graph => graph.build? config

end FlowGraph

end Dominance
