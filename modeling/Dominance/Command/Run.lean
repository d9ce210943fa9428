import Dominance.Build.Run
import Dominance.Command.Arguments
import Dominance.Command.Error
import Dominance.Graph.Picture
import Dominance.Report.Postorder
import Dominance.Report.Tree
import Dominance.Tree.Picture

namespace Dominance.Command

/-!
# Running commands

A command reads one file, numbers the graph in it and prints a report.  Log
records go to the error output before anything else: warnings always and
details on request.  The format is looked at last, when everything that could
fail before has been done.
-/

/-- What a command prints, and how it ends. -/
structure Response where
  exitCode : Nat
  output : String := ""
  errorOutput : String := ""
  deriving DecidableEq, Repr

/-- The form of a report. -/
inductive Format where
  | text
  | json
  | dot
  deriving DecidableEq, Repr

/-- The form with a name. -/
def Format.ofName (name : String) : Except CommandError Format :=
  if name = "text" then
    .ok .text
  else if name = "json" then
    .ok .json
  else if name = "dot" then
    .ok .dot
  else
    .error (.unknownFormat name)

namespace Request

/-- The settings of the build that is asked for. -/
def buildConfig (request : Request) : BuildConfig :=
  { verifyResult := request.strict
    maxPasses := request.maxPasses }

/-- The name under which reports show the file. -/
def title (request : Request) : String :=
  displayName request.file

/-- Read the text of the file. -/
def readText
    (request : Request)
    (content : Except FileError ByteArray) :
    Except CommandError String :=
  match content with
  | .error error => .error (.unreadable request.file error)
  | .ok bytes =>
      match decodeText bytes with
      | .error error => .error (.unreadable request.file error)
      | .ok text => .ok text

/-- Number a graph, and warn of blocks that the entry does not reach. -/
def numberGraph (graph : FlowGraph) : Logged FlowGraph where
  value := graph.number.value
  log :=
    graph.number.log ++
      if 0 < graph.unreachableCount then
        [.notReached graph.unreachableCount graph.size graph.entry]
      else
        []

/-- Read and number the graph of the file. -/
def loadGraph
    (request : Request)
    (content : Except FileError ByteArray) :
    Logged (Except CommandError FlowGraph) :=
  match request.readText content with
  | .error error => { value := .error error }
  | .ok text =>
      let loaded := EdgeList.load text
      match loaded.value with
      | .error error =>
          { value := .error (.unparsable request.file error), log := loaded.log }
      | .ok graph =>
          let numbered := numberGraph graph
          { value := .ok numbered.value, log := loaded.log ++ numbered.log }

/-- The block of a graph with a postorder index. -/
def blockAt? (graph : FlowGraph) (index : Nat) : Option Address :=
  (graph.nodes.find? fun node => node.postorder = some index).map fun node =>
    node.address

/-- The failure of a command whose build fails. -/
def buildFailure (graph : FlowGraph) : BuildError → CommandError
  | .unresolvable index =>
      .unreachable (blockAt? graph index) graph.entry (.unresolvable index)
  | error => .buildFailed error

/-- Build the tree of a graph. -/
def buildTree
    (request : Request)
    (graph : FlowGraph) :
    Logged (Except CommandError DominatorTree) :=
  match graph.build? request.buildConfig with
  | none => { value := .error .unsettled }
  | some outcome =>
      { value :=
          match outcome.result with
          | .error error => .error (buildFailure graph error)
          | .ok tree => .ok tree
        log := outcome.log }

/-- The report on a tree in the form asked for. -/
def treeReport
    (request : Request)
    (tree : DominatorTree) :
    Except CommandError String :=
  match Format.ofName request.format with
  | .error error => .error error
  | .ok format =>
      let report : Except DanglingLink String :=
        match format with
        | .text =>
            (Report.TreeReport.ofTree request.title tree).map Report.TreeReport.plainText
        | .json =>
            (Report.TreeReport.ofTree request.title tree).map Report.TreeReport.jsonText
        | .dot => tree.dotText (some request.title)
      match report with
      | .error error => .error (.brokenTree error)
      | .ok text => .ok text

/-- The report on a numbering in the form asked for. -/
def postorderReport
    (request : Request)
    (graph : FlowGraph) :
    Except CommandError String :=
  match Format.ofName request.format with
  | .error error => .error error
  | .ok .text => .ok (Report.PostorderReport.ofGraph request.title graph).plainText
  | .ok .json => .ok (Report.PostorderReport.ofGraph request.title graph).jsonText
  | .ok .dot => .ok (graph.dotText (some request.title))

/-- The report that is asked for, given the content of the file. -/
def report
    (request : Request)
    (content : Except FileError ByteArray) :
    Logged (Except CommandError String) :=
  let loaded := request.loadGraph content
  match loaded.value with
  | .error error => { value := .error error, log := loaded.log }
  | .ok graph =>
      match request.action with
      | .postorder => { value := request.postorderReport graph, log := loaded.log }
      | .tree =>
          let built := request.buildTree graph
          { value :=
              match built.value with
              | .error error => .error error
              | .ok tree => request.treeReport tree
            log := loaded.log ++ built.log }

/-- Whether a record is shown. -/
def shows (request : Request) (record : LogRecord) : Bool :=
  match record.level with
  | .warn => true
  | .debug => request.verbose
  | .trace => false

/-- The line of a log record. -/
def logLine (record : LogRecord) : String :=
  match record.level with
  | .warn => s!"[WARN ] {record.message}\n"
  | .debug => s!"[DEBUG] {record.message}\n"
  | .trace => s!"[TRACE] {record.message}\n"

/-- Run a command, given the content of its file. -/
def respond
    (request : Request)
    (content : Except FileError ByteArray) :
    Response :=
  let report := request.report content
  let log := String.join ((report.log.filter request.shows).map logLine)
  match report.value with
  | .ok text => { exitCode := 0, output := text, errorOutput := log }
  | .error error => { exitCode := 1, errorOutput := log ++ error.report }

end Request

/-- The answer to the question for the version. -/
def versionText : String := "cfgdom 0.1.0\n"

/-- The answer to the question for help. -/
def helpText : String :=
  String.join
    [ "Dominator trees for control flow graphs\n\n"
    , "Usage: cfgdom [OPTIONS] <COMMAND> <FILE> [--format <FORMAT>]\n\n"
    , "Commands:\n"
    , "  tree       Compute and print the dominator tree of a graph\n"
    , "  postorder  Print the postorder numbering of a graph\n\n"
    , "Options:\n"
    , "  -v, --verbose         Print more log records\n"
    , "      --strict          Verify the dominator tree\n"
    , "      --max-passes <N>  Limit the passes of the computation\n"
    , "  -h, --help            Print help\n"
    , "  -V, --version         Print the version\n" ]

/-- The response to a command line that cannot be followed. -/
def UsageError.respond (error : UsageError) : Response where
  exitCode := 2
  errorOutput := s!"error: {error.message}\n"

/-- Run a command line, given a way to read files. -/
def run
    (readFile : String → Except FileError ByteArray)
    (arguments : List String) :
    Response :=
  match readArguments arguments with
  | .error error => error.respond
  | .ok .version => { exitCode := 0, output := versionText }
  | .ok .help => { exitCode := 0, output := helpText }
  | .ok (.run request) => request.respond (readFile request.file)

end Dominance.Command
