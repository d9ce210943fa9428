import Dominance.Text.Numeral

namespace Dominance.Command

/-!
# Command lines

A command line is `[OPTION...] COMMAND [OPTION...] FILE`.  The options before
the command and those after it are read by the same rules, level by level:

* an option may be given once on a level, and on the command's level it takes
  precedence over the same option before the command;
* the value of an option stands behind an equals sign or is the next argument,
  which must not look like an option;
* several short options may share one hyphen;
* two hyphens end the options of a command, and before a command nothing may
  follow them.

Asking for the version or for help ends the reading at once.
-/

/-- What is to be computed. -/
inductive Action where
  | tree
  | postorder
  deriving DecidableEq, Repr

/-- A complete command line. -/
structure Request where
  action : Action
  file : String
  format : String
  verbose : Bool
  strict : Bool
  maxPasses : Option Nat
  deriving DecidableEq, Repr

/-- What a command line asks for. -/
inductive Invocation where
  | version
  | help
  | run (request : Request)
  deriving DecidableEq, Repr

/-- An option without a value. -/
inductive Flag where
  | verbose
  | strict
  deriving DecidableEq, Repr

/-- An option with a value. -/
inductive Setting where
  | maxPasses
  | format
  deriving DecidableEq, Repr

/-- A known option. -/
inductive Switch where
  | flag (flag : Flag)
  | setting (setting : Setting)
  | version
  | help
  deriving DecidableEq, Repr

/-- The part of a command line in which an option stands. -/
inductive Level where
  | general
  | command
  deriving DecidableEq, Repr

/-- Why a command line cannot be followed. -/
inductive UsageError where
  | unknownOption (argument : String)
  | unexpectedValue (argument : String)
  | missingValue (argument : String)
  | invalidValue (value : String)
  | repeatedOption (argument : String)
  | missingCommand
  | unknownCommand (argument : String)
  | missingFile
  | unexpectedArgument (argument : String)
  deriving DecidableEq, Repr

/-- The wording of a usage error. -/
def UsageError.message : UsageError → String
  | .unknownOption argument => s!"unknown option '{argument}'"
  | .unexpectedValue argument => s!"option '{argument}' takes no value"
  | .missingValue argument => s!"option '{argument}' needs a value"
  | .invalidValue value => s!"invalid value '{value}'"
  | .repeatedOption argument => s!"option '{argument}' is given twice"
  | .missingCommand => "a command is required"
  | .unknownCommand argument => s!"unknown command '{argument}'"
  | .missingFile => "a file is required"
  | .unexpectedArgument argument => s!"unexpected argument '{argument}'"

/-- The shape of one argument. -/
inductive Shape where
  | terminator
  | long (name : String) (value : Option String)
  | short (letters : List Char)
  | word
  deriving DecidableEq, Repr

/-- The shape of an argument; a lone hyphen is a word. -/
def shape (argument : String) : Shape :=
  match argument.toList with
  | ['-', '-'] => .terminator
  | '-' :: '-' :: rest =>
      let name := String.ofList (rest.takeWhile (· ≠ '='))
      match rest.dropWhile (· ≠ '=') with
      | [] => .long name none
      | _ :: value => .long name (some (String.ofList value))
  | '-' :: letter :: rest => .short (letter :: rest)
  | _ => .word

/-- The option with a long name on a level. -/
def Level.long? : Level → String → Option Switch
  | _, "verbose" => some (.flag .verbose)
  | _, "strict" => some (.flag .strict)
  | _, "max-passes" => some (.setting .maxPasses)
  | .command, "format" => some (.setting .format)
  | .general, "version" => some .version
  | _, "help" => some .help
  | _, _ => none

/-- The option with a short name on a level. -/
def Level.short? : Level → Char → Option Switch
  | _, 'v' => some (.flag .verbose)
  | .general, 'V' => some .version
  | _, 'h' => some .help
  | _, _ => none

/-- The options and words read on one level. -/
structure Options where
  verbose : Bool := false
  strict : Bool := false
  maxPasses : Option Nat := none
  format : Option String := none
  file : Option String := none
  deriving DecidableEq, Repr

namespace Options

/-- Whether a flag is set. -/
def hasFlag (options : Options) : Flag → Bool
  | .verbose => options.verbose
  | .strict => options.strict

/-- Whether a setting has a value. -/
def hasSetting (options : Options) : Setting → Bool
  | .maxPasses => options.maxPasses.isSome
  | .format => options.format.isSome

/-- Set a flag that is not set yet. -/
def setFlag
    (options : Options)
    (argument : String)
    (flag : Flag) :
    Except UsageError Options :=
  if options.hasFlag flag then
    .error (.repeatedOption argument)
  else
    match flag with
    | .verbose => .ok { options with verbose := true }
    | .strict => .ok { options with strict := true }

/-- Give a setting its value if it has none yet. -/
def setSetting
    (options : Options)
    (argument : String)
    (setting : Setting)
    (value : String) :
    Except UsageError Options :=
  if options.hasSetting setting then
    .error (.repeatedOption argument)
  else
    match setting with
    | .format => .ok { options with format := some value }
    | .maxPasses =>
        match Text.readNumeral 10 Text.wordLimit value.toList with
        | .ok limit => .ok { options with maxPasses := some limit }
        | .error _ => .error (.invalidValue value)

/-- Take a word as the file, if there is none yet. -/
def setFile (options : Options) (word : String) : Except UsageError Options :=
  if options.file.isSome then
    .error (.unexpectedArgument word)
  else if word.isEmpty then
    .error (.invalidValue word)
  else
    .ok { options with file := some word }

/-- Take words that follow two hyphens. -/
def setFiles (options : Options) : List String → Except UsageError Options
  | [] => .ok options
  | word :: rest =>
      match options.setFile word with
      | .error error => .error error
      | .ok extended => extended.setFiles rest

end Options

/-- How the reading of options ends. -/
inductive Reading where
  /-- The version or help was asked for. -/
  | answered (invocation : Invocation)
  /-- All arguments of the level are read. -/
  | complete (options : Options)
  /-- A word on the general level names the command. -/
  | command (options : Options) (name : String) (rest : List String)
  deriving DecidableEq, Repr

/-- What one argument of short options does. -/
inductive Letters where
  | answered (invocation : Invocation)
  | continue (options : Options)
  deriving DecidableEq, Repr

/-- Read the letters of an argument of short options. -/
def readLetters
    (level : Level)
    (argument : String)
    (options : Options) :
    List Char → Except UsageError Letters
  | [] => .ok (.continue options)
  | letter :: rest =>
      match level.short? letter with
      | some .version => .ok (.answered .version)
      | some .help => .ok (.answered .help)
      | some (.flag flag) =>
          match options.setFlag argument flag with
          | .error error => .error error
          | .ok extended => readLetters level argument extended rest
      | some (.setting _) => .error (.missingValue argument)
      | none => .error (.unknownOption argument)

/-- Read the arguments of a level. -/
def readLevel
    (level : Level)
    (options : Options) :
    List String → Except UsageError Reading
  | [] => .ok (.complete options)
  | argument :: rest =>
      match shape argument with
      | .terminator =>
          match level with
          | .general => .error .missingCommand
          | .command => (options.setFiles rest).map .complete
      | .word =>
          match level with
          | .general => .ok (.command options argument rest)
          | .command =>
              match options.setFile argument with
              | .error error => .error error
              | .ok extended => readLevel level extended rest
      | .short letters =>
          match readLetters level argument options letters with
          | .error error => .error error
          | .ok (.answered invocation) => .ok (.answered invocation)
          | .ok (.continue extended) => readLevel level extended rest
      | .long name value =>
          match level.long? name, value with
          | none, _ => .error (.unknownOption argument)
          | some .version, none => .ok (.answered .version)
          | some .help, none => .ok (.answered .help)
          | some (.flag flag), none =>
              match options.setFlag argument flag with
              | .error error => .error error
              | .ok extended => readLevel level extended rest
          | some (.setting setting), some value =>
              match options.setSetting argument setting value with
              | .error error => .error error
              | .ok extended => readLevel level extended rest
          | some (.setting setting), none =>
              match rest with
              | [] => .error (.missingValue argument)
              | value :: later =>
                  if shape value = .word then
                    match options.setSetting argument setting value with
                    | .error error => .error error
                    | .ok extended => readLevel level extended later
                  else
                    .error (.missingValue argument)
          | some _, some _ => .error (.unexpectedValue argument)

/-- The command with a name. -/
def Action.ofName? : String → Option Action
  | "tree" => some .tree
  | "postorder" => some .postorder
  | _ => none

/-- The request made by a command with options on both levels. -/
def request
    (action : Action)
    (general command : Options) :
    Except UsageError Request :=
  match command.file with
  | none => .error .missingFile
  | some file =>
      .ok {
        action := action
        file := file
        format := command.format.getD "text"
        verbose := general.verbose || command.verbose
        strict := general.strict || command.strict
        maxPasses := command.maxPasses.or general.maxPasses
      }

/-- Read the arguments of a command. -/
def readCommand
    (general : Options)
    (action : Action)
    (arguments : List String) :
    Except UsageError Invocation :=
  match readLevel .command {} arguments with
  | .error error => .error error
  | .ok (.answered invocation) => .ok invocation
  | .ok (.complete options) => (request action general options).map .run
  | .ok (.command _ name _) => .error (.unexpectedArgument name)

/-- Whether a command has a name; asking for help is a command too. -/
def isCommandName (name : String) : Bool :=
  name == "help" || (Action.ofName? name).isSome

/--
Read the names after the command `help`.

Each name is looked for among the commands of the one before it.  No command has
commands of its own, so a second name is never known.
-/
def readHelp : List String → Except UsageError Invocation
  | [] => .ok .help
  | name :: further =>
      if isCommandName name then
        match further with
        | [] => .ok .help
        | unknown :: _ => .error (.unknownCommand unknown)
      else
        .error (.unknownCommand name)

/-- Read a command line. -/
def readArguments (arguments : List String) : Except UsageError Invocation :=
  match readLevel .general {} arguments with
  | .error error => .error error
  | .ok (.answered invocation) => .ok invocation
  | .ok (.complete _) => .error .missingCommand
  | .ok (.command options name rest) =>
      match Action.ofName? name with
      | some action => readCommand options action rest
      | none =>
          if name = "help" then readHelp rest else .error (.unknownCommand name)

end Dominance.Command
