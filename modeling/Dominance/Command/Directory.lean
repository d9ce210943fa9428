import Dominance.Text.Line

namespace Dominance.Command

/-!
# Files and paths

A path is a list of names between slashes; empty names and single dots stay
where they are and two dots lead to the directory above.  A name and a path may
only have so many bytes.  A path that is too long is not followed at all; a name
that is too long ends the way where it stands.

A `Directory` holds files in memory, so that a command can be run without a
disk: whatever lies outside it is an empty directory.
-/

/-- Why a file cannot be read. -/
inductive FileError where
  | notFound
  | notDirectory
  | isDirectory
  | nameTooLong
  | notText
  | other (message : String)
  deriving DecidableEq, Repr

/-- The wording of a file error. -/
def FileError.message : FileError → String
  | .notFound => "No such file or directory (os error 2)"
  | .notDirectory => "Not a directory (os error 20)"
  | .isDirectory => "Is a directory (os error 21)"
  | .nameTooLong => "File name too long (os error 36)"
  | .notText => "stream did not contain valid UTF-8"
  | .other message => message

/-- The names of a path, empty ones included. -/
def pathNames (path : String) : List String :=
  (Text.pieces (· = '/') path.toList).map String.ofList

/-- The number of bytes that a name in a path may have. -/
def nameLimit : Nat := 255

/-- The number of bytes that a path may have. -/
def pathLimit : Nat := 4095

/-- Whether a name in a path stays where it is. -/
def staysPut (name : String) : Bool :=
  name.isEmpty || name == "."

/-- The last name of a path, or the whole path if it does not end in a name. -/
def displayName (path : String) : String :=
  match ((pathNames path).filter fun name => !staysPut name).getLast? with
  | none => path
  | some name => if name = ".." then path else name

/-- A file in a directory: the names that lead to it and its bytes. -/
structure File where
  names : List String
  content : ByteArray

/-- A directory with all files below it. -/
structure Directory where
  files : List File

/-- A place that a path leads to. -/
inductive Place where
  /-- The place in the directory that some names lead to. -/
  | inside (names : List String)
  /-- A directory above the directory. -/
  | outside
  deriving DecidableEq, Repr

/-- The directory above a place. -/
def Place.above : Place → Place
  | .inside [] => .outside
  | .inside (name :: names) => .inside (name :: names).dropLast
  | .outside => .outside

namespace Directory

/-- The directory that holds files at the given paths. -/
def ofPaths (files : List (String × ByteArray)) : Directory where
  files :=
    files.map fun file =>
      { names := (pathNames file.1).filter fun name => !staysPut name
        content := file.2 }

/-- The file that some names lead to; a later file replaces an earlier one. -/
def file? (directory : Directory) (names : List String) : Option File :=
  directory.files.findRev? fun file => file.names = names

/-- Whether some names lead to a file or to a directory that holds one. -/
def holds (directory : Directory) (names : List String) : Bool :=
  directory.files.any fun file => names.isPrefixOf file.names

/-- The file at a place. -/
def fileAt? (directory : Directory) : Place → Option File
  | .inside names => directory.file? names
  | .outside => none

/-- Go on from a place by one name of a path. -/
def step
    (directory : Directory)
    (place : Place)
    (name : String) :
    Except FileError Place :=
  if (directory.fileAt? place).isSome then
    .error .notDirectory
  else if staysPut name then
    .ok place
  else if name = ".." then
    .ok place.above
  else if nameLimit < name.utf8ByteSize then
    .error .nameTooLong
  else
    match place with
    | .outside => .error .notFound
    | .inside names =>
        if directory.holds (names ++ [name]) then
          .ok (.inside (names ++ [name]))
        else
          .error .notFound

/-- Go on from a place by the names of a path. -/
def follow
    (directory : Directory)
    (place : Place) :
    List String → Except FileError Place
  | [] => .ok place
  | name :: rest =>
      match directory.step place name with
      | .error error => .error error
      | .ok next => directory.follow next rest

/-- The place that a path leads to; a path that starts with a slash leads outside. -/
def resolve (directory : Directory) (path : String) : Except FileError Place :=
  if pathLimit < path.utf8ByteSize then
    .error .nameTooLong
  else
    match path.toList with
    | [] => .error .notFound
    | '/' :: _ => directory.follow .outside (pathNames path)
    | _ => directory.follow (.inside []) (pathNames path)

/-- The bytes of the file that a path leads to. -/
def read (directory : Directory) (path : String) : Except FileError ByteArray :=
  match directory.resolve path with
  | .error error => .error error
  | .ok place =>
      match directory.fileAt? place with
      | some file => .ok file.content
      | none => .error .isDirectory

end Directory

/-- The text of some bytes. -/
def decodeText (content : ByteArray) : Except FileError String :=
  match String.fromUTF8? content with
  | some text => .ok text
  | none => .error .notText

end Dominance.Command
