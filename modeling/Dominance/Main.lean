import Dominance.Command.Run

namespace Dominance.Command

/-!
# The program

The program reads the file that its command line names and prints the response.
-/

/--
The file error for an error of the system.

A path that leads through a file fails when it is opened, and the error names
it; a directory can be opened and fails only when it is read.
-/
def fileError : IO.Error → FileError
  | .noFileOrDirectory .. => .notFound
  | .inappropriateType (some _) _ _ => .notDirectory
  | .inappropriateType none _ _ => .isDirectory
  | .invalidArgument _ _ "name too long" => .nameTooLong
  | error => .other (toString error)

/-- Read a file from disk. -/
def readFromDisk (path : String) : IO (Except FileError ByteArray) := do
  try
    return .ok (← IO.FS.readBinFile path)
  catch error =>
    return .error (fileError error)

/-- The response to a command line, with files read from disk. -/
def respondFromDisk (arguments : List String) : IO Response := do
  match readArguments arguments with
  | .ok (.run request) => return request.respond (← readFromDisk request.file)
  | _ => return run (fun _ => .error .notFound) arguments

end Dominance.Command

/-- Run the command line of the program. -/
def main (arguments : List String) : IO UInt32 := do
  let response ← Dominance.Command.respondFromDisk arguments
  (← IO.getStderr).putStr response.errorOutput
  (← IO.getStdout).putStr response.output
  return response.exitCode.toUInt32
