import ParseForest.Cli

/-!
# The program

Reads the grammar files named by the arguments, then answers sentences from standard input until
it ends.
-/

namespace ParseForest.Cli

def fileErrorOf : IO.Error → FileError
  | .noFileOrDirectory .. => .notFound
  | .inappropriateType _ 20 _ => .notDirectory
  | .inappropriateType .. => .isDirectory
  | .permissionDenied .. => .permissionDenied
  | .invalidArgument _ 36 _ => .nameTooLong
  | e => .other (toString e)

def readFile (path : String) : IO (Except FileError ByteArray) := do
  try
    return .ok (← IO.FS.readBinFile path)
  catch e =>
    return .error (fileErrorOf e)

def readFiles (arguments : List String) : IO (List (String × Except FileError ByteArray)) :=
  match Request.ofArguments arguments with
  | .ok (.parse command) => command.grammars.mapM fun path => do return (path, ← readFile path)
  | _ => return []

partial def converse (session : Session) : IO Unit := do
  let stdout ← IO.getStdout
  stdout.putStr prompt
  stdout.flush
  let line ← (← IO.getStdin).getLine
  if line.isEmpty then return
  stdout.putStr (session.answer line)
  converse session

end ParseForest.Cli

open ParseForest.Cli in
def main (arguments : List String) : IO UInt32 := do
  let program := (← IO.appPath).toString
  let files ← readFiles arguments
  let read path := (files.lookup path).getD (.error .notFound)
  match start program arguments read with
  | .error outcome =>
    IO.print outcome.stdout
    IO.eprint outcome.stderr
    return outcome.code.toUInt32
  | .ok session =>
    converse session
    return 0
