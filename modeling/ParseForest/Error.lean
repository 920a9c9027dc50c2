import ParseForest.Lattice
import ParseForest.Options
import ParseForest.RuleTable.Reader

/-!
# Errors

What can go wrong before a parse: options or thresholds that do not fit, a line that is no rule,
an arc outside its lattice, a file that cannot be read. `Error.message` is the one-line wording;
`Error.detail` shows the parts of an error with their texts in quotes.
-/

namespace ParseForest

inductive FileError
  | notFound
  | isDirectory
  | notDirectory
  | permissionDenied
  | nameTooLong
  | notText
  | other (description : String)
  deriving DecidableEq, Repr

namespace FileError

def parts? : FileError → Option (Nat × String × String)
  | notFound => some (2, "NotFound", "No such file or directory")
  | isDirectory => some (21, "IsADirectory", "Is a directory")
  | notDirectory => some (20, "NotADirectory", "Not a directory")
  | permissionDenied => some (13, "PermissionDenied", "Permission denied")
  | nameTooLong => some (36, "InvalidFilename", "File name too long")
  | notText | other _ => none

def description : FileError → String
  | other description => description
  | _ => "stream did not contain valid UTF-8"

def message (e : FileError) : String :=
  match e.parts? with
  | some (code, _, text) => text ++ " (os error " ++ Number.renderNatural code ++ ")"
  | none => e.description

def detail (e : FileError) : String :=
  match e.parts? with
  | some (code, kind, text) =>
    "Os \x7b code: " ++ Number.renderNatural code ++ ", kind: " ++ kind ++ ", message: " ++
      Text.quote text ++ " \x7d"
  | none => "Error \x7b kind: InvalidData, message: " ++ Text.quote e.description ++ " \x7d"

end FileError

inductive Error
  | config (reason : ConfigError)
  | grammar (line : Nat) (reason : RuleError)
  | lattice (reason : LatticeError)
  | file (reason : FileError)
  deriving DecidableEq, Repr

namespace Error

def message : Error → String
  | config reason => "config error: " ++ reason.message
  | grammar line reason =>
    "grammar error at line " ++ Number.renderNatural line ++ ": " ++ reason.message
  | lattice reason => "lattice error: " ++ reason.message
  | file reason => reason.message

def detail : Error → String
  | config reason => "Config(" ++ Text.quote reason.message ++ ")"
  | grammar line reason =>
    "Grammar \x7b line: " ++ Number.renderNatural line ++ ", message: " ++
      Text.quote reason.message ++ " \x7d"
  | lattice reason => "Lattice(" ++ Text.quote reason.message ++ ")"
  | file reason => "Io(" ++ reason.detail ++ ")"

end Error

def RuleTable.ofBytes {V : Type} [NumberText V] (bytes : ByteArray) : Except Error (RuleTable V) :=
  match String.fromUTF8? bytes with
  | none => .error (.file .notText)
  | some text => (RuleTable.read text).mapError fun (line, reason) => .grammar line reason

end ParseForest
