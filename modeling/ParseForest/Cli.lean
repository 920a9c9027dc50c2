import ParseForest.Cascade
import ParseForest.Error
import ParseForest.Hypergraph.Inside
import ParseForest.Hypergraph.Unbinarized

/-!
# The command line

The arguments name grammar files from the coarsest to the finest and set options. The program then
reads sentences, a line each, and answers with the forest of each sentence and the score of its
best derivation. Everything here is pure: `start` decides what the arguments and files lead to,
`Session.answer` what is printed for a line, and `run` puts a whole session together.
-/

namespace ParseForest.Cli

structure Command where
  grammars : List String
  options : Options Float
  thresholds : List Float
  unbinarize : Bool
  quiet : Bool

inductive UsageError
  | missingOptions
  | badOptions (reason : ConfigError)
  | missingThresholds
  | badThreshold (reason : Number.RealError)
  | unknownFlag
  | missingGrammar
  deriving DecidableEq, Repr

def UsageError.message : UsageError → String
  | .missingOptions => "missing parse options"
  | .badOptions reason => (Error.config reason).message
  | .missingThresholds => "missing thresholds"
  | .badThreshold reason => "bad threshold: " ++ reason.message
  | .unknownFlag => "invalid arguments"
  | .missingGrammar => "missing grammar"

inductive Request
  | help
  | parse (command : Command)

def usage (program : String) : String :=
  "\n".intercalate [
    "Usage: " ++ program ++ " GRAMMAR... [options]",
    "",
    "Grammars are ordered from coarsest to finest. With more than one grammar,",
    "every grammar but the finest prunes the next one.",
    "",
    "Options:",
    "  -h, --help                  Print this message",
    "  -o, --options OPTIONS       Parse options, e.g. 'goal=[ROOT],yield=source'",
    "  -t, --thresholds T1,T2,...  Posterior thresholds, one per coarse grammar",
    "  -d, --debinarize            Merge binarized nodes back into their parents",
    "  -q, --quiet                 Only print the score of each forest",
    "",
    "Set RUST_LOG (e.g. RUST_LOG=hyperchart=debug) to trace the parser."]

def readThresholds (text : String) : Except Number.RealError (List Float) :=
  (text.toList.splitOnP (· == ',')).mapM fun part => Number.readReal (Text.trim part)

/-- The command after all arguments. A single threshold serves for every coarse grammar. -/
def finish (c : Command) : Except UsageError Request :=
  match c.grammars, c.thresholds with
  | [], _ => .error .missingGrammar
  -- three grammars or more: the threshold is repeated for all but the finest
  | _ :: _ :: more@(_ :: _), [t] =>
    .ok (.parse { c with thresholds := List.replicate (more.length + 1) t })
  | _, _ => .ok (.parse c)

/-- Reads arguments from the left into a command. Asking for help ends the reading, and so does
the first error. -/
def readArguments (c : Command) : List String → Except UsageError Request
  | [] => finish c
  | "-h" :: _ | "--help" :: _ => .ok .help
  | "-d" :: rest | "--debinarize" :: rest => readArguments { c with unbinarize := true } rest
  | "-q" :: rest | "--quiet" :: rest => readArguments { c with quiet := true } rest
  | ["-o"] | ["--options"] => .error .missingOptions
  | "-o" :: text :: rest | "--options" :: text :: rest =>
    match Options.standard.read text with
    | .error reason => .error (.badOptions reason)
    | .ok options => readArguments { c with options } rest
  | ["-t"] | ["--thresholds"] => .error .missingThresholds
  | "-t" :: text :: rest | "--thresholds" :: text :: rest =>
    match readThresholds text with
    | .error reason => .error (.badThreshold reason)
    | .ok thresholds => readArguments { c with thresholds } rest
  | argument :: rest =>
    if argument.toList.head? == some '-' then .error .unknownFlag
    else readArguments { c with grammars := c.grammars ++ [argument] } rest

def Request.ofArguments (arguments : List String) : Except UsageError Request :=
  readArguments ⟨[], Options.standard, [], false, false⟩ arguments

structure Outcome where
  code : Nat
  stdout : String
  stderr : String
  deriving DecidableEq, Repr

def Outcome.ofUsageError (program : String) (e : UsageError) : Outcome :=
  ⟨255, "", "argument error: " ++ e.message ++ ".\n\n" ++ usage program ++ "\n"⟩

def Outcome.ofError (e : Error) : Outcome := ⟨1, "", "Error: " ++ e.detail ++ "\n"⟩

structure Session where
  cascade : Cascade Float MaxProduct
  unbinarize : Bool
  quiet : Bool

namespace Session

def ofCommand (read : String → Except FileError ByteArray) (c : Command) :
    Except Error Session := do
  let grammars ← c.grammars.mapM fun path => do
    let table ← RuleTable.ofBytes (← (read path).mapError .file)
    .ok [table]
  let cascade ← (Cascade.ofGrammars grammars c.thresholds Weighting.uniform c.options).mapError
    .config
  .ok ⟨cascade, c.unbinarize, c.quiet⟩

def counted (n : Nat) (noun : String) : String :=
  Number.renderNatural n ++ " " ++ noun ++ (if n = 1 then "" else "s")

def report (s : Session) (g : Hypergraph Float) : String :=
  if g.isValid then
    let best : MaxProduct := g.inside Weighting.uniform
    "Parsed " ++ counted g.nodes.size "node" ++ ", " ++ counted g.edges.size "edge" ++ "\n" ++
      (if s.quiet then "" else g.render ++ "\n") ++
      "viterbi: " ++ Number.renderReal best.value ++ "\n"
  else "No parse\n"

def answer (s : Session) (line : String) : String :=
  let sentence := Text.trim line.toList
  if sentence.isEmpty then ""
  else
    let graph := (s.cascade.parse (Lattice.read (String.ofList sentence))).graph
    s.report (if s.unbinarize then graph.unbinarized else graph)

end Session

def prompt : String := "> "

def start (program : String) (arguments : List String)
    (read : String → Except FileError ByteArray) : Except Outcome Session :=
  match Request.ofArguments arguments with
  | .error e => .error (.ofUsageError program e)
  | .ok .help => .error ⟨0, usage program ++ "\n", ""⟩
  | .ok (.parse command) => (Session.ofCommand read command).mapError Outcome.ofError

def inputLines (input : String) : List String :=
  let parts := Text.lines input.toList
  (if parts.getLast? = some [] then parts.dropLast else parts).map String.ofList

def run (program : String) (arguments : List String)
    (read : String → Except FileError ByteArray) (input : String) : Outcome :=
  match start program arguments read with
  | .error outcome => outcome
  | .ok session =>
    let answers := (inputLines input).map fun line => prompt ++ session.answer line
    ⟨0, String.join answers ++ prompt, ""⟩

end ParseForest.Cli
