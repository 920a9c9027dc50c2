import ParseForest.Number.Scalar
import ParseForest.Symbol
import ParseForest.Text.Blank
import ParseForest.Text.Quoted

/-!
# Parse options

Options are written as `key=value` fields between commas, such as
`goal=[S],yield=source,treebank=true,max-relax=4`. Fields of blanks are skipped, blanks around
keys and values do not count, and a later field overrides an earlier one of its key.
-/

namespace ParseForest

inductive ConfigError
  | malformedOption (field : String)
  | goalNotNonTerminal (goal : String)
  | unknownYield (side : String)
  | notBoolean (key value : String)
  | notNumber (key value : String)
  | decayOutOfRange (decay : String)
  | unknownOption (key : String)
  | noGrammar
  | thresholdCount (grammars thresholds : Nat)
  | invalidThreshold (threshold : String)
  deriving DecidableEq, Repr

def ConfigError.message : ConfigError → String
  | .malformedOption field => "malformed option " ++ Text.quote field
  | .goalNotNonTerminal goal => "goal must be a non-terminal, got " ++ goal
  | .unknownYield side => "unknown yield: " ++ side
  | .notBoolean key value => key ++ ": expected a boolean, got " ++ value
  | .notNumber key value => key ++ ": expected a number, got " ++ value
  | .decayOutOfRange decay => "decay must lie in (0, 1), got " ++ decay
  | .unknownOption key => "unknown option: " ++ key
  | .noGrammar => "no grammar to parse with"
  | .thresholdCount grammars thresholds =>
    Number.renderNatural grammars ++ " grammars need " ++ Number.renderNatural (grammars - 1) ++
      " thresholds, got " ++ Number.renderNatural thresholds
  | .invalidThreshold threshold => "invalid threshold " ++ threshold

/-- How a parser works: the label to derive, the rule side to put on edges, whether words are
consumed in spans of length 1 only, whether lattice words carry a part-of-speech tag, after how
many rounds without a new label the unary closures of the forest parser and of the scoring parser
stop, and how thresholds are relaxed after a failed round. -/
structure Options (V : Type) where
  goal : Symbol
  yieldSource : Bool
  treebank : Bool
  posMode : Bool
  forestStagnation : Nat
  scoreStagnation : Nat
  decay : V
  maxRelaxations : Nat

namespace Options

variable {V : Type}

def ofGoal (decay : V) (goal : Symbol) : Options V where
  goal
  yieldSource := false
  treebank := false
  posMode := false
  forestStagnation := 1
  scoreStagnation := 4
  decay
  maxRelaxations := 8

def defaultGoal : Symbol := ⟨"[S]"⟩

def defaultDecay : Float := 0.1

def standard : Options Float := ofGoal defaultDecay defaultGoal

def isKeyChar (c : Char) : Bool := c.isLower || c == '-'

def splitField? (field : List Char) : Option (List Char × List Char) :=
  match (Text.skipBlanks field).span isKeyChar with
  | ([], _) => none
  | (key, rest) =>
    match Text.skipBlanks rest with
    | '=' :: value => some (key, Text.trim value)
    | _ => none

def readBoolean (key value : String) : Except ConfigError Bool :=
  match String.ofList (value.toList.map Char.toLower) with
  | "true" | "yes" | "1" => .ok true
  | "false" | "no" | "0" => .ok false
  | _ => .error (.notBoolean key value)

def readCount (key value : String) : Except ConfigError Nat :=
  match Number.readNatural? Number.wordLimit value.toList with
  | some n => .ok n
  | none => .error (.notNumber key value)

def readDecay [Scalar V] [NumberText V] (key value : String) : Except ConfigError V :=
  match NumberText.read value.toList with
  | .error _ => .error (.notNumber key value)
  | .ok decay =>
    if Scalar.less Scalar.zero decay && Scalar.less decay (Scalar.one : V) then .ok decay
    else .error (.decayOutOfRange (NumberText.render decay))

def readGoal (value : String) : Except ConfigError Symbol :=
  if (Symbol.mk value).isNonTerminal then .ok ⟨value⟩ else .error (.goalNotNonTerminal value)

def readYield (value : String) : Except ConfigError Bool :=
  match value with
  | "source" => .ok true
  | "target" => .ok false
  | _ => .error (.unknownYield value)

def setField [Scalar V] [NumberText V] (o : Options V) (key value : String) :
    Except ConfigError (Options V) :=
  match key with
  | "goal" => (readGoal value).map fun goal => { o with goal }
  | "yield" => (readYield value).map fun yieldSource => { o with yieldSource }
  | "treebank" => (readBoolean key value).map fun treebank => { o with treebank }
  | "pos-mode" | "pos" => (readBoolean key value).map fun posMode => { o with posMode }
  | "unary-stagnation" =>
    (readCount key value).map fun forestStagnation => { o with forestStagnation }
  | "closure-stagnation" =>
    (readCount key value).map fun scoreStagnation => { o with scoreStagnation }
  | "max-relax" => (readCount key value).map fun maxRelaxations => { o with maxRelaxations }
  | "decay" => (readDecay key value).map fun decay => { o with decay }
  | _ => .error (.unknownOption key)

/-- Reads one field into the options; a field of blanks changes nothing. -/
def readField [Scalar V] [NumberText V] (o : Options V) (field : List Char) :
    Except ConfigError (Options V) :=
  if (Text.trim field).isEmpty then .ok o
  else
    match splitField? field with
    | none => .error (.malformedOption (String.ofList (Text.trim field)))
    | some (key, value) => o.setField (String.ofList key) (String.ofList value)

def read [Scalar V] [NumberText V] (o : Options V) (text : String) :
    Except ConfigError (Options V) :=
  (text.toList.splitOnP (· == ',')).foldlM readField o

end Options

end ParseForest
