import ParseForest.RuleTable
import ParseForest.Text.Blank

/-!
# Reading rule tables

A line of a rule table is

    [LHS] ||| source symbols ||| target symbols ||| name=value ... ||| name=value ...

The fields after the source may be left out from the right; without a target the source stands
for both sides. The first list of values holds features, the second one attributes, which are
whole numbers, real numbers or texts in quotes. Two slashes start a comment. Every reader of a
field returns what it read and the rest of the line.
-/

namespace ParseForest

inductive RuleError
  | noLabel (rest : String)
  | noSeparator (lhs : String)
  | malformedSource (token : String)
  | malformedTarget (token : String)
  | noFeature (rest : String)
  | badFeature (name : String) (reason : Number.RealError)
  | noAttribute (rest : String)
  | badAttribute (name value : String)
  | arityMismatch (source target : Nat)
  | inconsistentIndices (rule : String)
  deriving DecidableEq, Repr

namespace RuleError

def labelShape : String := "\\[[^\\[\\]\\s]+\\]"

def featureShape : String := "([^=\\s]+)=(\\S+)"

def attributeShape : String := "([^=\\s]+)=(\"[^\"]*\"|[^\"\\s]+)"

def mismatch (shape rest : String) : String :=
  "couldn't match " ++ shape ++ " at " ++ Text.quote rest

def message : RuleError → String
  | noLabel rest => "rule lhs: non-terminal: " ++ mismatch labelShape rest
  | noSeparator lhs => "expected ||| after " ++ lhs
  | malformedSource token => "rule source: malformed non-terminal " ++ token
  | malformedTarget token => "rule target: malformed non-terminal " ++ token
  | noFeature rest => "feature: " ++ mismatch featureShape rest
  | badFeature name reason => "feature " ++ name ++ ": " ++ reason.message
  | noAttribute rest => "attribute: " ++ mismatch attributeShape rest
  | badAttribute name value => "attribute " ++ name ++ ": bad value " ++ value
  | arityMismatch source target =>
    "source has " ++ Number.renderNatural source ++ " non-terminals but target has " ++
      Number.renderNatural target
  | inconsistentIndices rule => "inconsistent non-terminal indices in " ++ rule

end RuleError

namespace RuleReader

open Text

variable {V : Type}

def separator : List Char := ['|', '|', '|']

def afterSeparator? (cs : List Char) : Option (List Char) := afterLead? separator cs

def fieldEnds (cs : List Char) : Bool := cs.isEmpty || (afterSeparator? cs).isSome

def isLabelChar (c : Char) : Bool := c != '[' && c != ']' && !isBlank c

def readLabel (cs : List Char) : Except RuleError (Symbol × List Char) :=
  match cs with
  | '[' :: rest =>
    match rest.span isLabelChar with
    | (c :: name, ']' :: rest) => .ok (Symbol.bracket (c :: name), rest)
    | _ => .error (.noLabel (String.ofList cs))
  | _ => .error (.noLabel (String.ofList cs))

def isMalformed (token : List Char) : Bool :=
  token.head? == some '[' && !(Symbol.ofChars token).isNonTerminal

/-- The symbols up to the end of the field, or the first malformed token. The text begins with no
blank; `fuel` bounds the number of symbols. -/
def readSymbolsFrom : (fuel : Nat) → List Char → Except String (List Symbol × List Char)
  | 0, cs => .ok ([], cs)
  | fuel + 1, cs =>
    if fieldEnds cs then .ok ([], cs)
    else
      let (token, rest) := spanWord cs
      if isMalformed token then .error (String.ofList token)
      else do
        let (symbols, rest) ← readSymbolsFrom fuel (skipBlanks rest)
        .ok (Symbol.ofChars token :: symbols, rest)

def readSymbols (cs : List Char) : Except String (List Symbol × List Char) :=
  -- every symbol takes a character, so the length of the text is fuel enough
  readSymbolsFrom cs.length (skipBlanks cs)

def readName? (cs : List Char) : Option (String × List Char) :=
  match cs.span fun c => c != '=' && !isBlank c with
  | (c :: name, '=' :: rest) => some (String.ofList (c :: name), rest)
  | _ => none

/-- The features up to the end of the field, put into `features`. Equals signs before a value are
skipped; `fuel` bounds the number of features. -/
def readFeaturesFrom [NumberText V] :
    (fuel : Nat) → FeatureVector V → List Char → Except RuleError (FeatureVector V × List Char)
  | 0, features, cs => .ok (features, cs)
  | fuel + 1, features, cs =>
    if fieldEnds cs then .ok (features, cs)
    else
      match readName? cs with
      | none => .error (.noFeature (String.ofList cs))
      | some (name, rest) =>
        let (value, rest) := spanWord rest
        if value.isEmpty then .error (.noFeature (String.ofList cs))
        else
          match NumberText.read (value.dropWhile (· == '=')) with
          | .error reason => .error (.badFeature name reason)
          | .ok x => readFeaturesFrom fuel (features.insert name x) (skipBlanks rest)

def readFeatures [NumberText V] (cs : List Char) :
    Except RuleError (FeatureVector V × List Char) :=
  readFeaturesFrom cs.length NameMap.empty (skipBlanks cs)

def readPlainValue? [NumberText V] (cs : List Char) : Option (AttributeValue V) :=
  match Number.readInteger? (Nat.pow 2 63) cs with
  | some i => some (.int i)
  | none =>
    match NumberText.read cs with
    | .ok x => some (.real x)
    | .error _ => none

/-- One attribute: its name, its value and the rest. A text runs from one quote to the next. -/
def readAttribute [NumberText V] (cs : List Char) :
    Except RuleError ((String × AttributeValue V) × List Char) :=
  match readName? cs with
  | none => .error (.noAttribute (String.ofList cs))
  | some (name, '"' :: rest) =>
    match rest.span (· != '"') with
    | (text, '"' :: rest) => .ok ((name, .text (String.ofList text)), rest)
    | _ => .error (.noAttribute (String.ofList cs))
  | some (name, rest) =>
    match rest.span fun c => c != '"' && !isBlank c with
    | ([], _) => .error (.noAttribute (String.ofList cs))
    | (value, rest) =>
      match readPlainValue? value with
      | some v => .ok ((name, v), rest)
      | none => .error (.badAttribute name (String.ofList value))

def readAttributesFrom [NumberText V] :
    (fuel : Nat) → AttributeVector V → List Char → Except RuleError (AttributeVector V)
  | 0, attributes, _ => .ok attributes
  | fuel + 1, attributes, cs =>
    if cs.isEmpty then .ok attributes
    else do
      let ((name, value), rest) ← readAttribute cs
      readAttributesFrom fuel (attributes.insert name value) (skipBlanks rest)

def readAttributes [NumberText V] (cs : List Char) : Except RuleError (AttributeVector V) :=
  readAttributesFrom cs.length NameMap.empty (skipBlanks cs)

def consistentIndices (r : Rule) : Bool :=
  r.tailPositions.mergeSort (· ≤ ·) == List.range r.arity

/-- Refuses sides that differ in their number of non-terminals or whose indices do not name each
tail once. -/
def checkAlignment (source target : Rule) : Except RuleError Unit :=
  if source.arity ≠ target.arity then .error (.arityMismatch source.arity target.arity)
  else if !consistentIndices source then .error (.inconsistentIndices source.render)
  else if !consistentIndices target then .error (.inconsistentIndices target.render)
  else .ok ()

def readPair [NumberText V] (cs : List Char) : Except RuleError (RulePair V) := do
  let (lhs, rest) ← readLabel (skipBlanks cs)
  let some rest := afterSeparator? (skipBlanks rest) | .error (.noSeparator lhs.text)
  let (source, rest) ← (readSymbols rest).mapError .malformedSource
  let (target, rest) ←
    match afterSeparator? rest with
    -- without a target the source stands for both sides
    | none => .ok (source, rest)
    | some rest => (readSymbols rest).mapError .malformedTarget
  let (features, rest) ←
    match afterSeparator? rest with
    | none => .ok (NameMap.empty, rest)
    | some rest => readFeatures rest
  let attributes ←
    match afterSeparator? rest with
    | none => .ok NameMap.empty
    | some rest => readAttributes rest
  let source : Rule := ⟨lhs, source⟩
  let target : Rule := ⟨lhs, target⟩
  checkAlignment source target
  .ok ⟨source, target, features, attributes⟩

def content (line : List Char) : List Char := trim (beforeMark ['/', '/'] line)

def readLines [NumberText V] (t : RuleTable V) :
    List (List Char × Nat) → Except (Nat × RuleError) (RuleTable V)
  | [] => .ok t
  | (line, number) :: rest =>
    if (content line).isEmpty then readLines t rest
    else
      match readPair (content line) with
      | .error e => .error (number, e)
      | .ok pair => readLines (t.insert pair) rest

end RuleReader

def RuleTable.read {V : Type} [NumberText V] (text : String) :
    Except (Nat × RuleError) (RuleTable V) :=
  RuleReader.readLines RuleTable.empty ((Text.lines text.toList).zipIdx 1)

end ParseForest
