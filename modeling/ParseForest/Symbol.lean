import ParseForest.Number.Whole
import ParseForest.Text.Split

/-!
# Grammar symbols

A symbol is a word or a non-terminal. A non-terminal stands in square brackets: a category, then
perhaps `@` and a latent annotation, then perhaps a comma and an index that links it to a
non-terminal of another rule side. A `^` in the category marks a label made by binarization. A
word may carry a part-of-speech tag after a bar.

`Symbol.split?` reads the brackets and the index; `category`, `index` and `unindexed` are its
parts. `coarse` keeps the lowest bits of a latent annotation.
-/

namespace ParseForest

structure Symbol where
  text : String
  deriving DecidableEq, Hashable, Repr, Inhabited

namespace Symbol

def ofChars (cs : List Char) : Symbol := ⟨String.ofList cs⟩

def epsilon : Symbol := ⟨"<epsilon>"⟩

def goal : Symbol := ⟨"[goal]"⟩

def bracket (cs : List Char) : Symbol := ofChars ('[' :: cs ++ [']'])

def inside? (s : Symbol) : Option (List Char) :=
  match s.text.toList with
  | '[' :: rest => if rest.getLast? = some ']' then some rest.dropLast else none
  | _ => none

def isNonTerminal (s : Symbol) : Bool := s.inside?.isSome

def isTerminal (s : Symbol) : Bool := !s.isNonTerminal

def isEpsilon (s : Symbol) : Bool := s == epsilon

/-- The category and the index of the characters between brackets. The index is a number after
the last comma; it is 0 when no number stands there. -/
def splitIndex (cs : List Char) : List Char × Nat :=
  match Text.splitLast? ',' cs with
  | some (before, after) =>
    match Number.readNatural? Number.wordLimit after with
    | some n => (before, n)
    | none => (cs, 0)
  | none => (cs, 0)

def split? (s : Symbol) : Option (List Char × Nat) := s.inside?.map splitIndex

def category (s : Symbol) : List Char :=
  match s.split? with
  | some (cs, _) => cs
  | none => s.text.toList

def index (s : Symbol) : Nat :=
  match s.split? with
  | some (_, n) => n
  | none => 0

/-- The symbol without its index. An index of 0 is no index and stays in place. -/
def unindexed (s : Symbol) : Symbol :=
  match s.split? with
  | some (cs, n) => if n = 0 then s else bracket cs
  | none => s

def withIndex (s : Symbol) (n : Nat) : Symbol := bracket (s.category ++ ',' :: Number.digits n)

def isBinarized (s : Symbol) : Bool := s.isNonTerminal && s.category.contains '^'

def lowBits (bits n : Nat) : Nat := if 64 ≤ bits then n else n % Nat.pow 2 bits

def coarseCategory? (bits : Nat) (cs : List Char) : Option (List Char) :=
  match Text.splitLast? '@' cs with
  | some (before, after) =>
    (Number.readNatural? Number.wordLimit after).map fun latent =>
      if bits = 0 then before else before ++ '@' :: Number.digits (lowBits bits latent)
  | none => none

/-- The non-terminal with its latent annotation cut down to its lowest `bits` bits, without its
index. Words stay as they are. -/
def coarse (s : Symbol) (bits : Nat) : Symbol :=
  if s.isNonTerminal then
    match coarseCategory? bits s.category with
    | some cs => bracket cs
    | none => s.unindexed
  else s

/-- A word without its part-of-speech tag. A bar at the very beginning starts no tag. -/
def word (s : Symbol) : Symbol :=
  if s.isNonTerminal then s
  else
    match Text.splitLast? '|' s.text.toList with
    | some (before, _) => if before.isEmpty then s else ofChars before
    | none => s

def precedes (a b : Symbol) : Bool := a.text < b.text

def atMost (a b : Symbol) : Bool := !b.precedes a

end Symbol

end ParseForest
