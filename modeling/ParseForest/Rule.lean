import ParseForest.Feature
import ParseForest.Symbol

/-!
# Rules

A rule rewrites a label into symbols. A rule pair has a source side, which is matched against the
input, and a target side; both rewrite the same label and their non-terminals correspond, by index
or by order of appearance.
-/

namespace ParseForest

variable {V : Type}

structure Rule where
  lhs : Symbol
  rhs : List Symbol
  deriving DecidableEq, Repr, Inhabited

namespace Rule

def nonTerminals (r : Rule) : List Symbol := r.rhs.filter Symbol.isNonTerminal

def arity (r : Rule) : Nat := r.nonTerminals.length

/-- The tail that a non-terminal stands for: its index counted from 0 when it has one, its order
of appearance otherwise. -/
def tailPosition (s : Symbol) (order : Nat) : Nat :=
  match s.index with
  | 0 => order
  | i + 1 => i

def placedFrom : (order : Nat) → List Symbol → List (Symbol × Option Nat)
  | _, [] => []
  | order, s :: rest =>
    if s.isNonTerminal then (s, some (tailPosition s order)) :: placedFrom (order + 1) rest
    else (s, none) :: placedFrom order rest

def placed (r : Rule) : List (Symbol × Option Nat) := placedFrom 0 r.rhs

def tailPositions (r : Rule) : List Nat := r.placed.filterMap (·.2)

def renderSymbols (symbols : List Symbol) : String :=
  String.join (symbols.map fun s => " " ++ s.text)

def render (r : Rule) : String := r.lhs.text ++ " ->" ++ renderSymbols r.rhs

end Rule

structure RulePair (V : Type) where
  source : Rule
  target : Rule
  features : FeatureVector V
  attributes : AttributeVector V

namespace RulePair

def side (p : RulePair V) (yieldSource : Bool) : Rule := if yieldSource then p.source else p.target

def render [NumberText V] (p : RulePair V) : String :=
  p.source.lhs.text ++ " |||" ++ Rule.renderSymbols p.source.rhs ++ " |||" ++
    Rule.renderSymbols p.target.rhs ++
    (if p.features.isEmpty then "" else " ||| " ++ FeatureVector.render p.features)

end RulePair

end ParseForest
