import ParseForest.Grammar
import ParseForest.Weighting

/-!
# Unary closures

The closure of a label lists the labels that unary rules lead to, each with the best score of
getting there without coming back; the label itself comes first, with score one. A round applies
every unary rule to every label of the closure before it. The rounds end when one of them changes
nothing, or when as many of them as the options allow have brought no new label.

A round may go through the labels of the closure in any order. New labels come in that order, so
it decides how the labels of a parser are numbered, and by that in which order closures are put
together.
-/

namespace ParseForest

variable {V S : Type}

/-- The order in which the rounds of the closure of a label go through the labels that have come,
by the number of the round. -/
structure ClosureOrder where
  order : (child : Symbol) → (round : Nat) → (labels : List Symbol) → List Symbol
  perm (child : Symbol) (round : Nat) (labels : List Symbol) :
    (order child round labels).Perm labels

def ClosureOrder.arrival : ClosureOrder where
  order _ _ labels := labels
  perm _ _ labels := .refl labels

variable [Score S]

namespace Closure

def improve (closure : LabelMap S) (label : Symbol) (score : S) : LabelMap S × Bool :=
  match LabelMap.get? closure label with
  | none => (LabelMap.insert closure label score, true)
  | some old =>
    -- an equal score is no change: otherwise a cycle of rules would keep the rounds going
    if Score.less old score then (LabelMap.insert closure label score, true) else (closure, false)

def applyPair (w : Weighting V S) (o : Options V) (child : Symbol) (score : S)
    (st : LabelMap S × Bool) (pair : RulePair V) : LabelMap S × Bool :=
  let label := (pair.side o.yieldSource).lhs
  if label = child then st
  else
    let (closure, changed) := improve st.1 label (Score.mul (w pair.features) score)
    (closure, st.2 || changed)

def roundIn (labels : List Symbol) (g : Grammar V) (w : Weighting V S) (o : Options V)
    (child : Symbol) (closure : LabelMap S) : LabelMap S × Bool :=
  -- the labels and scores are those before the round; what it finds waits for the next one
  (closure.inOrder labels).foldl
    (fun st (label, score) => (g.unaryRules label).foldl (applyPair w o child score) st)
    (closure, false)

/-- The rounds from the round of number `n` on, after `stagnant` ones without a new label, at most
`fuel` of them. -/
def roundsFromIn (order : ClosureOrder) (g : Grammar V) (w : Weighting V S) (o : Options V)
    (child : Symbol) : (fuel n stagnant : Nat) → LabelMap S → LabelMap S
  | 0, _, _, closure => closure
  | fuel + 1, n, stagnant, closure =>
    let (after, changed) :=
      roundIn (order.order child n (LabelMap.keys closure)) g w o child closure
    if !changed then after
    else if closure.length < after.length then
      roundsFromIn order g w o child fuel (n + 1) stagnant after
    else if o.scoreStagnation ≤ stagnant + 1 then after
    else roundsFromIn order g w o child fuel (n + 1) (stagnant + 1) after

/-- A bound on the rounds: a round brings a new label, or is one of those without a new label that
the options allow. -/
def roundLimit (grammar : Grammar V) (o : Options V) : Nat :=
  grammar.ruleCount + max o.scoreStagnation 1 + 1

end Closure

def unaryClosureIn (order : ClosureOrder) (g : Grammar V) (w : Weighting V S) (o : Options V)
    (child : Symbol) : LabelMap S :=
  Closure.roundsFromIn order g w o child (Closure.roundLimit g o) 0 0 [(child, Score.one)]

end ParseForest
