import ParseForest.Number.Scalar

/-!
# Scores

A score type has a sum for alternatives, a product for steps in sequence, a quotient to normalize
by and an order to keep the best alternative and to compare with a cutoff. `MaxProduct` holds
plain probabilities and keeps the larger of two alternatives; `LogProb` holds logarithms and adds
the probabilities behind them.
-/

namespace ParseForest

class Score (S : Type) where
  zero : S
  one : S
  add : S → S → S
  mul : S → S → S
  div : S → S → S
  less : S → S → Bool
  isZero : S → Bool

namespace Score

variable {S : Type} [Score S]

def best (a b : S) : S := if less a b then b else a

def product (start : S) (scores : List S) : S := scores.foldl mul start

end Score

class LogScale (V : outParam Type) (S : Type) extends Score S where
  ofLog : V → S
  toLog : S → V
  ofProbability : V → S

/-- A probability; of two alternatives the larger one counts. -/
structure MaxProduct where
  value : Float
  deriving Inhabited

/-- The logarithm of a probability; the probabilities of alternatives add up. -/
structure LogProb where
  value : Float
  deriving Inhabited

namespace Number

def logZero : Float := -1.0 / 0.0

/-- The larger of two numbers; one that is not a number does not count. -/
def larger (a b : Float) : Float :=
  if a.isNaN then b else if b.isNaN then a else if a < b then b else a

/-- The logarithm of `1 + x`, exact to the last digits for small `x` too: the error made in
rounding `1 + x` cancels in the quotient. -/
def logOnePlus (x : Float) : Float :=
  let u := 1.0 + x
  if u == 1.0 then x else if u.isInf then u else u.log * x / (u - 1.0)

def logSum (a b : Float) : Float :=
  let (high, low) := if b < a then (a, b) else (b, a)
  -- minus infinity less itself is not a number
  if low == logZero then high else high + logOnePlus (low - high).exp

end Number

instance : LogScale Float MaxProduct where
  zero := ⟨0.0⟩
  one := ⟨1.0⟩
  add a b := ⟨Number.larger a.value b.value⟩
  mul a b := ⟨a.value * b.value⟩
  div a b := ⟨a.value / b.value⟩
  less a b := a.value < b.value
  isZero a := a.value == 0.0
  ofLog x := ⟨x.exp⟩
  toLog a := a.value.log
  ofProbability p := ⟨p.log.exp⟩

instance : LogScale Float LogProb where
  zero := ⟨Number.logZero⟩
  one := ⟨0.0⟩
  add a b := ⟨Number.logSum a.value b.value⟩
  mul a b := ⟨a.value + b.value⟩
  div a b := ⟨a.value - b.value⟩
  less a b := a.value < b.value
  isZero a := a.value == Number.logZero
  ofLog x := ⟨x⟩
  toLog a := a.value
  ofProbability p := ⟨p.log⟩

end ParseForest
