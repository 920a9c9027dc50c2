import ParseForest.Number.Shortest

/-!
# The numbers that features carry

Feature values, weights and thresholds belong to one type of numbers. The parsers only add and
multiply them; options and thresholds also compare them; readers and printers use their text.
Doubles are the numbers that the program runs on, and exact numbers serve as well.
-/

namespace ParseForest

class Scalar (V : Type) extends Add V, Mul V where
  zero : V
  one : V
  less : V → V → Bool
  atMost : V → V → Bool

class NumberText (V : Type) where
  render : V → String
  read : List Char → Except Number.RealError V

instance : Scalar Float where
  zero := 0.0
  one := 1.0
  less a b := a < b
  atMost a b := a ≤ b

instance : NumberText Float where
  render := Number.renderReal
  read := Number.readReal

end ParseForest
