import ParseForest.Number.Decimal

/-!
# Doubles as exact numbers

A finite double is `mantissa * 2 ^ exponent` up to its sign. The functions here compare such a
number with points of a decimal grid by cross multiplication, so that nothing is rounded on the
way: `floorAt` and `roundAt` count grid units of `10 ^ p`, `decimalExponent` is the position of
the leading digit.
-/

namespace ParseForest.Number

structure Magnitude where
  mantissa : Nat
  exponent : Int
  narrowBelow : Bool
  deriving DecidableEq, Repr

namespace Magnitude

def ofFloat (x : Float) : Magnitude :=
  let bits := x.toBits.toNat % Nat.pow 2 63
  -- the sign is gone; an exponent field of 0 marks a number without the hidden bit
  let exponent : Nat := bits / Nat.pow 2 52
  let fraction : Nat := bits % Nat.pow 2 52
  if exponent = 0 then ⟨fraction, -1074, false⟩
  else ⟨Nat.pow 2 52 + fraction, (exponent : Int) - 1075, fraction = 0 ∧ 1 < exponent⟩

def numerator (m : Magnitude) (p : Int) : Nat :=
  m.mantissa * Nat.pow 2 m.exponent.toNat * Nat.pow 10 (-p).toNat

def denominator (m : Magnitude) (p : Int) : Nat :=
  Nat.pow 10 p.toNat * Nat.pow 2 (-m.exponent).toNat

def floorAt (m : Magnitude) (p : Int) : Nat := m.numerator p / m.denominator p

def roundQuotient (num den : Nat) : Nat :=
  let q := num / den
  let r := num % den
  if den < 2 * r ∨ (den = 2 * r ∧ q % 2 = 1) then q + 1 else q

def roundAt (m : Magnitude) (p : Int) : Nat := roundQuotient (m.numerator p) (m.denominator p)

def topPosition (m : Magnitude) : Int :=
  (digitCount (m.numerator 0) : Int) - digitCount (m.denominator 0) + 1

def leadingFrom (m : Magnitude) : Nat → Int → Int
  | 0, p => p
  | fuel + 1, p => if m.floorAt p = 0 then leadingFrom m fuel (p - 1) else p

def decimalExponent (m : Magnitude) : Int := m.leadingFrom 3 m.topPosition

end Magnitude

end ParseForest.Number
