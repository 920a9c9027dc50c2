import ParseForest.Number.Magnitude

/-!
# Rounded numbers

`scientific places x` has one digit before the point, `places` digits after it and a plain
exponent; `fixed places x` has `places` digits after the point. Both round the exact value of the
double, ties to the even digit. `rounded` and `roundedLog` are the two forms in which scores are
reported.
-/

namespace ParseForest.Number

namespace Magnitude

def leadingDigits (places : Nat) (m : Magnitude) : Nat × Int :=
  let e := m.decimalExponent
  let n := m.roundAt (e - places)
  if n = Nat.pow 10 (places + 1) then (Nat.pow 10 places, e + 1) else (n, e)

end Magnitude

def renderNonFinite (x : Float) : String :=
  if x.isNaN then "NaN" else if x < 0.0 then "-inf" else "inf"

def minusSign (x : Float) : String := if x < 0.0 then "-" else ""

def scientific (places : Nat) (x : Float) : String :=
  let (n, e) := (Magnitude.ofFloat x).leadingDigits places
  minusSign x ++ String.ofList (Decimal.positional ⟨n, -places⟩) ++ "e" ++ renderInteger e

def fixed (places : Nat) (x : Float) : String :=
  let n := (Magnitude.ofFloat x).roundAt (-places)
  (if n = 0 then "" else minusSign x) ++ String.ofList (Decimal.positional ⟨n, -places⟩)

/-- Nine significant digits and an exponent; `0` for either zero. -/
def rounded (x : Float) : String :=
  if x.isNaN || x.isInf then renderNonFinite x
  else if x == 0.0 then "0"
  else scientific 8 x

/-- Six places for a finite number below a million in magnitude, otherwise as `rounded`. -/
def roundedLog (x : Float) : String :=
  if x.abs < 1000000.0 then fixed 6 x else rounded x

end ParseForest.Number
