import ParseForest.Number.Magnitude

/-!
# The shortest numeral that reads back

A decimal reads back as a double when it lies in the interval of numbers that round to it; the
ends belong to the interval exactly when the mantissa is even. `shortest` takes the coarsest
decimal grid with a point in that interval and on it the point nearest to the number, the upper
one of two that are equally near. `renderReal` writes that numeral without an exponent.
-/

namespace ParseForest.Number

namespace Magnitude

/-- Whether `n * 10 ^ p` lies in the interval of numbers that round to `m`. The interval is
measured in quarters of the last place. -/
def readsBack (m : Magnitude) (n : Nat) (p : Int) : Bool :=
  let point := 4 * n * Nat.pow 10 p.toNat * Nat.pow 2 (-m.exponent).toNat
  let quarter := Nat.pow 2 m.exponent.toNat * Nat.pow 10 (-p).toNat
  -- below a power of two the next double is half as far away, so the interval ends earlier
  let low := (4 * m.mantissa - if m.narrowBelow then 1 else 2) * quarter
  let high := (4 * m.mantissa + 2) * quarter
  if m.mantissa % 2 = 0 then low ≤ point && point ≤ high else low < point && point < high

def nearerUpper (m : Magnitude) (n : Nat) (p : Int) : Nat :=
  if 2 * m.numerator p < (2 * n + 1) * m.denominator p then n else n + 1

def onGrid? (m : Magnitude) (p : Int) : Option Decimal :=
  let n := m.floorAt p
  match n != 0 && m.readsBack n p, m.readsBack (n + 1) p with
  | true, true => some ⟨m.nearerUpper n p, p⟩
  | true, false => some ⟨n, p⟩
  | false, true => some ⟨n + 1, p⟩
  | false, false => none

def shortestFrom (m : Magnitude) : Nat → Int → Decimal
  | 0, p => ⟨m.floorAt p, p⟩
  | fuel + 1, p => (m.onGrid? p).getD (shortestFrom m fuel (p - 1))

/-- The shortest numeral that reads back. Seventeen digits always do, so the search ends within
its twenty steps. -/
def shortest (m : Magnitude) : Decimal := m.shortestFrom 20 m.topPosition

end Magnitude

/-- A double as text: the fewest digits that read back, never an exponent, no point in a whole
number; `-0` for negative zero, `NaN`, `inf` and `-inf`. -/
def renderReal (x : Float) : String :=
  if x.isNaN then "NaN"
  else
    let sign := if x.toBits.toNat < Nat.pow 2 63 then "" else "-"
    if x.isInf then sign ++ "inf"
    else if x == 0.0 then sign ++ "0"
    else sign ++ String.ofList (Magnitude.ofFloat x).shortest.positional

end ParseForest.Number
