import ParseForest.Number.Whole

/-!
# Decimal numerals

A `Decimal` is a whole number of units of a power of ten. `readReal` reads the text of a real
number: an optional sign, then digits with at most one point and an optional exponent, or one of
the words `inf`, `infinity` and `nan` in any case. The result is the nearest double, ties to the
even one. `Decimal.positional` writes a numeral without an exponent.
-/

namespace ParseForest.Number

structure Decimal where
  digits : Nat
  scale : Int
  deriving DecidableEq, Repr

inductive RealError
  | empty
  | malformed
  deriving DecidableEq, Repr

def RealError.message : RealError → String
  | .empty => "cannot parse float from empty string"
  | .malformed => "invalid float literal"

namespace Decimal

def toFloat (d : Decimal) : Float :=
  let top := d.scale + digitCount d.digits
  if d.digits = 0 ∨ top < -400 then 0.0
  else if 400 < top then 1.0 / 0.0
  else Float.ofScientific d.digits (d.scale < 0) d.scale.natAbs

def positional (d : Decimal) : List Char :=
  let ds := Number.digits d.digits
  match d.scale with
  | .ofNat n => ds ++ List.replicate n '0'
  | .negSucc n =>
    let places := n + 1
    let padded := List.replicate (places + 1 - ds.length) '0' ++ ds
    padded.take (padded.length - places) ++ '.' :: padded.drop (padded.length - places)

def readExponent? : List Char → Option Int
  | [] => some 0
  | e :: rest =>
    if e = 'e' ∨ e = 'E' then
      match rest with
      | '-' :: ds => (readDigits? ds).map fun n => -(n : Int)
      | '+' :: ds => (readDigits? ds).map fun n => (n : Int)
      | ds => (readDigits? ds).map fun n => (n : Int)
    else none

/-- Reads digits with at most one point, at least one digit among them, and an exponent part. -/
def read? (cs : List Char) : Option Decimal :=
  let (whole, rest) := cs.span Char.isDigit
  let (places, rest) :=
    match rest with
    | '.' :: after => after.span Char.isDigit
    | _ => ([], rest)
  if (whole ++ places).isEmpty then none
  else (readExponent? rest).map fun e => ⟨digitsValue 0 (whole ++ places), e - places.length⟩

end Decimal

def readUnsigned? (cs : List Char) : Option Float :=
  let word := String.ofList (cs.map Char.toLower)
  if word = "inf" ∨ word = "infinity" then some (1.0 / 0.0)
  else if word = "nan" then some (0.0 / 0.0)
  else (Decimal.read? cs).map Decimal.toFloat

def readReal (cs : List Char) : Except RealError Float :=
  let value :=
    match cs with
    | '-' :: rest => (readUnsigned? rest).map fun x => -x
    | '+' :: rest => readUnsigned? rest
    | _ => readUnsigned? cs
  match value with
  | some x => .ok x
  | none => .error (if cs.isEmpty then .empty else .malformed)

end ParseForest.Number
