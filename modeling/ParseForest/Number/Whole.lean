/-!
# Whole numbers in decimal digits

`readDigits?` reads a non-empty run of ASCII digits. `readNatural?` also takes one leading plus
sign and keeps the number below a bound; `readInteger?` takes either sign.
-/

namespace ParseForest.Number

def wordLimit : Nat := Nat.pow 2 64

def digitValue (c : Char) : Nat := c.toNat - '0'.toNat

def digitsValue (start : Nat) (cs : List Char) : Nat :=
  cs.foldl (fun n c => 10 * n + digitValue c) start

def readDigits? (cs : List Char) : Option Nat :=
  if !cs.isEmpty && cs.all Char.isDigit then some (digitsValue 0 cs) else none

/-- Reads digits after at most one plus sign; the number has to lie below `bound`. -/
def readNatural? (bound : Nat) (cs : List Char) : Option Nat :=
  (readDigits? (match cs with
    | '+' :: rest => rest
    | _ => cs)).filter (· < bound)

def readInteger? (bound : Nat) (cs : List Char) : Option Int :=
  match cs with
  | '-' :: rest => ((readDigits? rest).filter (· ≤ bound)).map fun n => -(n : Int)
  | _ => (readNatural? bound cs).map fun n => (n : Int)

def digits (n : Nat) : List Char := Nat.toDigits 10 n

def digitCount (n : Nat) : Nat := (digits n).length

def renderNatural (n : Nat) : String := String.ofList (digits n)

def renderInteger (i : Int) : String :=
  if i < 0 then String.ofList ('-' :: digits i.natAbs) else renderNatural i.natAbs

end ParseForest.Number
