import ParseForest.Text.Unprintable

/-!
# Quoted text

`quote` puts a text between double quotes. A quote, a backslash, a tab, a line feed, a carriage
return and the null character have two-character forms; every other unprintable character is
written as its code point in hexadecimal digits between braces. All other characters stand for
themselves.
-/

namespace ParseForest.Text

def quoteChar (c : Char) : List Char :=
  match c with
  | '"' => ['\\', '"']
  | '\\' => ['\\', '\\']
  | '\n' => ['\\', 'n']
  | '\r' => ['\\', 'r']
  | '\t' => ['\\', 't']
  | '\x00' => ['\\', '0']
  | _ =>
    if isUnprintable c then ['\\', 'u', '\x7b'] ++ Nat.toDigits 16 c.toNat ++ ['\x7d'] else [c]

def quote (s : String) : String := String.ofList ('"' :: s.toList.flatMap quoteChar ++ ['"'])

end ParseForest.Text
