/-!
# Blank characters, words and lines

Texts are read as lists of characters. The blanks are the members of the Unicode property
`White_Space`; a word is a longest run without one. `skipBlanks`, `trim` and `words` drop
nothing but blanks.
-/

namespace ParseForest.Text

/-- A character with the Unicode property `White_Space`. -/
def isBlank (c : Char) : Bool :=
  let n := c.toNat
  (0x09 ≤ n && n ≤ 0x0D) || n == 0x20 || n == 0x85 || n == 0xA0 || n == 0x1680 ||
    (0x2000 ≤ n && n ≤ 0x200A) || n == 0x2028 || n == 0x2029 || n == 0x202F || n == 0x205F ||
    n == 0x3000

def skipBlanks (cs : List Char) : List Char := cs.dropWhile isBlank

def trim (cs : List Char) : List Char := (skipBlanks (skipBlanks cs).reverse).reverse

def spanWord (cs : List Char) : List Char × List Char := cs.span (fun c => !isBlank c)

def words (cs : List Char) : List (List Char) := (cs.splitOnP isBlank).filter (fun w => !w.isEmpty)

def lines (cs : List Char) : List (List Char) := cs.splitOnP (· == '\n')

end ParseForest.Text
