import ParseForest.Lattice
import ParseForest.Options
import ParseForest.RuleTable

/-!
# Grammars

A grammar is a list of rule tables that are matched side by side. `wordFor` says which word of a
tagged lattice a table sees.
-/

namespace ParseForest

abbrev Grammar (V : Type) := List (RuleTable V)

namespace Grammar

variable {V : Type}

def hasKind (g : Grammar V) (kind : TableKind) : Bool := g.any fun t => t.kind == kind

def findKind? (g : Grammar V) (kind : TableKind) : Option (RuleTable V) :=
  g.find? fun t => t.kind == kind

def unaryRules (g : Grammar V) (label : Symbol) : List (RulePair V) :=
  g.flatMap fun t => t.unaryRules label

def ruleCount (g : Grammar V) : Nat := (g.flatMap RuleTable.pairs).length

end Grammar

/-- The label of an arc as a table sees it: of a tagged word only the table for tags sees the
tag. -/
def RuleTable.wordFor {V : Type} (t : RuleTable V) (o : Options V) (label : Symbol) : Symbol :=
  if o.posMode && t.kind != .pos then label.word else label

end ParseForest
