import ParseForest.Options
import ParseForest.Pruner
import ParseForest.Rule

/-!
# Sites

A site is a span at which a parser builds labels, with the options and the pruner that rule the
building.
-/

namespace ParseForest

variable {V : Type}

structure Site (V : Type) where
  options : Options V
  pruner : Pruner
  first : Nat
  last : Nat

namespace Site

def ruleOf (site : Site V) (pair : RulePair V) : Rule := pair.side site.options.yieldSource

def skips (site : Site V) (label : Symbol) : Bool :=
  site.pruner.skipsLabel site.first site.last label

def isSkipped (site : Site V) : Bool := site.pruner.skipsSpan site.first site.last

end Site

end ParseForest
