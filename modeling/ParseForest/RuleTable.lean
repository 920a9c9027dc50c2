import ParseForest.LabelMap
import ParseForest.Rule

/-!
# Rule tables

A rule table stores rule pairs in a tree over their source sides. The edges of the tree are words
and non-terminals without index, so that all rules that begin alike share a path. States are
numbered in the order in which they come into being, from the root 0. No edge leads to the root;
`next` answers with the root when there is no edge.
-/

namespace ParseForest

variable {V : Type}

abbrev StateId := Nat

/-- What a rule table is for. Tables for unknown words and for part-of-speech tags are shared with
coarser grammars, and the latter see the tagged words of a lattice. -/
inductive TableKind
  | rules
  | unknown
  | pos
  deriving DecidableEq, Repr, Inhabited

structure RuleState (V : Type) where
  children : LabelMap StateId := []
  rules : List (RulePair V) := []
  deriving Inhabited

structure RuleTable (V : Type) where
  states : Array (RuleState V)
  kind : TableKind
  maxSpan : Option Nat

namespace RuleTable

def root : StateId := 0

def empty : RuleTable V := ⟨#[{}], .rules, none⟩

instance : Inhabited (RuleTable V) := ⟨empty⟩

def ofKind (t : RuleTable V) (kind : TableKind) : RuleTable V := { t with kind }

def withMaxSpan (t : RuleTable V) (n : Nat) : RuleTable V := { t with maxSpan := some n }

def state (t : RuleTable V) (s : StateId) : RuleState V := t.states.getD s {}

def child? (t : RuleTable V) (s : StateId) (label : Symbol) : Option StateId :=
  LabelMap.get? (t.state s).children label

def next (t : RuleTable V) (s : StateId) (label : Symbol) : StateId := (t.child? s label).getD root

def hasNext (t : RuleTable V) (s : StateId) : Bool := !(t.state s).children.isEmpty

def rulesAt (t : RuleTable V) (s : StateId) : List (RulePair V) := (t.state s).rules

def unaryRules (t : RuleTable V) (label : Symbol) : List (RulePair V) :=
  let s := t.next root label
  -- no edge leads to the root, so here it means that there is no such edge
  if s = root then [] else t.rulesAt s

def covers (t : RuleTable V) (distance : Nat) : Bool := t.maxSpan.all (distance ≤ ·)

def descend (t : RuleTable V) (s : StateId) (label : Symbol) : RuleTable V × StateId :=
  match t.child? s label with
  | some n => (t, n)
  | none =>
    let n := t.states.size
    let linked := t.states.modify s fun st => { st with children := st.children ++ [(label, n)] }
    ({ t with states := linked.push {} }, n)

def descendAll (t : RuleTable V) (labels : List Symbol) : RuleTable V × StateId :=
  labels.foldl (fun (t, s) label => t.descend s label) (t, root)

/-- The path of a rule pair: its source side without indices. -/
def path (pair : RulePair V) : List Symbol := pair.source.rhs.map Symbol.unindexed

def insert (t : RuleTable V) (pair : RulePair V) : RuleTable V :=
  let (t, s) := t.descendAll (path pair)
  { t with states := t.states.modify s fun st => { st with rules := st.rules ++ [pair] } }

def pairs (t : RuleTable V) : List (RulePair V) := t.states.toList.flatMap RuleState.rules

def size (t : RuleTable V) : Nat := t.pairs.length

def render [NumberText V] (t : RuleTable V) : String :=
  String.join (t.pairs.map fun pair => RulePair.render pair ++ "\n")

end RuleTable

end ParseForest
