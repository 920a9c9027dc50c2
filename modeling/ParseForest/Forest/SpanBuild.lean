import ParseForest.Hypergraph
import ParseForest.Matching
import ParseForest.Site

/-!
# Building the constituents of a span

A constituent is a node of the forest with its label, built over some span. Every rule pair that
is matched over a span adds an edge to the forest; the head of the edge is the constituent of its
label and level, which is made on first use.

`SpanBuild.close` then applies unary rules. These may form cycles, so a unary edge leads one level
up from its tail, and the rounds end when the set of labels has not grown for as many rounds as
the options allow. No round is needed once a round makes no constituent.
-/

namespace ParseForest

variable {V : Type}

/-- A node of the forest with its label; the level counts the unary rules on top of the rule that
built the node. -/
structure Constituent where
  node : NodeId
  label : Symbol
  level : Nat
  deriving DecidableEq, Repr, Inhabited

/-- What a match has used: the nodes that its non-terminals matched, in the order of the source
side, and the features of the arcs that its words consumed. -/
structure Match (V : Type) where
  tails : List NodeId
  features : FeatureVector V
  deriving Inhabited

def Match.carrier [Scalar V] : Carrier V Constituent (Match V) where
  label := Constituent.label
  start := ⟨[], NameMap.empty⟩
  overEntry m c := { m with tails := m.tails ++ [c.node] }
  overArc m a := { m with features := FeatureVector.plus m.features a.features }

def spanAttributes (first last : Nat) : AttributeVector V :=
  NameMap.ofList [("span-first", .int first), ("span-last", .int last)]

/-- The tails in the order of the indices of their non-terminals. They come in the order of the
source side; fewer than two need no order. -/
def orderTails {T : Type} (source : Rule) (tails : List T) : List T :=
  if tails.length < 2 then tails
  else
    ((source.nonTerminals.zip tails).mergeSort fun a b => a.1.index ≤ b.1.index).map (·.2)

structure SpanBuild (V : Type) where
  graph : Hypergraph V
  found : List Constituent

namespace SpanBuild

def find? (b : SpanBuild V) (label : Symbol) (level : Nat) : Option Constituent :=
  b.found.find? fun c => c.label == label && c.level == level

def hasLabel (b : SpanBuild V) (label : Symbol) : Bool := b.found.any fun c => c.label == label

def connect (b : SpanBuild V) (e : EdgeId) (label : Symbol) (level : Nat) : SpanBuild V :=
  match b.find? label level with
  | some c => { b with graph := b.graph.connect e c.node }
  | none =>
    let n := b.graph.nodes.size
    ⟨b.graph.addNode.connect e n, b.found ++ [⟨n, label, level⟩]⟩

variable [Scalar V]

def apply (site : Site V) (level : Nat) (b : SpanBuild V) (pair : RulePair V) (used : Match V) :
    SpanBuild V :=
  let rule := site.ruleOf pair
  if site.skips rule.lhs then b
  else
    -- taken apart so that the graph has one owner and grows in place
    let ⟨graph, found⟩ := b
    let e := graph.edges.size
    let graph := graph.addEdge (orderTails pair.source used.tails) (some rule)
      (FeatureVector.plus pair.features used.features)
      (AttributeVector.overlay pair.attributes (spanAttributes site.first site.last))
    (SpanBuild.mk graph found).connect e rule.lhs level

def applyAll (site : Site V) (b : SpanBuild V) (matched : List (RulePair V × Match V)) :
    SpanBuild V :=
  matched.foldl (fun b (pair, used) => b.apply site 0 pair used) b

def applyUnary (site : Site V) (t : RuleTable V) (b : SpanBuild V) (c : Constituent) :
    SpanBuild V :=
  (t.unaryRules c.label).foldl
    (fun b pair => b.apply site (c.level + 1) pair ⟨[c.node], NameMap.empty⟩) b

def round (site : Site V) (grammar : Grammar V) (distance : Nat) (frontier : List Constituent)
    (b : SpanBuild V) : SpanBuild V :=
  (grammar.filter fun t => t.covers distance).foldl
    (fun b t => frontier.foldl (applyUnary site t) b) b

omit [Scalar V] in
def grew (before after : SpanBuild V) : Bool :=
  !(after.found.drop before.found.length).all fun c => before.hasLabel c.label

/-- The rounds after `stagnant` ones without a new label; the first `done` constituents have had
their round. At most `fuel` rounds are made. -/
def closeFrom (site : Site V) (grammar : Grammar V) (distance : Nat) :
    (fuel stagnant done : Nat) → SpanBuild V → SpanBuild V
  | 0, _, _, b => b
  | fuel + 1, stagnant, done, b =>
    let frontier := b.found.drop done
    -- the last round made no constituent, so no rule has anything new to start from
    if frontier.isEmpty then b
    else
      let after := b.round site grammar distance frontier
      if grew b after then closeFrom site grammar distance fuel stagnant b.found.length after
      else if site.options.forestStagnation ≤ stagnant + 1 then after
      else closeFrom site grammar distance fuel (stagnant + 1) b.found.length after

def roundLimit (o : Options V) (grammar : Grammar V) : Nat :=
  grammar.ruleCount + o.forestStagnation + 1

/-- Applies unary rules until the labels stop growing. Zero rounds without growth turn this off. -/
def close (site : Site V) (grammar : Grammar V) (distance : Nat) (b : SpanBuild V) :
    SpanBuild V :=
  if site.options.forestStagnation = 0 then b
  else b.closeFrom site grammar distance (roundLimit site.options grammar) 0 0

omit [Scalar V] in
def sorted (b : SpanBuild V) : List Constituent :=
  b.found.mergeSort fun c d => c.label.atMost d.label

end SpanBuild

end ParseForest
