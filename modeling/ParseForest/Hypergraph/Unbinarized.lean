import ParseForest.Hypergraph.Sorted
import ParseForest.Selection

/-!
# Undoing binarization

Binarization splits a rule into a chain of rules whose labels carry a mark. `unbinarized` merges
the nodes of such labels back into the nodes above them: an edge with binarized tails gives way to
one edge for each selection of edges that derive those tails, with their right-hand sides, tails
and features in place of the tails. Nodes are taken in the order of their numbers, so chains
collapse from below in one pass. At the end the graph is sorted, which drops the merged nodes.
-/

namespace ParseForest

variable {V : Type}

namespace Hypergraph

def isBinarizedNode (g : Hypergraph V) (n : Node) : Bool :=
  match n.edges with
  | [] => false
  -- the edges of a node of a forest rewrite one label, so the first of them tells
  | e :: _ => (g.edge e).rule.any fun rule => rule.lhs.isBinarized

def binarizedNodes (g : Hypergraph V) : Array Bool := g.nodes.map g.isBinarizedNode

/-- The symbols and tails that stand for one symbol of a rule, where `choice` has an edge for each
tail to be merged. Indices are dropped. -/
def inlined? (g : Hypergraph V) (edge : Edge V) (choice : List (Option EdgeId)) :
    Symbol × Option Nat → Option (List Symbol × List NodeId)
  | (s, none) => some ([s], [])
  | (s, some position) =>
    match choice[position]? with
    -- the rule names a tail that the edge does not have
    | none => none
    | some none => (edge.tails[position]?).map fun t => ([s.unindexed], [t])
    | some (some e) =>
      (g.edge e).rule.bind fun inner =>
        (inner.tailPositions.mapM fun q => (g.edge e).tails[q]?).map fun tails =>
          (inner.rhs.map Symbol.unindexed, tails)

def chosenEdges (rule : Rule) (choice : List (Option EdgeId)) : List EdgeId :=
  rule.tailPositions.filterMap fun position => (choice[position]?).join

variable [Scalar V]

/-- Adds the edge in which the edges of a choice are merged into `edge`, as an edge of node `n`.
Nothing is added when a rule does not fit the tails of its edge. -/
def addMerged (n : NodeId) (edge : Edge V) (rule : Rule) (g : Hypergraph V)
    (choice : List (Option EdgeId)) : Hypergraph V :=
  match rule.placed.mapM (g.inlined? edge choice) with
  | none => g
  | some parts =>
    let features := (chosenEdges rule choice).foldl
      (fun f e => FeatureVector.plus f (g.edge e).features) edge.features
    (g.addEdge (parts.flatMap (·.2)) (some ⟨rule.lhs, parts.flatMap (·.1)⟩) features
      edge.attributes).connect g.edges.size n

structure Rewriting (V : Type) where
  graph : Hypergraph V
  replaced : Array Bool

namespace Rewriting

def isReplaced (r : Rewriting V) (e : EdgeId) : Bool := r.replaced.getD e false

def choices (r : Rewriting V) (binarized : NodeId → Bool) (edge : Edge V) :
    List (List (Option EdgeId)) :=
  edge.tails.map fun t => if binarized t then (r.graph.node t).edges.map some else [none]

/-- Replaces an edge of node `n` that has binarized tails and a rule. Edges that have been
replaced themselves are not merged. -/
def replaceEdge (binarized : NodeId → Bool) (n : NodeId) (r : Rewriting V) (e : EdgeId) :
    Rewriting V :=
  let edge := r.graph.edge e
  if edge.tails.any binarized then
    match edge.rule with
    | none => r
    | some rule =>
      -- marked before the choices are sifted, so that no edge is merged into itself
      let r := { r with replaced := r.replaced.setIfInBounds e true }
      let fresh := (selections (r.choices binarized edge)).filter fun choice =>
        !choice.any fun c => c.any r.isReplaced
      { r with graph := fresh.foldl (addMerged n edge rule) r.graph }
  else r

def rewriteNode (binarized : NodeId → Bool) (r : Rewriting V) (n : NodeId) : Rewriting V :=
  -- the edges as listed now: those that merging adds to the node are not taken up again
  (r.graph.node n).edges.foldl (replaceEdge binarized n) r

def result (r : Rewriting V) : Hypergraph V :=
  { r.graph with
    nodes := r.graph.nodes.map fun node =>
      { node with edges := node.edges.filter fun e => !r.isReplaced e } }

end Rewriting

def merged (g : Hypergraph V) : Hypergraph V :=
  let flags := g.binarizedNodes
  ((List.range g.nodes.size).foldl (Rewriting.rewriteNode fun n => flags.getD n false)
    ⟨g, Array.replicate g.edges.size false⟩).result

def unbinarized (g : Hypergraph V) : Hypergraph V := if g.isValid then g.merged.sorted else empty

omit [Scalar V] in
/-- Whether the tails of an edge that are looked at for merging are nodes: those up to the first
binarized one, and all of them when the edge is replaced. -/
def isMergeable (g : Hypergraph V) (binarized : NodeId → Bool) (e : Edge V) : Bool :=
  match e.tails.find? fun t => binarized t || !g.hasNode t with
  | none => true
  | some t => g.hasNode t && (e.rule.isNone || e.tails.all g.hasNode)

def unbinarized? (g : Hypergraph V) : Option (Hypergraph V) :=
  if g.isValid then
    let flags := g.binarizedNodes
    if g.nodes.all fun n => n.edges.all fun e =>
        g.isMergeable (fun t => flags.getD t false) (g.edge e) then
      g.merged.sort?
    else none
  else some empty

end Hypergraph

end ParseForest
