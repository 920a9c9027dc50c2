import ParseForest.Hypergraph
import ParseForest.Weighting

/-!
# Inside scores

The inside score of a node is the sum, over the edges that derive it, of the score of the edge
times the product of the inside scores of its tails. Nodes are scored in the order of their
numbers, so tails have to come before their heads; a tail that comes later counts as zero.
-/

namespace ParseForest.Hypergraph

variable {V S : Type} [Score S]

def edgeScore (w : Weighting V S) (scores : Array S) (e : Edge V) : S :=
  Score.mul (w e.features)
    (Score.product Score.one (e.tails.map fun t => scores.getD t Score.zero))

def nodeScore (g : Hypergraph V) (w : Weighting V S) (scores : Array S) (n : Node) : S :=
  n.edges.foldl (fun sum e => Score.add sum (edgeScore w scores (g.edge e))) Score.zero

def insideScores (g : Hypergraph V) (w : Weighting V S) : Array S :=
  g.nodes.foldl (fun scores n => scores.push (g.nodeScore w scores n)) #[]

def inside (g : Hypergraph V) (w : Weighting V S) : S :=
  match g.goal with
  | none => Score.zero
  | some goal => (g.insideScores w).getD goal Score.zero

def isGrounded (g : Hypergraph V) : Bool :=
  match g.goal with
  | none => true
  | some goal =>
    g.hasNode goal && g.nodes.all fun n => n.edges.all fun e => (g.edge e).tails.all g.hasNode

/-- The inside score of the goal, unless a number that is no node is needed for it. -/
def inside? (g : Hypergraph V) (w : Weighting V S) : Option S :=
  if g.isGrounded then some (g.inside w) else none

end ParseForest.Hypergraph
