import ParseForest.Rule

/-!
# Hypergraphs

A hypergraph packs derivations: an edge derives its head from all of its tails, and a node lists
the edges that derive it. Nodes and edges are numbered by position. A graph is valid when it has a
goal.

`addNode`, `addEdge` and `connect` build a graph. Tails may be written down before their nodes
exist, so a number may dangle; `node` and `edge` answer with an empty node or edge for it.
-/

namespace ParseForest

variable {V : Type}

abbrev NodeId := Nat

abbrev EdgeId := Nat

structure Node where
  id : NodeId
  edges : List EdgeId
  deriving DecidableEq, Repr, Inhabited

/-- An edge from its tails to its head; the head is missing until the edge is connected. -/
structure Edge (V : Type) where
  id : EdgeId
  head : Option NodeId
  tails : List NodeId
  rule : Option Rule
  features : FeatureVector V
  attributes : AttributeVector V
  deriving Inhabited

structure Hypergraph (V : Type) where
  nodes : Array Node
  edges : Array (Edge V)
  goal : Option NodeId
  deriving Inhabited

namespace Hypergraph

def noNode : NodeId := Number.wordLimit - 1

def empty : Hypergraph V := ⟨#[], #[], none⟩

def isValid (g : Hypergraph V) : Bool := g.goal.isSome

def node (g : Hypergraph V) (n : NodeId) : Node := g.nodes.getD n ⟨n, []⟩

def edge (g : Hypergraph V) (e : EdgeId) : Edge V :=
  g.edges.getD e ⟨e, none, [], none, NameMap.empty, NameMap.empty⟩

def hasNode (g : Hypergraph V) (n : NodeId) : Bool := n < g.nodes.size

def hasEdge (g : Hypergraph V) (e : EdgeId) : Bool := e < g.edges.size

def addNode (g : Hypergraph V) : Hypergraph V :=
  { g with nodes := g.nodes.push ⟨g.nodes.size, []⟩ }

def addEdge (g : Hypergraph V) (tails : List NodeId) (rule : Option Rule)
    (features : FeatureVector V) (attributes : AttributeVector V) : Hypergraph V :=
  { g with edges := g.edges.push ⟨g.edges.size, none, tails, rule, features, attributes⟩ }

def canConnect (g : Hypergraph V) (e : EdgeId) (head : NodeId) : Bool :=
  g.hasEdge e && g.hasNode head

/-- Makes a node the head of an edge and lists the edge there. Without the edge nothing changes;
without the node only the edge does. -/
def connect (g : Hypergraph V) (e : EdgeId) (head : NodeId) : Hypergraph V :=
  if g.hasEdge e then
    -- `modify` passes over a number that is out of range
    { g with
      edges := g.edges.modify e fun edge => { edge with head := some head }
      nodes := g.nodes.modify head fun node => { node with edges := node.edges ++ [e] } }
  else g

def withGoal (g : Hypergraph V) (goal : Option NodeId) : Hypergraph V := { g with goal }

/-! ## What each step does to the numbers of nodes and edges -/

@[simp]
theorem size_nodes_addNode (g : Hypergraph V) : g.addNode.nodes.size = g.nodes.size + 1 := by
  simp [addNode]

@[simp]
theorem edges_addNode (g : Hypergraph V) : g.addNode.edges = g.edges := rfl

@[simp]
theorem nodes_addEdge (g : Hypergraph V) (tails : List NodeId) (rule : Option Rule)
    (features : FeatureVector V) (attributes : AttributeVector V) :
    (g.addEdge tails rule features attributes).nodes = g.nodes := rfl

@[simp]
theorem size_edges_addEdge (g : Hypergraph V) (tails : List NodeId) (rule : Option Rule)
    (features : FeatureVector V) (attributes : AttributeVector V) :
    (g.addEdge tails rule features attributes).edges.size = g.edges.size + 1 := by
  simp [addEdge]

@[simp]
theorem size_nodes_connect (g : Hypergraph V) (e : EdgeId) (head : NodeId) :
    (g.connect e head).nodes.size = g.nodes.size := by
  unfold connect
  split <;> simp

@[simp]
theorem size_edges_connect (g : Hypergraph V) (e : EdgeId) (head : NodeId) :
    (g.connect e head).edges.size = g.edges.size := by
  unfold connect
  split <;> simp

def links (g : Hypergraph V) (n : NodeId) : List (EdgeId × NodeId) :=
  (g.node n).edges.flatMap fun e => (g.edge e).tails.map fun t => (e, t)

def renderEdge [NumberText V] (e : Edge V) : String :=
  "  " ++ Number.renderNatural (e.head.getD noNode) ++ " <-" ++
    String.join (e.tails.map fun t => " " ++ Number.renderNatural t) ++
    (match e.rule with
      | some rule => " ||| " ++ rule.render
      | none => "") ++
    (if e.features.isEmpty then "" else " ||| " ++ FeatureVector.render e.features) ++ "\n"

def render [NumberText V] (g : Hypergraph V) : String :=
  match g.goal with
  | none => "goal: none\n"
  | some goal =>
    "goal: " ++ Number.renderNatural goal ++ "\n" ++
      String.join (g.edges.toList.map renderEdge)

end Hypergraph

end ParseForest
