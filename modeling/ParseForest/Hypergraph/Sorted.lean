import ParseForest.Hypergraph.Search

/-!
# Sorting a hypergraph

`sorted` renumbers a graph so that tails come before heads and the goal is last. Three things are
dropped: edges that close a cycle, edges with a tail that has no derivation left, and everything
that the goal does not reach any more. Nodes and edges keep the order in which the search from the
goal finished and listed them. Without a derivation of the goal nothing is left.

`sort?` is `sorted` for a graph in which the goal leads to nodes only; it refuses a graph in which
a dangling number is reached.
-/

namespace ParseForest

variable {V : Type}

structure Derivable where
  nodes : Array Bool
  edges : Array Bool

namespace Derivable

def hasNode (d : Derivable) (n : NodeId) : Bool := d.nodes.getD n false

def hasEdge (d : Derivable) (e : EdgeId) : Bool := d.edges.getD e false

def note (d : Derivable) (n : NodeId) (e : EdgeId) : Derivable :=
  ⟨d.nodes.setIfInBounds n true, d.edges.setIfInBounds e true⟩

end Derivable

namespace Hypergraph

/-- Keeps an edge of a node when it closes no cycle and all of its tails have derivations. -/
def deriveEdge (g : Hypergraph V) (s : Search) (n : NodeId) (d : Derivable) (e : EdgeId) :
    Derivable :=
  if !s.isCyclic e && (g.edge e).tails.all d.hasNode then d.note n e else d

def derivable (g : Hypergraph V) (s : Search) : Derivable :=
  s.order.foldl (fun d n => (g.node n).edges.foldl (g.deriveEdge s n) d)
    ⟨Array.replicate g.nodes.size false, Array.replicate g.edges.size false⟩

def reachTails (g : Hypergraph V) (d : Derivable) (reached : Array Bool) (n : NodeId) :
    Array Bool :=
  if reached.getD n false then
    ((g.node n).edges.filter d.hasEdge).foldl
      (fun r e => (g.edge e).tails.foldl (fun r t => r.setIfInBounds t true) r) reached
  else reached

def reached (g : Hypergraph V) (s : Search) (d : Derivable) (goal : NodeId) : Array Bool :=
  s.finished.foldl (g.reachTails d)
    ((Array.replicate g.nodes.size false).setIfInBounds goal true)

def takeEdge (st : List EdgeId × Array Bool) (e : EdgeId) : List EdgeId × Array Bool :=
  let (own, free) := st
  if free.getD e false then (e :: own, free.setIfInBounds e false) else (own, free)

def allotNode (g : Hypergraph V) (st : Array (NodeId × List EdgeId) × Array Bool) (n : NodeId) :
    Array (NodeId × List EdgeId) × Array Bool :=
  let (shares, free) := st
  let (own, free) := (g.node n).edges.foldl takeEdge ([], free)
  (shares.push (n, own.reverse), free)

/-- The given nodes, each with the edges among `free` that it lists before any other of them. -/
def allot (g : Hypergraph V) (free : Array Bool) (nodes : List NodeId) :
    List (NodeId × List EdgeId) :=
  (nodes.foldl g.allotNode (#[], free)).1.toList

def positions (size : Nat) (nodes : List NodeId) : Array Nat :=
  nodes.zipIdx.foldl (fun places (n, i) => places.setIfInBounds n i) (Array.replicate size 0)

def addCopy (h : Hypergraph V) (places : Array Nat) (n : NodeId) (edge : Edge V) : Hypergraph V :=
  let e := h.edges.size
  (h.addEdge (edge.tails.map fun t => places.getD t 0) edge.rule edge.features
    edge.attributes).connect e (places.getD n 0)

def renumber (g : Hypergraph V) (shares : List (NodeId × List EdgeId)) (goal : NodeId) :
    Hypergraph V :=
  let places := positions g.nodes.size (shares.map (·.1))
  let copy (h : Hypergraph V) (share : NodeId × List EdgeId) : Hypergraph V :=
    share.2.foldl (fun h e => h.addCopy places share.1 (g.edge e)) h
  (shares.foldl copy (Nat.repeat addNode shares.length empty)).withGoal
    (some (places.getD goal 0))

/-- The derivations of the goal, tails before heads; the empty graph when there is none. -/
def sorted (g : Hypergraph V) : Hypergraph V :=
  match g.goal with
  | none => empty
  | some goal =>
    let s := g.searchFrom goal
    let d := g.derivable s
    if d.hasNode goal then
      let reached := g.reached s d goal
      let nodes := s.order.filter fun n => reached.getD n false
      g.renumber (g.allot d.edges nodes) goal
    else empty

def isClosed (g : Hypergraph V) : Bool :=
  match g.goal with
  | none => true
  | some goal =>
    g.hasNode goal &&
      (g.searchFrom goal).finished.all fun n => (g.links n).all fun l => g.hasNode l.2

def sort? (g : Hypergraph V) : Option (Hypergraph V) := if g.isClosed then some g.sorted else none

end Hypergraph

end ParseForest
