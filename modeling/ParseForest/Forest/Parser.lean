import ParseForest.Forest.SpanBuild
import ParseForest.Hypergraph.Sorted

/-!
# The forest parser

The parser fills the spans of a lattice from short to long. At each span the tracks advance, the
matched rule pairs build constituents, unary rules close them, and the closed constituents start
new source sides. A pruned span builds nothing, but items still pass through it.

`forest` puts a goal over the constituents of the goal label that cover the whole lattice and
sorts the graph. A `ForestParser` is a grammar with its options that keeps the charts of its
latest parse; no parse reads the charts of an earlier one.
-/

namespace ParseForest

variable {V : Type}

structure ForestState (V : Type) where
  tracks : List (Track V (Match V))
  found : Chart (List Constituent)
  graph : Hypergraph V

namespace ForestState

variable [Scalar V]

def start (grammar : Grammar V) (size : Nat) : ForestState V :=
  ⟨grammar.map (Track.start Match.carrier size), Chart.new size, Hypergraph.empty⟩

def fillSpan (grammar : Grammar V) (o : Options V) (lattice : Lattice V)
    (distances : Lattice.DistanceTable) (pruner : Pruner) (st : ForestState V)
    (span : Nat × Nat) : ForestState V :=
  let (first, last) := span
  let ⟨tracks, found, graph⟩ := st
  let distance := distances.length first last
  let tracks := tracks.map (Track.advance Match.carrier o lattice found.get first last distance)
  let site : Site V := ⟨o, pruner, first, last⟩
  -- the tracks have advanced all the same: longer matches may pass through a skipped span
  if site.isSkipped then ⟨tracks, found, graph⟩
  else
    let matched := tracks.flatMap (Track.completed first last)
    let build := ((SpanBuild.mk graph []).applyAll site matched).close site grammar distance
    let sorted := build.sorted
    { tracks := tracks.map (Track.beginWith Match.carrier sorted first last distance)
      found := found.set first last sorted
      graph := build.graph }

def run (grammar : Grammar V) (o : Options V) (lattice : Lattice V) (pruner : Pruner) :
    ForestState V :=
  (Chart.spansByLength lattice.size).foldl
    (fillSpan grammar o lattice lattice.distanceTable pruner)
    (start grammar lattice.size)

omit [Scalar V] in
def tops (o : Options V) (size : Nat) (st : ForestState V) : List Constituent :=
  (st.found.get 0 size).filter fun c => c.label == o.goal

omit [Scalar V] in
def goalRule (o : Options V) : Rule := ⟨Symbol.goal, [o.goal.withIndex 1]⟩

omit [Scalar V] in
def root (st : ForestState V) : Constituent := ⟨st.graph.nodes.size, Symbol.goal, 0⟩

omit [Scalar V] in
/-- The forest with a goal over the constituents of the goal label, if there are any. -/
def withGoal (o : Options V) (size : Nat) (st : ForestState V) : Hypergraph V :=
  match st.tops o size with
  | [] => st.graph.withGoal none
  | tops =>
    -- the number that the node added below is going to have
    let goal := st.root.node
    (tops.foldl
      (fun g c =>
        (g.addEdge [c.node] (some (goalRule o)) NameMap.empty (spanAttributes 0 size)).connect
          g.edges.size goal)
      st.graph.addNode).withGoal (some goal)

end ForestState

structure ForestParser (V : Type) where
  grammar : Grammar V
  options : Options V
  state : ForestState V

namespace ForestParser

variable [Scalar V]

def new (grammar : Grammar V) (options : Options V) : ForestParser V :=
  ⟨grammar, options, ForestState.start [] 0⟩

/-- Parses a lattice; an empty one leaves the charts as they are. -/
def parse (p : ForestParser V) (lattice : Lattice V) (pruner : Pruner) :
    ForestParser V × Hypergraph V :=
  if lattice.isEmpty then (p, Hypergraph.empty)
  else
    let state := ForestState.run p.grammar p.options lattice pruner
    ({ p with state }, (state.withGoal p.options lattice.size).sorted)

/-- Parses a lattice, unless the pruner does not know all of its spans. -/
def parse? (p : ForestParser V) (lattice : Lattice V) (pruner : Pruner) :
    Option (ForestParser V × Hypergraph V) :=
  if lattice.isEmpty || pruner.knows lattice.size then some (p.parse lattice pruner) else none

end ForestParser

def forest [Scalar V] (grammar : Grammar V) (o : Options V) (lattice : Lattice V)
    (pruner : Pruner) : Hypergraph V :=
  ((ForestParser.new grammar o).parse lattice pruner).2

end ParseForest
