import ParseForest.Proofs.Forest.Graph
import ParseForest.Proofs.Forest.Reading
import ParseForest.Proofs.Hypergraph.Isomorphic

/-!
# The edges of a finished forest

Sorting copies edges with all that they carry. So every edge of the finished forest leads to the
goal or was made by an application of a rule pair over a span, and what holds of all applications
can be read off the edges: the rule, the features, the span and the number of tails.
-/

namespace ParseForest

variable {V : Type} [Scalar V]

open ForestState

/-- The edge was made by an application of the rule pair over constituents of the run. -/
structure Edge.MadeBy (g : Grammar V) (o : Options V) (lattice : Lattice V) (pruner : Pruner)
    (edge : Edge V) (a : Entry) (pair : RulePair V) : Prop where
  genuine : Genuine g o lattice pruner (listed (cells g o lattice pruner)) a
  named : g.pair? a.step.rule = some pair
  rule : edge.rule = some (pair.side o.yieldSource)
  features : edge.features = FeatureVector.plus pair.features (a.step.parts.features lattice)
  attributes : edge.attributes =
    AttributeVector.overlay pair.attributes (spanAttributes a.place.first a.place.last)
  tails : edge.tails.length = (orderTails pair.source a.step.parts.entries).length

variable {g : Grammar V} {o : Options V} {lattice : Lattice V} {pruner : Pruner}

namespace Edge.MadeBy

theorem copied {edge copy : Edge V} {a : Entry} {pair : RulePair V}
    (h : edge.MadeBy g o lattice pruner a pair) (htails : copy.tails.length = edge.tails.length)
    (hrule : copy.rule = edge.rule) (hfeatures : copy.features = edge.features)
    (hattributes : copy.attributes = edge.attributes) : copy.MadeBy g o lattice pruner a pair where
  genuine := h.genuine
  named := h.named
  rule := hrule.trans h.rule
  features := hfeatures.trans h.features
  attributes := hattributes.trans h.attributes
  tails := htails.trans h.tails

theorem exists_of_ledger {ledger : List Entry}
    (h : Ran g o lattice pruner (Chart.spansByLength lattice.size) (run g o lattice pruner) ledger)
    {e : Nat} (he : e < (run g o lattice pruner).graph.edges.size) :
    ∃ a pair, ((run g o lattice pruner).graph.edge e).MadeBy g o lattice pruner a pair := by
  rw [h.recorded.size] at he
  obtain ⟨pair, c, hpair, -, -, -, hedge, -⟩ := h.recorded.edge e _ (List.getElem?_eq_getElem he)
  refine ⟨_, pair, (h.genuine _ (List.getElem_mem he)).2, hpair, ?_, ?_, ?_, ?_⟩
  · rw [hedge]
    rfl
  · rw [hedge, edgeOf, load_features]
  · rw [hedge]
    rfl
  · rw [hedge, edgeOf, load_tails, orderTails_map, List.length_map]

end Edge.MadeBy

theorem exists_madeBy {e : Nat} (he : e < (forest g o lattice pruner).edges.size)
    (hgoal : ((forest g o lattice pruner).edge e).head ≠ (forest g o lattice pruner).goal) :
    ∃ a pair, ((forest g o lattice pruner).edge e).MadeBy g o lattice pruner a pair := by
  by_cases hne : goalCells g o lattice pruner = []
  · rw [forest_of_nil hne] at he
    exact absurd he (Nat.not_lt_zero e)
  obtain ⟨c, hc⟩ := List.exists_mem_of_ne_nil _ hne
  obtain ⟨ledger, h⟩ := exists_finished hne
  have hl := h.topped.linked.owned
  have hin := h.tailsInside
  have hlt := h.root_lt _ h.root
  rw [forest_of_mem_goalCells hc] at he hgoal ⊢
  obtain ⟨nodeOf, edgeOf, hpart, -, hedges⟩ := (h.descending.keepsReached hl hin hlt h.root).left
  obtain ⟨n, -, hlisted⟩ := hedges.mapsTo he
  rcases h.topped.cases_edge ((h.topped.linked.listed n _).mp hlisted).1 with
    ⟨hmade, hold⟩ | ⟨i, c, -, -, hnew⟩
  · obtain ⟨a, pair, hmade⟩ := Edge.MadeBy.exists_of_ledger h.ran hmade
    rw [← hold] at hmade
    refine ⟨a, pair, hmade.copied ?_ (hpart.rule e he).symm (hpart.features e he).symm
      (hpart.attributes e he).symm⟩
    rw [hpart.tails e he, List.length_map]
  · -- an edge to the goal is copied to one
    obtain ⟨⟨goal, hwell⟩, -⟩ := Hypergraph.wellFormed_sorted_of_hasNode hl hin h.root hlt
      (h.descending.hasNode_goal hl hin hlt)
    obtain ⟨head, hbound, hhead, -⟩ := hwell.once e he
    have hroot := hpart.goal_eq
    have hleads := hpart.head e he
    rw [h.root, hwell.goal_eq, Option.map_some] at hroot
    rw [hnew, goalEdge, hhead, Option.map_some] at hleads
    have hnode : head = goal := hpart.nodes hbound hwell.goal_lt
      (Option.some.inj (hleads.symm.trans hroot))
    exact absurd (by rw [hhead, hwell.goal_eq, hnode]) hgoal

theorem exists_copy {c : Constituent} (hc : c ∈ goalCells g o lattice pruner) {e : Nat}
    (he : e ∈ ((run g o lattice pruner).graph.node c.node).edges) :
    ∃ k : Nat, k < (forest g o lattice pruner).edges.size ∧
      ((forest g o lattice pruner).edge k).head ≠ (forest g o lattice pruner).goal ∧
      ((forest g o lattice pruner).edge k).tails.length =
        ((run g o lattice pruner).graph.edge e).tails.length ∧
      ((forest g o lattice pruner).edge k).rule = ((run g o lattice pruner).graph.edge e).rule ∧
      ((forest g o lattice pruner).edge k).attributes =
        ((run g o lattice pruner).graph.edge e).attributes := by
  obtain ⟨ledger, h⟩ := exists_finished (List.ne_nil_of_mem hc)
  obtain ⟨i, hi⟩ := List.getElem?_of_mem hc
  rw [forest_of_mem_goalCells hc]
  obtain ⟨nodeOf, edgeOf, hpart, -, hedges⟩ := (h.descending.keepsReached h.topped.linked.owned
    h.tailsInside (h.root_lt _ h.root) h.root).left
  have hnode := h.recorded.bound _ _ c (mem_goalCells.mp hc).1
  have hlisted := (h.topped.mem_edges_old h.recorded hnode).mpr he
  obtain ⟨hlt, -, hhead⟩ := (h.recorded.linked.listed _ e).mp he
  have hreach : (goalGraph g o lattice pruner).Reaches
      (run g o lattice pruner).graph.nodes.size c.node := by
    refine .single ⟨_, Hypergraph.mem_links.mpr ⟨(h.topped.mem_edges_goal h.recorded).mpr
      ⟨i, c, hi, rfl⟩, ?_⟩⟩
    rw [h.topped.new i c hi]
    exact List.mem_singleton_self _
  obtain ⟨k, hk, rfl⟩ := hedges.surjOn ⟨c.node, hreach, hlisted⟩
  rw [← h.topped.old _ hlt] at hhead ⊢
  refine ⟨k, hk, fun hgoal => ?_, ?_, (hpart.rule k hk).symm, (hpart.attributes k hk).symm⟩
  · have hroot := hpart.goal_eq
    rw [← hgoal, ← hpart.head k hk, h.root, hhead] at hroot
    exact Nat.ne_of_gt hnode (Option.some.inj hroot)
  · rw [hpart.tails k hk, List.length_map]

end ParseForest
