import ParseForest.Proofs.Hypergraph.SortedTwice

/-!
# Graphs apart from their rules

Two graphs may have the same nodes, and edges that differ in their rules only. Adding an edge to
both keeps them so. The search follows tails and no rules, so sorting copies the same nodes and
edges of both, in the same order, and the copies differ in their rules only.
-/

namespace ParseForest.Hypergraph

variable {V : Type}

/-- `g'` is `g` with other rules on its edges. For the head of an edge, `R` says which rule may take
the place of which. -/
structure RulesApart (R : Option NodeId → Option Rule → Option Rule → Prop) (g g' : Hypergraph V) :
    Prop where
  nodes : g'.nodes = g.nodes
  goal : g'.goal = g.goal
  size : g'.edges.size = g.edges.size
  edge : ∀ e : Nat, e < g.edges.size → ∃ rule, g'.edge e = { g.edge e with rule } ∧
    R (g.edge e).head (g.edge e).rule rule

namespace RulesApart

variable {R R' : Option NodeId → Option Rule → Option Rule → Prop} {g g' : Hypergraph V}

theorem empty : RulesApart R (empty : Hypergraph V) Hypergraph.empty :=
  ⟨rfl, rfl, rfl, fun e he => absurd he (Nat.not_lt_zero e)⟩

theorem mono (h : RulesApart R g g')
    (hR : ∀ e : Nat, e < g.edges.size → ∀ rule rule', R (g.edge e).head rule rule' →
      R' (g.edge e).head rule rule') : RulesApart R' g g' := by
  refine ⟨h.nodes, h.goal, h.size, fun e he => ?_⟩
  obtain ⟨rule, hedge, hrule⟩ := h.edge e he
  exact ⟨rule, hedge, hR e he _ _ hrule⟩

theorem addNode (h : RulesApart R g g') : RulesApart R g.addNode g'.addNode :=
  ⟨by simp only [Hypergraph.addNode, h.nodes], h.goal, h.size, h.edge⟩

theorem withGoal (h : RulesApart R g g') (goal : Option NodeId) :
    RulesApart R (g.withGoal goal) (g'.withGoal goal) := ⟨h.nodes, rfl, h.size, h.edge⟩

theorem nodes_extend (g : Hypergraph V) (head : Nat) (tails : List NodeId) (rule : Option Rule)
    (features : FeatureVector V) (attributes : AttributeVector V) :
    (g.extend head tails rule features attributes).nodes =
      g.nodes.modify head fun n => { n with edges := n.edges ++ [g.edges.size] } := by
  simp [Hypergraph.extend, connect, hasEdge]

theorem extend (h : RulesApart R g g') {head : Nat} {rule rule' : Option Rule}
    (hR : R (some head) rule rule') (tails : List NodeId) (features : FeatureVector V)
    (attributes : AttributeVector V) :
    RulesApart R (g.extend head tails rule features attributes)
      (g'.extend head tails rule' features attributes) := by
  refine ⟨?_, by rw [goal_extend, goal_extend, h.goal], ?_, fun e he => ?_⟩
  · rw [nodes_extend, nodes_extend, h.nodes, h.size]
  · rw [size_edges_extend, size_edges_extend, h.size]
  · rw [size_edges_extend] at he
    rw [edge_extend, edge_extend, h.size]
    split
    · exact ⟨rule', rfl, hR⟩
    · exact h.edge e (by omega)

section

variable (h : RulesApart R g g')
include h

theorem node_eq (n : NodeId) : g'.node n = g.node n := by rw [node, node, h.nodes]

theorem exists_rule (e : Nat) : ∃ rule, g'.edge e = { g.edge e with rule } := by
  by_cases he : e < g.edges.size
  · exact (h.edge e he).imp fun _ hedge => hedge.1
  · refine ⟨none, ?_⟩
    have he' : ¬e < g'.edges.size := h.size ▸ he
    simp [Hypergraph.edge, Array.getD, he, he']

theorem tails_eq (e : Nat) : (g'.edge e).tails = (g.edge e).tails := by
  obtain ⟨rule, hedge⟩ := h.exists_rule e
  rw [hedge]

theorem head_eq (e : Nat) : (g'.edge e).head = (g.edge e).head := by
  obtain ⟨rule, hedge⟩ := h.exists_rule e
  rw [hedge]

theorem owned (hl : g.Owned) : g'.Owned := by
  refine ⟨fun n e => ?_, fun n => ?_⟩
  · rw [h.node_eq, h.head_eq, h.nodes, h.size]
    exact hl.owned n e
  · rw [h.node_eq]
    exact hl.nodup n

theorem tailsInside (hin : g.TailsInside) : g'.TailsInside := by
  intro e he
  rw [h.tails_eq, h.nodes]
  exact hin e (h.size ▸ he)

theorem descending (hd : g.Descending) : g'.Descending := by
  refine ⟨fun n e => ?_, fun n => ?_⟩
  · rw [h.node_eq, h.tails_eq]
    exact hd.tails n e
  · rw [h.node_eq, h.nodes]
    exact hd.derived n

theorem links_eq (n : NodeId) : g'.links n = g.links n := by
  simp only [links, h.node_eq, h.tails_eq]

theorem follow_eq (stack : SearchStack) (s : Search) : g'.follow stack s = g.follow stack s := by
  fun_induction Hypergraph.follow g stack s with
  | case1 s => rw [follow]
  | case2 s n rest ih => rw [follow, ih]
  | case3 s n e t links rest ht ih => rw [follow_link, ht, h.links_eq, ← ih]
  | case4 s n e t links rest ht ih => rw [follow_link, ht, ← ih]
  | case5 s n e t links rest ht ih => rw [follow_link, ht, ← ih]
  | case6 s n e t links rest ht ih => rw [follow_link, ht, ← ih]

theorem searchFrom_eq (n : NodeId) : g'.searchFrom n = g.searchFrom n := by
  rw [searchFrom, searchFrom, h.links_eq, h.nodes, h.follow_eq]

theorem found_eq (goal : NodeId) : g'.found goal = g.found goal := by
  simp only [found, h.searchFrom_eq, h.node_eq]

end

theorem renumber (h : RulesApart R g g') {shares : List (NodeId × List EdgeId)}
    (hlt : ∀ c ∈ copies shares, (show Nat from c.2) < g.edges.size)
    (hR : ∀ c ∈ copies shares, ∀ rule rule', R (g.edge c.2).head rule rule' →
      R' (some ((g.placesOf shares).getD c.1 0)) rule rule') (goal : NodeId) :
    RulesApart R' (g.renumber shares goal) (g'.renumber shares goal) := by
  have hplaces : g'.placesOf shares = g.placesOf shares := by
    rw [placesOf, placesOf, h.nodes]
  rw [renumber_eq, renumber_eq, hplaces]
  refine withGoal ?_ _
  generalize copies shares = made at hlt hR
  have hstart : ∀ n, RulesApart R'
      (Nat.repeat Hypergraph.addNode n (Hypergraph.empty : Hypergraph V))
      (Nat.repeat Hypergraph.addNode n Hypergraph.empty) := by
    intro n
    induction n with
    | zero => exact empty
    | succ n ih => exact ih.addNode
  induction made using List.reverseRecOn with
  | nil => exact hstart _
  | append_singleton made c ih =>
    have ih := ih (fun c hc => hlt c (List.mem_append_left _ hc))
      fun c hc => hR c (List.mem_append_left _ hc)
    have hc : c ∈ made ++ [c] := List.mem_append_right _ List.mem_cons_self
    obtain ⟨rule, hedge, hrule⟩ := h.edge c.2 (hlt c hc)
    rw [List.foldl_append, List.foldl_append, List.foldl_cons, List.foldl_cons, List.foldl_nil,
      List.foldl_nil, hedge]
    exact ih.extend (hR c hc _ _ hrule) _ _ _

theorem sorted (h : RulesApart R g g') (hd : g.Descending) (hl : g.Owned) (hin : g.TailsInside)
    {goal : Nat} (hg : g.goal = some goal) (hlt : goal < g.nodes.size)
    (hR : ∀ n ∈ (g.searchFrom goal).order, ∀ rule rule', R (some n) rule rule' →
      R' (some ((g.placesOf (g.found goal)).getD n 0)) rule rule') :
    RulesApart R' g.sorted g'.sorted := by
  have hlisted : ∀ c ∈ copies (g.found goal), c.1 ∈ (g.searchFrom goal).order ∧
      (show Nat from c.2) < g.edges.size ∧ (g.edge c.2).head = some c.1 := by
    intro c hc
    obtain ⟨es, hshare, he⟩ := mem_copies.mp hc
    obtain ⟨n, hn, heq⟩ := List.mem_map.mp hshare
    cases heq
    obtain ⟨hlt, -, hhead⟩ := hl.owned _ _ he
    exact ⟨hn, hlt, hhead⟩
  rw [hd.sorted_eq hl hin hlt hg, (h.descending hd).sorted_eq (h.owned hl) (h.tailsInside hin)
    (h.nodes ▸ hlt) (h.goal.trans hg), h.found_eq]
  refine h.renumber (fun c hc => (hlisted c hc).2.1) (fun c hc rule rule' hrule => ?_) goal
  obtain ⟨hn, -, hhead⟩ := hlisted c hc
  exact hR c.1 hn rule rule' (hhead ▸ hrule)

end RulesApart

end ParseForest.Hypergraph
