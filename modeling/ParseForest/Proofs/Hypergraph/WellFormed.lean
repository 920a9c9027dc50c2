import Mathlib.Data.List.Permutation
import ParseForest.Proofs.Hypergraph.Sorted

/-!
# Sorted graphs are well formed

A graph that is built step by step, where no edge is connected twice, is linked. Sorting such a
graph leaves nothing, or a graph in which numbers are positions, tails come before heads, the goal
comes last, and every node is reached from the goal and derived by an edge.

The tails of an edge that is kept stand before its node in the order of the search, so their
copies get smaller numbers. Kept edges lead from the goal to whatever is marked as reached, and
they lead downwards, so no number is greater than that of the goal.
-/

namespace ParseForest.Hypergraph

variable {V : Type} {g g' : Hypergraph V} {goal : Nat}

/-- Graphs that are built from nothing, where an edge is connected at most once. Tails and the
goal may be written down before their nodes are there. -/
inductive Built : Hypergraph V → Prop
  | empty : Built empty
  | addNode {g : Hypergraph V} (before : Built g) : Built g.addNode
  | addEdge {g : Hypergraph V} (before : Built g) (tails : List NodeId) (rule : Option Rule)
      (features : FeatureVector V) (attributes : AttributeVector V) :
      Built (g.addEdge tails rule features attributes)
  | connect {g : Hypergraph V} (before : Built g) {e head : Nat}
      (fits : g.canConnect e head = true) (loose : (g.edge e).head = none) :
      Built (g.connect e head)
  | withGoal {g : Hypergraph V} (before : Built g) (goal : Option NodeId) :
      Built (g.withGoal goal)

structure WellFormed (g : Hypergraph V) (goal : Nat) : Prop where
  goal_eq : g.goal = some goal
  last : goal + 1 = g.nodes.size
  node_id : ∀ n : Nat, n < g.nodes.size → (g.node n).id = n
  edge_id : ∀ e : Nat, e < g.edges.size → (g.edge e).id = e
  once : ∀ e : Nat, e < g.edges.size → ∃ head : Nat, head < g.nodes.size ∧
    (g.edge e).head = some head ∧
      ∀ n : Nat, (g.node n).edges.count e = if n = head then 1 else 0
  inside : ∀ n : Nat, ∀ e ∈ (g.node n).edges, (show Nat from e) < g.edges.size
  below : ∀ e head : Nat, (g.edge e).head = some head →
    ∀ t ∈ (g.edge e).tails, (show Nat from t) < head
  reached : ∀ n : Nat, n < g.nodes.size → g.Reaches goal n
  derived : ∀ n : Nat, n < g.nodes.size →
    ∃ e ∈ (g.node n).edges, ∀ t ∈ (g.edge e).tails, (show Nat from t) < g.nodes.size

/-- `g'` is a part of `g`: the nodes and edges of `g'` stand for different ones of `g`, and an
edge has the node, all of the tails and the contents of the edge that it stands for. -/
structure PartOf (g g' : Hypergraph V) (nodeOf : NodeId → NodeId) (edgeOf : EdgeId → EdgeId) :
    Prop where
  goal_eq : g.goal = g'.goal.map nodeOf
  nodes : Set.InjOn nodeOf {n : Nat | n < g'.nodes.size}
  edges : Set.InjOn edgeOf {e : Nat | e < g'.edges.size}
  listed : ∀ n : Nat, ∀ e ∈ (g'.node n).edges, edgeOf e ∈ (g.node (nodeOf n)).edges
  head : ∀ e : Nat, e < g'.edges.size →
    (g.edge (edgeOf e)).head = (g'.edge e).head.map nodeOf
  tails : ∀ e : Nat, e < g'.edges.size →
    (g.edge (edgeOf e)).tails = (g'.edge e).tails.map nodeOf
  rule : ∀ e : Nat, e < g'.edges.size → (g.edge (edgeOf e)).rule = (g'.edge e).rule
  features : ∀ e : Nat, e < g'.edges.size → (g.edge (edgeOf e)).features = (g'.edge e).features
  attributes : ∀ e : Nat, e < g'.edges.size →
    (g.edge (edgeOf e)).attributes = (g'.edge e).attributes

/-! ## Building -/

structure Numbered (g : Hypergraph V) : Prop where
  node_id : ∀ n : Nat, (g.node n).id = n
  edge_id : ∀ e : Nat, (g.edge e).id = e

namespace Numbered

theorem empty : (empty : Hypergraph V).Numbered :=
  ⟨fun n => by rw [node_eq_of_le (Nat.zero_le n)], fun _ => rfl⟩

theorem addNode (h : g.Numbered) : g.addNode.Numbered :=
  ⟨fun n => by rw [node_addNode, h.node_id], h.edge_id⟩

theorem addEdge (h : g.Numbered) (tails : List NodeId) (rule : Option Rule)
    (features : FeatureVector V) (attributes : AttributeVector V) :
    (g.addEdge tails rule features attributes).Numbered := by
  refine ⟨h.node_id, fun e => ?_⟩
  rw [edge_addEdge]
  split
  · rfl
  · exact h.edge_id e

theorem connect (h : g.Numbered) (e head : Nat) : (g.connect e head).Numbered := by
  by_cases he : e < g.edges.size
  · refine ⟨fun n => ?_, fun e' => ?_⟩
    · rw [node_connect g he]
      split
      · exact h.node_id n
      · exact h.node_id n
    · rw [edge_connect g he]
      split
      · exact h.edge_id e'
      · exact h.edge_id e'
  · have hsame : g.connect e head = g := by simp [Hypergraph.connect, hasEdge, he]
    rw [hsame]
    exact h

theorem withGoal (h : g.Numbered) (goal : Option NodeId) : (g.withGoal goal).Numbered :=
  ⟨h.node_id, h.edge_id⟩

theorem repeat_addNode (n : Nat) :
    (Nat.repeat Hypergraph.addNode n (Hypergraph.empty : Hypergraph V)).Numbered := by
  induction n with
  | zero => exact empty
  | succ n ih => exact ih.addNode

theorem renumber (shares : List (NodeId × List EdgeId)) (goal : NodeId) :
    (g.renumber shares goal).Numbered := by
  rw [renumber_eq]
  refine Numbered.withGoal ?_ _
  induction copies shares using List.reverseRecOn with
  | nil => exact repeat_addNode _
  | append_singleton made c ih =>
    rw [List.foldl_append]
    exact (ih.addEdge _ _ _ _).connect _ _

end Numbered

theorem linked_addEdge (h : g.Linked) (tails : List NodeId) (rule : Option Rule)
    (features : FeatureVector V) (attributes : AttributeVector V) :
    (g.addEdge tails rule features attributes).Linked := by
  refine ⟨fun n e => ?_, h.nodup⟩
  rw [node_addEdge, edge_addEdge, nodes_addEdge, size_edges_addEdge, h.listed]
  by_cases he : e = g.edges.size
  · simp [he]
  · rw [if_neg he]
    exact and_congr_left' (by omega)

theorem linked_connect (h : g.Linked) {e head : Nat} (he : e < g.edges.size)
    (hhead : head < g.nodes.size) (loose : (g.edge e).head = none) :
    (g.connect e head).Linked := by
  have hnew : ∀ n : Nat, e ∉ (g.node n).edges := by
    intro n hmem
    have hn := ((h.listed n e).mp hmem).2.2
    rw [loose] at hn
    cases hn
  refine ⟨fun n e' => ?_, fun n => ?_⟩
  · rw [node_connect g he, edge_connect g he, size_edges_connect, size_nodes_connect]
    by_cases heq : e' = e
    · subst heq
      by_cases hn : n = head
      · subst hn
        simp [he, hhead]
      · simp [hn, hnew n, Ne.symm hn]
    · rw [if_neg heq, ← h.listed]
      split
      · simp [heq]
      · rfl
  · rw [node_connect g he]
    split
    · refine List.nodup_append.mpr ⟨h.nodup n, List.nodup_singleton e, fun a ha b hb => ?_⟩
      rw [List.mem_singleton.mp hb]
      exact fun heq => hnew n (heq ▸ ha)
    · exact h.nodup n

theorem Built.linked_and_heads (h : g.Built) :
    g.Linked ∧ ∀ e n : Nat, (g.edge e).head = some n → n < g.nodes.size := by
  induction h with
  | empty => exact ⟨linked_empty, fun e n hn => by cases hn⟩
  | addNode before ih =>
    refine ⟨ih.1.addNode fun e _ n hn => ih.2 e n hn, fun e n hn => ?_⟩
    rw [size_nodes_addNode]
    exact Nat.lt_succ_of_lt (ih.2 e n hn)
  | addEdge before tails rule features attributes ih =>
    refine ⟨linked_addEdge ih.1 tails rule features attributes, fun e n hn => ?_⟩
    rw [edge_addEdge] at hn
    split at hn
    · cases hn
    · exact ih.2 e n hn
  | @connect g before e head fits loose ih =>
    obtain ⟨he, hhead⟩ : e < g.edges.size ∧ head < g.nodes.size := by
      simpa [canConnect, hasEdge, hasNode] using fits
    refine ⟨linked_connect ih.1 he hhead loose, fun e' n hn => ?_⟩
    rw [edge_connect g he] at hn
    rw [size_nodes_connect]
    split at hn
    · exact Option.some.inj hn ▸ hhead
    · exact ih.2 e' n hn
  | withGoal before goal ih => exact ⟨ih.1.withGoal goal, ih.2⟩

theorem Built.extend (h : g.Built) {head : Nat} (hhead : head < g.nodes.size)
    (tails : List NodeId) (rule : Option Rule) (features : FeatureVector V)
    (attributes : AttributeVector V) : (g.extend head tails rule features attributes).Built := by
  refine .connect (h.addEdge tails rule features attributes) ?_ ?_
  · simp [canConnect, hasEdge, hasNode, hhead]
  · rw [edge_addEdge, if_pos rfl]

theorem Built.linked (h : g.Built) : g.Linked := h.linked_and_heads.1

theorem sort?_eq_some (hl : g.Owned) (hin : g.TailsInside)
    (hgoal : ∀ goal : Nat, g.goal = some goal → goal < g.nodes.size) :
    g.sort? = some g.sorted := by
  refine if_pos ?_
  unfold isClosed
  split
  · rfl
  · rename_i goal hg
    simp only [hasNode, Bool.and_eq_true, List.all_eq_true, decide_eq_true_eq]
    refine ⟨hgoal goal hg, fun n _ l hlink => ?_⟩
    obtain ⟨he, ht⟩ := mem_links.mp hlink
    exact hin l.1 (hl.owned n l.1 he).1 l.2 ht

/-! ## What is left, by position -/

structure Renumbered (g g' : Hypergraph V) (nodes : List NodeId) (own : NodeId → List EdgeId)
    (place : NodeId → NodeId) (back : EdgeId → EdgeId) : Prop
    extends Copied g g' nodes own place back where
  linked : g'.Linked
  numbered : g'.Numbered
  size : g'.nodes.size = nodes.length
  place_eq : ∀ i n : Nat, nodes[i]? = some n → place n = i
  connected : ∀ e : Nat, e < g'.edges.size →
    ∃ i : Nat, i < g'.nodes.size ∧ (g'.edge e).head = some i
  same : SameEdges g g' back

theorem renumbered_sorted (hl : g.Owned) (hin : g.TailsInside) (hg : g.goal = some goal)
    (hlt : goal < g.nodes.size)
    (hnode : (g.derivable (g.searchFrom goal)).hasNode goal = true) :
    ∃ place back, Renumbered g g.sorted (g.remaining goal) (g.keptEdges goal) place back ∧
      g.sorted.goal = some (place goal) := by
  have hnd := nodup_remaining hlt
  have hinside : ∀ n ∈ g.remaining goal, (show Nat from n) < g.nodes.size :=
    fun n hn => lt_of_mem_remaining hlt hn
  obtain ⟨back, hcopy, hsame⟩ := @copied_renumber V g goal hl _ _ hnd hinside
    (tail_mem_remaining hl hin hlt)
  rw [sorted_eq_renumber hl hg hlt hnode]
  generalize hshares : (g.remaining goal).map (fun n => (n, g.keptEdges goal n)) = shares
  have hmap : shares.map (·.1) = g.remaining goal := by
    simp only [← hshares, List.map_map, Function.comp_def, List.map_id_fun', id]
  obtain ⟨hl', hsize, hsizeEdges, hedge⟩ := renumber_spec (g := g)
    (hmap ▸ hnd : (shares.map (·.1)).Nodup) (hmap ▸ hinside) goal
  have hplace : ∀ i n : Nat, (g.remaining goal)[i]? = some n →
      (g.placesOf shares).getD n 0 = i := by
    intro i n hi
    rw [placesOf, hmap]
    exact getD_positions hnd hinside hi
  have hlen : shares.length = (g.remaining goal).length := by rw [← hmap, List.length_map]
  refine ⟨fun n => (g.placesOf shares).getD n 0, back, ⟨hshares ▸ hcopy, hl',
    Numbered.renumber shares goal, hsize.trans hlen, hplace, fun e he => ?_,
    hshares ▸ hsame⟩, by rw [renumber_eq]; rfl⟩
  rw [hsizeEdges] at he
  have hget := List.getElem?_eq_getElem he
  obtain ⟨es, hc, -⟩ := mem_copies.mp (List.getElem_mem he)
  have hmem : (copies shares)[e].1 ∈ g.remaining goal := hmap ▸ List.mem_map_of_mem hc
  obtain ⟨i, hi⟩ := List.getElem?_of_mem hmem
  refine ⟨i, ?_, ?_⟩
  · rw [hsize, hlen]
    exact (List.getElem?_eq_some_iff.mp hi).1
  · rw [hedge e _ hget, copyOf, hplace i _ hi]

theorem exists_tail_before (hl : g.Owned) (hin : g.TailsInside) (hlt : goal < g.nodes.size)
    {n : NodeId} (hn : n ∈ g.remaining goal) {e : EdgeId} (he : e ∈ g.keptEdges goal n)
    {t : NodeId} (ht : t ∈ (g.edge e).tails) :
    ∃ i j : Nat, j < i ∧ (g.remaining goal)[i]? = some n ∧ (g.remaining goal)[j]? = some t := by
  have hc := isCyclic_of_mem_keptEdges hl hin hlt he
  have htl := tail_mem_remaining hl hin hlt n hn e he t ht
  have hlink := mem_links.mpr ⟨(List.mem_filter.mp he).1, ht⟩
  obtain ⟨before, after, horder, hbefore⟩ := exists_before hlt
    (hin.link_lt fun n e he => (hl.owned n e he).1)
    (List.mem_reverse.mpr (mem_remaining.mp hn).1) hlink hc
  generalize hp : (fun m : Nat => (g.reached (g.searchFrom goal)
    (g.derivable (g.searchFrom goal)) goal).getD m false) = p
  have hleft : g.remaining goal = before.filter p ++ n :: after.filter p := by
    have hn' : p n = true := hp ▸ (mem_remaining.mp hn).2
    simp only [remaining, horder, hp, List.filter_append, List.filter_cons, if_pos hn']
  have hmem : t ∈ before.filter p :=
    List.mem_filter.mpr ⟨hbefore, hp ▸ (mem_remaining.mp htl).2⟩
  obtain ⟨j, hj⟩ := List.getElem?_of_mem hmem
  have hlen := (List.getElem?_eq_some_iff.mp hj).1
  refine ⟨(before.filter p).length, j, hlen, ?_, ?_⟩
  · rw [hleft, List.getElem?_append_right (Nat.le_refl _), Nat.sub_self]
    rfl
  · rw [hleft, List.getElem?_append_left hlen, hj]

def KeptLink (g : Hypergraph V) (goal : NodeId) (n t : NodeId) : Prop :=
  ∃ e ∈ g.keptEdges goal n, t ∈ (g.edge e).tails

theorem keptLink_of_foldl_reachTails (hl : g.Owned) (hin : g.TailsInside) {seen : List NodeId}
    {start : Array Bool} (hsize : start.size = g.nodes.size)
    (hstart : ∀ m : Nat, start.getD m false = true →
      Relation.ReflTransGen (g.KeptLink goal) goal m) :
    let r := seen.foldl (g.reachTails (g.derivable (g.searchFrom goal))) start
    r.size = g.nodes.size ∧
      ∀ m : Nat, r.getD m false = true → Relation.ReflTransGen (g.KeptLink goal) goal m := by
  induction seen generalizing start with
  | nil => exact ⟨hsize, hstart⟩
  | cons n seen ih =>
    have hstep := getD_reachTails (d := g.derivable (g.searchFrom goal)) hl hin hsize n
    refine ih (hstep 0).1 fun m hm => ?_
    rcases (hstep m).2.mp hm with hm | ⟨hn, e, he, hd, ht⟩
    · exact hstart m hm
    · exact (hstart n hn).tail ⟨e, List.mem_filter.mpr ⟨he, hd⟩, ht⟩

theorem keptLink_of_mem_remaining (hl : g.Owned) (hin : g.TailsInside) {n : NodeId}
    (hn : n ∈ g.remaining goal) : Relation.ReflTransGen (g.KeptLink goal) goal n := by
  have hfold := @keptLink_of_foldl_reachTails V g goal hl hin (g.searchFrom goal).finished
    ((Array.replicate g.nodes.size false).setIfInBounds goal true) (by simp)
  refine (hfold fun m hm => ?_).2 n (mem_remaining.mp hn).2
  rw [getD_setIfInBounds] at hm
  split at hm
  · rename_i heq
    rw [heq.1]
  · simp [Array.getD_eq_getD_getElem?, Array.getElem?_replicate] at hm
    split at hm <;> simp at hm

theorem exists_keptEdge (hl : g.Owned) (hin : g.TailsInside) (hlt : goal < g.nodes.size)
    (hnode : (g.derivable (g.searchFrom goal)).hasNode goal = true) {n : NodeId}
    (hn : n ∈ g.remaining goal) : ∃ e, e ∈ g.keptEdges goal n := by
  have hd := decided_derivable hl hin hlt
  suffices hhas : (g.derivable (g.searchFrom goal)).hasNode n = true by
    obtain ⟨-, e, he, hde⟩ := (hd.node n).mp hhas
    exact ⟨e, List.mem_filter.mpr ⟨he, hde⟩⟩
  rcases (keptLink_of_mem_remaining hl hin hn).cases_tail with heq | ⟨m, -, e, he, ht⟩
  · exact heq ▸ hnode
  · obtain ⟨_, -, -, -, htails⟩ := (hd.edge e).mp (List.mem_filter.mp he).2
    exact htails n ht

/-! ## The sorted graph -/

namespace Renumbered

variable {nodes : List NodeId} {own : NodeId → List EdgeId} {place : NodeId → NodeId}
  {back : EdgeId → EdgeId}

theorem exists_node (h : Renumbered g g' nodes own place back) {i : Nat}
    (hi : i < g'.nodes.size) : ∃ n ∈ nodes, nodes[i]? = some n ∧ place n = i := by
  rw [h.size] at hi
  have hget := List.getElem?_eq_getElem hi
  exact ⟨nodes[i], List.getElem_mem hi, hget, h.place_eq i _ hget⟩

theorem place_lt (h : Renumbered g g' nodes own place back) {n : NodeId} (hn : n ∈ nodes) :
    (show Nat from place n) < g'.nodes.size := by
  obtain ⟨i, hi⟩ := List.getElem?_of_mem hn
  rw [h.place_eq i n hi, h.size]
  exact (List.getElem?_eq_some_iff.mp hi).1

theorem exists_owner (h : Renumbered g g' nodes own place back) {e : Nat}
    (he : e < g'.edges.size) :
    ∃ n ∈ nodes, e ∈ (g'.node (place n)).edges ∧ (g'.edge e).head = some (place n) := by
  obtain ⟨i, hi, hhead⟩ := h.connected e he
  obtain ⟨n, hn, -, rfl⟩ := h.exists_node hi
  exact ⟨n, hn, (h.linked.listed _ e).mpr ⟨he, hi, hhead⟩, hhead⟩

theorem getElem?_place (h : Renumbered g g' nodes own place back) {n : NodeId} (hn : n ∈ nodes) :
    nodes[(show Nat from place n)]? = some n := by
  obtain ⟨i, hi⟩ := List.getElem?_of_mem hn
  rwa [h.place_eq i n hi]

theorem getD_place (h : Renumbered g g' nodes own place back) {n : NodeId} (hn : n ∈ nodes) :
    nodes.getD (place n) 0 = n := by
  rw [List.getD_eq_getElem?_getD, h.getElem?_place hn]
  rfl

theorem link (h : Renumbered g g' nodes own place back) {n : NodeId} (hn : n ∈ nodes)
    {e : EdgeId} (he : e ∈ own n) {t : NodeId} (ht : t ∈ (g.edge e).tails) :
    g'.Link (place n) (place t) := by
  obtain ⟨k, hk, rfl⟩ := h.copied n hn e he
  refine ⟨k, mem_links.mpr ⟨hk, ?_⟩⟩
  rw [h.tails n hn k hk]
  exact List.mem_map_of_mem ht

theorem partOf (h : Renumbered g g' nodes own place back) (hl : g.Owned)
    (hg : g.goal = some goal) (hgoal : goal ∈ nodes) (hg' : g'.goal = some (place goal)) :
    PartOf g g' (fun i => nodes.getD i 0) back := by
  have hsame : ∀ e : Nat, e < g'.edges.size → (g'.edge e).rule = (g.edge (back e)).rule ∧
      (g'.edge e).features = (g.edge (back e)).features ∧
      (g'.edge e).attributes = (g.edge (back e)).attributes := by
    intro e he
    obtain ⟨n, -, hlisted, -⟩ := h.exists_owner he
    exact h.same _ e hlisted
  refine ⟨by rw [hg, hg', Option.map_some, h.getD_place hgoal], ?_, ?_, fun i e he => ?_,
    fun e he => ?_, fun e he => ?_, fun e he => (hsame e he).1.symm, fun e he =>
      (hsame e he).2.1.symm,
    fun e he => (hsame e he).2.2.symm⟩
  · intro i hi j hj heq
    obtain ⟨n, -, hn, hi⟩ := h.exists_node hi
    obtain ⟨m, -, hm, hj⟩ := h.exists_node hj
    simp only [List.getD_eq_getElem?_getD, hn, hm, Option.getD_some] at heq
    rw [← hi, ← hj, heq]
  · intro e he e' he' heq
    obtain ⟨n, hn, hlisted, -⟩ := h.exists_owner he
    obtain ⟨m, hm, hlisted', -⟩ := h.exists_owner he'
    have hown := h.own_sub n hn _ (h.listed n hn e hlisted)
    have hown' := h.own_sub m hm _ (h.listed m hm e' hlisted')
    rw [← heq] at hown'
    obtain rfl : n = m := hl.node_eq hown hown'
    exact h.once n hn e hlisted e' hlisted' heq
  · obtain ⟨n, hn, -, rfl⟩ := h.exists_node ((h.linked.listed i e).mp he).2.1
    rw [h.getD_place hn]
    exact h.own_sub n hn _ (h.listed n hn e he)
  · obtain ⟨n, hn, hlisted, hhead⟩ := h.exists_owner he
    rw [hhead, Option.map_some, h.getD_place hn]
    exact (hl.owned n _ (h.own_sub n hn _ (h.listed n hn e hlisted))).2.2
  · obtain ⟨n, hn, hlisted, -⟩ := h.exists_owner he
    rw [h.tails n hn e hlisted, List.map_map]
    refine (List.map_id _).symm.trans (List.map_congr_left fun t ht => ?_)
    exact (h.getD_place (h.closed n hn _ (h.listed n hn e hlisted) t ht)).symm

end Renumbered

section

variable {place : NodeId → NodeId} {back : EdgeId → EdgeId}
  (h : Renumbered g g' (g.remaining goal) (g.keptEdges goal) place back)
  (hl : g.Owned) (hin : g.TailsInside) (hlt : goal < g.nodes.size)
include h hl hin hlt

/-- Tails are finished first, so they stand earlier among the nodes that are left. -/
theorem Renumbered.tailsBelow : g'.TailsBelow := by
  intro i e he t ht
  obtain ⟨n, hn, -, rfl⟩ := h.exists_node ((h.linked.listed i e).mp he).2.1
  rw [h.tails n hn e he] at ht
  obtain ⟨u, hu, rfl⟩ := List.mem_map.mp ht
  obtain ⟨i, j, hlt, hi, hj⟩ := exists_tail_before hl hin hlt hn (h.listed n hn e he) hu
  rw [h.place_eq i n hi, h.place_eq j u hj]
  exact hlt

theorem Renumbered.reaches_place {n : NodeId}
    (hn : Relation.ReflTransGen (g.KeptLink goal) goal n) :
    n ∈ g.remaining goal ∧ g'.Reaches (place goal) (place n) := by
  induction hn with
  | refl => exact ⟨goal_mem_remaining hl hin hlt, Relation.ReflTransGen.refl⟩
  | tail _ hlink ih =>
    obtain ⟨e, he, ht⟩ := hlink
    exact ⟨tail_mem_remaining hl hin hlt _ ih.1 e he _ ht, ih.2.tail (h.link ih.1 he ht)⟩

theorem Renumbered.reaches (i : Nat) (hi : i < g'.nodes.size) : g'.Reaches (place goal) i := by
  obtain ⟨n, hn, -, rfl⟩ := h.exists_node hi
  exact (h.reaches_place hl hin hlt (keptLink_of_mem_remaining hl hin hn)).2

end

theorem wellFormed_sorted_of_hasNode (hl : g.Owned) (hin : g.TailsInside) (hg : g.goal = some goal)
    (hlt : goal < g.nodes.size)
    (hnode : (g.derivable (g.searchFrom goal)).hasNode goal = true) :
    (∃ goal' : Nat, g.sorted.WellFormed goal') ∧
      ∃ nodeOf edgeOf, PartOf g g.sorted nodeOf edgeOf := by
  obtain ⟨place, back, h, hg'⟩ := renumbered_sorted hl hin hg hlt hnode
  have hgoal := goal_mem_remaining hl hin hlt
  have hbelow := h.tailsBelow hl hin hlt
  have hreached := h.reaches hl hin hlt
  refine ⟨⟨place goal, hg', ?_, fun n _ => h.numbered.node_id n, fun e _ => h.numbered.edge_id e,
    fun e he => ?_, fun n e he => ((h.linked.listed n e).mp he).1, fun e i hhead => ?_, hreached,
    fun i hi => ?_⟩, _, _, h.partOf hl hg hgoal hg'⟩
  · refine Nat.le_antisymm (h.place_lt hgoal) ?_
    have hpos := h.place_lt hgoal
    have hle := le_of_reaches (fun n l hlink => hbelow n l.1 (mem_links.mp hlink).1 l.2
      (mem_links.mp hlink).2) (hreached (g.sorted.nodes.size - 1) (by omega))
    omega
  · obtain ⟨n, hn, hlisted, hhead⟩ := h.exists_owner he
    refine ⟨place n, h.place_lt hn, hhead, fun m => ?_⟩
    split
    · rename_i heq
      rw [heq]
      exact List.count_eq_one_of_mem (h.linked.nodup _) hlisted
    · rename_i hne
      exact List.count_eq_zero.mpr fun hmem => hne (h.linked.owned.node_eq hmem hlisted)
  · by_cases he : e < g.sorted.edges.size
    · obtain ⟨n, -, hlisted, hhead'⟩ := h.exists_owner he
      rw [hhead'] at hhead
      cases hhead
      exact hbelow _ e hlisted
    · simp [edge, Array.getD, he] at hhead
  · obtain ⟨n, hn, -, rfl⟩ := h.exists_node hi
    obtain ⟨e, he⟩ := exists_keptEdge hl hin hlt hnode hn
    obtain ⟨k, hk, -⟩ := h.copied n hn e he
    exact ⟨k, hk, fun t ht => Nat.lt_trans (hbelow _ k hk t ht) hi⟩

/-- Sorting a built graph whose tails and goal are nodes is not refused. It leaves nothing, when
every derivation of the goal uses an edge that closes a cycle, or else a well-formed part of the
graph. -/
theorem Built.wellFormed_sorted (h : g.Built) (hin : g.TailsInside)
    (hgoal : ∀ goal : Nat, g.goal = some goal → goal < g.nodes.size) :
    g.sort? = some g.sorted ∧
      (g.sorted = Hypergraph.empty ∧ (∀ x ∈ g.goalTrees, ¬x.All fun e => ¬g.closesCycle e) ∨
        (∃ goal' : Nat, g.sorted.WellFormed goal') ∧
          ∃ nodeOf edgeOf, PartOf g g.sorted nodeOf edgeOf) := by
  have hl := h.linked.owned
  refine ⟨sort?_eq_some hl hin hgoal, ?_⟩
  obtain ⟨back, hbij, -⟩ := sorted_bijOn hl hin hgoal
  have hlost : g.sorted = Hypergraph.empty →
      ∀ x ∈ g.goalTrees, ¬x.All fun e => ¬g.closesCycle e := by
    intro hempty x hx hall
    obtain ⟨y, hy, -⟩ := hbij.surjOn ⟨hx, hall⟩
    rw [hempty, goalTrees_empty] at hy
    exact hy
  cases hg : g.goal with
  | none =>
    have hempty := sorted_eq_empty_of_none hg
    exact Or.inl ⟨hempty, hlost hempty⟩
  | some goal =>
    by_cases hnode : (g.derivable (g.searchFrom goal)).hasNode goal = true
    · exact Or.inr (wellFormed_sorted_of_hasNode hl hin hg (hgoal goal hg) hnode)
    · have hempty := sorted_eq_empty hg hnode
      exact Or.inl ⟨hempty, hlost hempty⟩

def pair : Hypergraph Nat :=
  let first := empty.addNode.extend 0 [] none NameMap.empty NameMap.empty
  let second := first.addNode.extend 1 [0] none NameMap.empty NameMap.empty
  let back := second.extend 0 [1] none NameMap.empty NameMap.empty
  (back.addEdge [0, 1] none NameMap.empty NameMap.empty).withGoal (some 1)

theorem built_pair : pair.Built := by
  refine .withGoal (.addEdge (.extend (.extend (.addNode (.extend (.addNode .empty) ?_ _ _ _ _)) ?_
    _ _ _ _) ?_ _ _ _ _) _ _ _ _) _
  all_goals decide

theorem wellFormed_sorted_pair :
    pair.Built ∧ pair.TailsInside ∧ (∀ goal : Nat, pair.goal = some goal → goal < pair.nodes.size) ∧
      pair.sort? = some pair.sorted ∧ pair.sorted.edges.size = 2 ∧
      ∃ goal' : Nat, pair.sorted.WellFormed goal' := by
  have hin : pair.TailsInside := by
    have hall : ∀ e < 4, ∀ t ∈ (pair.edge e).tails, t < 2 := by decide
    exact hall
  have hgoal : ∀ goal : Nat, pair.goal = some goal → goal < pair.nodes.size := by
    intro goal hg
    cases hg
    decide
  have hsize : pair.sorted.edges.size = 2 := by cbv
  obtain ⟨hsort, ⟨hempty, -⟩ | ⟨hform, -⟩⟩ := built_pair.wellFormed_sorted hin hgoal
  · rw [hempty] at hsize
    cases hsize
  · exact ⟨built_pair, hin, hgoal, hsort, hsize, hform⟩

end ParseForest.Hypergraph
