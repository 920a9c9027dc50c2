import ParseForest.Hypergraph

/-!
# Linked hypergraphs

In a linked graph the two directions of the links agree: a node lists, once each, the edges whose
head it is. The forest parser adds one edge at a time and connects it at once, to a node that is
there or to a new one; both ways keep a graph linked and grounded, with all tails among its nodes.
-/

namespace ParseForest.Hypergraph

variable {V : Type}

structure Linked (g : Hypergraph V) : Prop where
  listed : ∀ n e : Nat, e ∈ (g.node n).edges ↔
    e < g.edges.size ∧ n < g.nodes.size ∧ (g.edge e).head = some n
  nodup : ∀ n : Nat, (g.node n).edges.Nodup

/-- What a node lists are edges whose head it is, once each; an edge may be listed nowhere. -/
structure Owned (g : Hypergraph V) : Prop where
  owned : ∀ n e : Nat, e ∈ (g.node n).edges →
    e < g.edges.size ∧ n < g.nodes.size ∧ (g.edge e).head = some n
  nodup : ∀ n : Nat, (g.node n).edges.Nodup

theorem Linked.owned {g : Hypergraph V} (h : g.Linked) : g.Owned :=
  ⟨fun n e => (h.listed n e).mp, h.nodup⟩

theorem Owned.node_eq {g : Hypergraph V} (h : g.Owned) {n m e : Nat} (hn : e ∈ (g.node n).edges)
    (hm : e ∈ (g.node m).edges) : n = m := by
  have hhead := (h.owned n e hn).2.2
  rw [(h.owned m e hm).2.2] at hhead
  exact (Option.some.inj hhead).symm

def TailsInside (g : Hypergraph V) : Prop :=
  ∀ e : Nat, e < g.edges.size → ∀ t ∈ (g.edge e).tails, t < g.nodes.size

def TailsBelow (g : Hypergraph V) : Prop :=
  ∀ n : Nat, ∀ e ∈ (g.node n).edges, ∀ t ∈ (g.edge e).tails, (show Nat from t) < n

/-! ## What each step does to nodes and edges -/

theorem node_eq_of_le {g : Hypergraph V} {n : Nat} (h : g.nodes.size ≤ n) :
    g.node n = ⟨n, []⟩ := by
  simp [node, Array.getD, Nat.not_lt.mpr h]

theorem node_addNode (g : Hypergraph V) (n : Nat) : g.addNode.node n = g.node n := by
  by_cases hlt : n < g.nodes.size
  · simp [node, addNode, Array.getD, hlt, Nat.lt_succ_of_lt hlt, Array.getElem_push_lt]
  · rw [node_eq_of_le (g := g) (Nat.not_lt.mp hlt)]
    by_cases heq : n = g.nodes.size
    · subst heq
      simp [node, addNode, Array.getD]
    · simp [node, addNode, Array.getD, show ¬n < g.nodes.size + 1 by omega]

theorem edge_addNode (g : Hypergraph V) (e : Nat) : g.addNode.edge e = g.edge e := rfl

section

variable (g : Hypergraph V) (tails : List NodeId) (rule : Option Rule)
  (features : FeatureVector V) (attributes : AttributeVector V)

theorem node_addEdge (n : Nat) :
    (g.addEdge tails rule features attributes).node n = g.node n := rfl

theorem edge_addEdge (e : Nat) :
    (g.addEdge tails rule features attributes).edge e =
      if e = g.edges.size then ⟨e, none, tails, rule, features, attributes⟩ else g.edge e := by
  split
  · rename_i heq
    subst heq
    simp [edge, addEdge, Array.getD]
  · rename_i hne
    by_cases hlt : e < g.edges.size
    · simp [edge, addEdge, Array.getD, hlt, Nat.lt_succ_of_lt hlt, Array.getElem_push_lt]
    · simp [edge, addEdge, Array.getD, hlt, show ¬e < g.edges.size + 1 by omega]

end

theorem node_connect (g : Hypergraph V) {e : Nat} (he : e < g.edges.size) (head n : Nat) :
    (g.connect e head).node n =
      if n = head ∧ head < g.nodes.size then
        { g.node n with edges := (g.node n).edges ++ [e] }
      else g.node n := by
  have hc : (g.connect e head).nodes =
      g.nodes.modify head fun node => { node with edges := node.edges ++ [e] } := by
    simp [connect, hasEdge, he]
  by_cases hlt : n < g.nodes.size
  · by_cases heq : head = n
    · subst heq
      simp [node, hc, Array.getD, hlt, Array.getElem_modify]
    · simp [node, hc, Array.getD, hlt, Array.getElem_modify, heq, Ne.symm heq]
  · have hnot : ¬(n = head ∧ head < g.nodes.size) := fun ⟨h₁, h₂⟩ => hlt (h₁ ▸ h₂)
    simp [node, hc, Array.getD, hlt, hnot]

theorem edge_connect (g : Hypergraph V) {e : Nat} (he : e < g.edges.size) (head : Nat)
    (e' : Nat) :
    (g.connect e head).edge e' =
      if e' = e then { g.edge e' with head := some head } else g.edge e' := by
  have hc : (g.connect e head).edges =
      g.edges.modify e fun edge => { edge with head := some head } := by
    simp [connect, hasEdge, he]
  by_cases hlt : e' < g.edges.size
  · by_cases heq : e = e'
    · subst heq
      simp [edge, hc, Array.getD, hlt, Array.getElem_modify]
    · simp [edge, hc, Array.getD, hlt, Array.getElem_modify, heq, Ne.symm heq]
  · have hne : e' ≠ e := fun heq => hlt (heq ▸ he)
    simp [edge, hc, Array.getD, hlt, hne]

def extend (g : Hypergraph V) (head : Nat) (tails : List NodeId) (rule : Option Rule)
    (features : FeatureVector V) (attributes : AttributeVector V) : Hypergraph V :=
  (g.addEdge tails rule features attributes).connect g.edges.size head

section

variable (g : Hypergraph V) (head : Nat) (tails : List NodeId) (rule : Option Rule)
  (features : FeatureVector V) (attributes : AttributeVector V)

@[simp]
theorem size_nodes_extend :
    (g.extend head tails rule features attributes).nodes.size = g.nodes.size := by
  simp [extend]

@[simp]
theorem size_edges_extend :
    (g.extend head tails rule features attributes).edges.size = g.edges.size + 1 := by
  simp [extend]

@[simp]
theorem goal_extend : (g.extend head tails rule features attributes).goal = g.goal := by
  unfold extend connect
  split <;> rfl

theorem edge_extend (e : Nat) :
    (g.extend head tails rule features attributes).edge e =
      if e = g.edges.size then ⟨e, some head, tails, rule, features, attributes⟩
      else g.edge e := by
  have he : g.edges.size < (g.addEdge tails rule features attributes).edges.size := by simp
  rw [extend, edge_connect _ he, edge_addEdge]
  split <;> rfl

theorem node_extend (n : Nat) :
    (g.extend head tails rule features attributes).node n =
      if n = head ∧ head < g.nodes.size then
        { g.node n with edges := (g.node n).edges ++ [g.edges.size] }
      else g.node n := by
  have he : g.edges.size < (g.addEdge tails rule features attributes).edges.size := by simp
  rw [extend, node_connect _ he, node_addEdge, nodes_addEdge]

end

/-! ## Building keeps a graph linked -/

theorem linked_empty : (empty : Hypergraph V).Linked := by
  refine ⟨fun n e => ?_, fun n => ?_⟩
  · rw [node_eq_of_le (Nat.zero_le n)]
    simp [empty]
  · rw [node_eq_of_le (Nat.zero_le n)]
    exact List.nodup_nil

theorem Linked.addNode {g : Hypergraph V} (h : g.Linked)
    (hheads : ∀ e : Nat, e < g.edges.size → ∀ n : Nat, (g.edge e).head = some n → n < g.nodes.size) :
    g.addNode.Linked := by
  refine ⟨fun n e => ?_, fun n => ?_⟩
  · rw [node_addNode, edge_addNode, edges_addNode, size_nodes_addNode, h.listed]
    constructor
    · rintro ⟨he, hn, hhead⟩
      exact ⟨he, by omega, hhead⟩
    · rintro ⟨he, -, hhead⟩
      exact ⟨he, hheads e he n hhead, hhead⟩
  · rw [node_addNode]
    exact h.nodup n

theorem Linked.withGoal {g : Hypergraph V} (h : g.Linked) (goal : Option NodeId) :
    (g.withGoal goal).Linked := ⟨h.listed, h.nodup⟩

theorem Linked.extend {g : Hypergraph V} (h : g.Linked) {head : Nat}
    (hhead : head < g.nodes.size) (tails : List NodeId) (rule : Option Rule)
    (features : FeatureVector V) (attributes : AttributeVector V) :
    (g.extend head tails rule features attributes).Linked := by
  have hnew : ∀ n, g.edges.size ∉ (g.node n).edges := by
    intro n hmem
    exact Nat.lt_irrefl _ ((h.listed n g.edges.size).mp hmem).1
  refine ⟨fun n e => ?_, fun n => ?_⟩
  · rw [node_extend, edge_extend, size_edges_extend, size_nodes_extend]
    by_cases he : e = g.edges.size
    · subst he
      by_cases hn : n = head
      · subst hn
        simp [hhead]
      · simp [hn, hnew n, Ne.symm hn]
    · have hmem : e ∈ (if n = head ∧ head < g.nodes.size then
          { g.node n with edges := (g.node n).edges ++ [g.edges.size] } else g.node n).edges ↔
          e ∈ (g.node n).edges := by
        split <;> simp [he]
      rw [hmem, h.listed, if_neg he]
      constructor
      · rintro ⟨hlt, hrest⟩
        exact ⟨by omega, hrest⟩
      · rintro ⟨hlt, hrest⟩
        exact ⟨by omega, hrest⟩
  · rw [node_extend]
    split
    · refine List.nodup_append.mpr ⟨h.nodup n, by simp, fun a ha b hb => ?_⟩
      rw [List.mem_singleton] at hb
      subst hb
      exact fun heq => hnew n (heq ▸ ha)
    · exact h.nodup n

theorem TailsInside.extend {g : Hypergraph V} (h : g.TailsInside) (head : Nat)
    {tails : List NodeId} (htails : ∀ t ∈ tails, t < g.nodes.size) (rule : Option Rule)
    (features : FeatureVector V) (attributes : AttributeVector V) :
    (g.extend head tails rule features attributes).TailsInside := by
  intro e he t ht
  rw [edge_extend] at ht
  rw [size_nodes_extend]
  rw [size_edges_extend] at he
  split at ht
  · exact htails t ht
  · exact h e (by omega) t ht

end ParseForest.Hypergraph
