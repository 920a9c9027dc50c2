import ParseForest.Hypergraph.Inside
import ParseForest.Proofs.Forest.Graph
import ParseForest.Proofs.Hypergraph.Isomorphic
import ParseForest.Proofs.Tables.Unbinarized

/-!
# Working on a parse with tables

The numbers written in a graph that a parser returns are numbers of its own nodes and edges. So are
those in the graph that undoing its binarization leaves. On such a graph neither undoing
binarization nor summing up inside scores, which keeps a table of the scores of nodes, has an
access that fails.
-/

namespace ParseForest

variable {V S : Type}

namespace Hypergraph

structure Compact (g : Hypergraph V) : Prop where
  linked : g.Linked
  inside : g.TailsInside
  node_id : ∀ n : Nat, n < g.nodes.size → (g.node n).id = n
  goal : ∀ goal : Nat, g.goal = some goal → goal < g.nodes.size

variable {g : Hypergraph V}

theorem compact_empty : (empty : Hypergraph V).Compact :=
  ⟨linked_empty, fun _ he => absurd he (Nat.not_lt_zero _),
    fun _ hn => absurd hn (Nat.not_lt_zero _), fun _ h => by cases h⟩

theorem WellFormed.compact {goal : Nat} (h : g.WellFormed goal) : g.Compact := by
  refine ⟨⟨fun n e => ⟨h.of_mem_edges, ?_⟩, fun n => ?_⟩, fun e he t ht => ?_, h.node_id,
    fun n hn => ?_⟩
  · rintro ⟨he, -, hhead⟩
    obtain ⟨m, hm, hmem⟩ := h.exists_node he
    have heq := (h.of_mem_edges hmem).2.2
    rw [hhead] at heq
    cases heq
    exact hmem
  · refine List.nodup_iff_count_le_one.mpr fun e => ?_
    by_cases he : e ∈ (g.node n).edges
    · obtain ⟨head, -, -, hcount⟩ := h.once e (h.inside n e he)
      rw [hcount]
      split <;> omega
    · rw [List.count_eq_zero.mpr he]
      omega
  · obtain ⟨head, hlt, hhead, -⟩ := h.once e he
    exact Nat.lt_trans (h.below e head hhead t ht) hlt
  · rw [h.goal_eq] at hn
    cases hn
    exact h.goal_lt

theorem compact_sorted (howned : g.Owned) (hin : g.TailsInside)
    (hgoal : ∀ goal : Nat, g.goal = some goal → goal < g.nodes.size) : g.sorted.Compact := by
  cases hg : g.goal with
  | none =>
    rw [sorted_eq_empty_of_none hg]
    exact compact_empty
  | some goal =>
    by_cases hnode : (g.derivable (g.searchFrom goal)).hasNode goal = true
    · obtain ⟨⟨goal', h⟩, -⟩ :=
        wellFormed_sorted_of_hasNode howned hin hg (hgoal goal hg) hnode
      exact h.compact
    · rw [sorted_eq_empty hg hnode]
      exact compact_empty

/-! ## Inside scores -/

section Inside

variable [Score S]

def addEdgeAt? (g : Hypergraph V) (w : Weighting V S) (scores : Array S) (sum : S) (e : EdgeId) :
    Option S := do
  let edge ← g.edges[e]?
  let tails ← edge.tails.foldlM (fun acc t => do
    let score ← scores[t]?
    return Score.mul acc score) Score.one
  return Score.add sum (Score.mul (w edge.features) tails)

def scoreNodeAt? (g : Hypergraph V) (w : Weighting V S) (scores : Array S) (n : Node) :
    Option (Array S) := do
  let score ← n.edges.foldlM (g.addEdgeAt? w scores) Score.zero
  setAt? scores n.id score

def insideAt? (g : Hypergraph V) (w : Weighting V S) : Option S :=
  match g.goal with
  | none => some Score.zero
  | some goal => do
    let scores ← g.nodes.toList.foldlM (g.scoreNodeAt? w)
      (Array.replicate g.nodes.size Score.zero)
    scores[goal]?

variable {w : Weighting V S}

structure Scored (g : Hypergraph V) (done : List Node) (scores' scores : Array S) : Prop where
  full : scores'.size = g.nodes.size
  size : scores.size = done.length
  same : ∀ t : Nat, scores'.getD t Score.zero = scores.getD t Score.zero

theorem addEdgeAt?_eq {done : List Node} {scores' scores : Array S}
    (h : Scored g done scores' scores) (hin : g.TailsInside) {e : Nat} (he : e < g.edges.size)
    (sum : S) : g.addEdgeAt? w scores' sum e =
      some (Score.add sum (edgeScore w scores (g.edge e))) := by
  have htails : (g.edge e).tails.foldlM (fun acc t => do
      let score ← scores'[t]?
      return Score.mul acc score) Score.one = some (Score.product Score.one
        ((g.edge e).tails.map fun t => scores.getD t Score.zero)) := by
    rw [Score.product, List.foldl_map]
    refine (foldlM_eq_some (I := fun _ => True) (fun acc t ht _ => ⟨?_, trivial⟩) trivial).1
    rw [getElem?_eq_some_getD (h.full.symm ▸ hin e he t ht) Score.zero, h.same]
    rfl
  rw [addEdgeAt?, edge_of_lt he, Option.bind_eq_bind, Option.bind_some, htails]
  rfl

theorem Scored.scoreNode {done : List Node} {scores' scores : Array S}
    (h : Scored g done scores' scores) (hg : g.Compact) {node : Node} {rest : List Node}
    (hsplit : g.nodes.toList = done ++ node :: rest) :
    Yields (g.scoreNodeAt? w scores' node)
      (Scored g (done ++ [node]) · (scores.push (g.nodeScore w scores node))) := by
  have hget : g.nodes.toList[done.length]? = some node := by simp [hsplit]
  rw [Array.getElem?_toList] at hget
  have hlt := (Array.getElem?_eq_some_iff.mp hget).1
  have hnode : g.node done.length = node := by simp [Hypergraph.node, hget]
  have hid : node.id = done.length := hnode ▸ hg.node_id _ hlt
  have hscore : node.edges.foldlM (g.addEdgeAt? w scores') Score.zero =
      some (g.nodeScore w scores node) := by
    refine (foldlM_eq_some (I := fun _ => True) (fun sum e he _ => ⟨?_, trivial⟩) trivial).1
    exact addEdgeAt?_eq h hg.inside ((hg.linked.listed _ e).mp (hnode.symm ▸ he)).1 sum
  unfold scoreNodeAt?
  refine Yields.bind (.of_eq_some hscore rfl) fun _ heq => ?_
  subst heq
  have hplace : done.length < scores'.size := h.full.symm ▸ hlt
  rw [hid, setAt?_eq_some hplace]
  refine yields_some ⟨by simpa using h.full, by simp [h.size], fun t => ?_⟩
  have hsame := h.same t
  have hsize := h.size
  simp only [Array.getD_eq_getD_getElem?, Array.getElem?_setIfInBounds, Array.getElem?_push]
    at hsame ⊢
  by_cases ht : t = done.length
  · simp [ht, hsize, hplace]
  · simpa [ht, Ne.symm ht, hsize] using hsame

theorem insideAt?_eq (hg : g.Compact) : g.insideAt? w = some (g.inside w) := by
  unfold insideAt? inside
  cases hgoal : g.goal with
  | none => rfl
  | some goal =>
    have hloop : Yields (g.nodes.toList.foldlM (g.scoreNodeAt? w)
        (Array.replicate g.nodes.size Score.zero)) (Scored g g.nodes.toList ·
          (g.insideScores w)) := by
      rw [insideScores, ← Array.foldl_toList]
      refine yields_foldlM_prefix (P := fun done scores' => Scored g done scores'
        (done.foldl (fun scores n => scores.push (g.nodeScore w scores n)) #[])) ?_ ?_
      · rintro done node rest hsplit scores' h
        rw [List.foldl_append]
        exact h.scoreNode hg hsplit
      · refine ⟨by simp, rfl, fun t => ?_⟩
        simp only [Array.getD_eq_getD_getElem?, Array.getElem?_replicate]
        split <;> rfl
    refine Yields.eq_some (hloop.bind fun scores' h => ?_)
    refine .of_eq_some (getElem?_eq_some_getD (h.full.symm ▸ hg.goal goal hgoal) Score.zero) ?_
    exact h.same goal

end Inside

theorem Compact.compact_unbinarized [Scalar V] (hg : g.Compact) :
    g.unbinarizedAt? = some g.unbinarized ∧ g.unbinarized.Compact := by
  refine ⟨unbinarizedAt?_eq hg.linked hg.inside hg.goal, ?_⟩
  obtain ⟨howned, hinside, hsize, hsame⟩ := owned_merged hg.linked hg.inside
  unfold Hypergraph.unbinarized
  split
  · refine compact_sorted howned hinside fun goal hgoal => ?_
    rw [hsize]
    exact hg.goal goal (hsame ▸ hgoal)
  · exact compact_empty

end Hypergraph

theorem compact_forest [Scalar V] (g : Grammar V) (o : Options V) (lattice : Lattice V)
    (pruner : Pruner) : (forest g o lattice pruner).Compact := by
  by_cases hne : ForestState.goalCells g o lattice pruner = []
  · rw [forest_of_nil hne]
    exact Hypergraph.compact_empty
  · obtain ⟨c, hc⟩ := List.exists_mem_of_ne_nil _ hne
    obtain ⟨ledger, hfinished⟩ := ForestState.exists_finished hne
    rw [forest_of_mem_goalCells hc]
    exact Hypergraph.compact_sorted hfinished.topped.linked.owned hfinished.tailsInside
      hfinished.root_lt

end ParseForest
