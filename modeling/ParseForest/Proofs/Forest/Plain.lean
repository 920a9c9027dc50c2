import ParseForest.Proofs.Cascade.Image
import ParseForest.Proofs.Forest.Edges
import ParseForest.Proofs.Hypergraph.SortedTwice
import ParseForest.Proofs.Hypergraph.Unbinarized
import ParseForest.Proofs.Recognition

/-!
# Forests without binarized labels

Undoing binarization leaves a graph as it is when no edge derives a binarized label, but for the
sorting at the end. A parse returns a sorted graph, and from the graph under the goal nothing was
dropped that the goal reaches. So where no rule of the grammar derives a binarized label, undoing
binarization changes nothing in the forest.
-/

namespace ParseForest

variable {V : Type} [Scalar V]

namespace Hypergraph

variable {g : Hypergraph V}

def Plain (g : Hypergraph V) : Prop :=
  ∀ n : Nat, ∀ e ∈ (g.node n).edges, g.labelBinarized e = false

omit [Scalar V] in
theorem Plain.getD_binarizedNodes (h : g.Plain) (n : Nat) :
    g.binarizedNodes.getD n false = false := by
  by_cases hn : n < g.nodes.size
  · rw [Hypergraph.getD_binarizedNodes n hn, isBinarizedNode]
    split
    · rfl
    · rename_i e rest hedges
      exact h n e (hedges ▸ List.mem_cons_self)
  · simp [Hypergraph.binarizedNodes, Array.getD, hn]

theorem Rewriting.rewriteNode_eq_self (r : Rewriting V) (n : NodeId) :
    r.rewriteNode (fun _ => false) n = r := by
  have hedges : ∀ es : List EdgeId, es.foldl (replaceEdge (fun _ => false) n) r = r := by
    intro es
    induction es with
    | nil => rfl
    | cons e es ih =>
      have hedge : r.replaceEdge (fun _ => false) n e = r := by simp [replaceEdge]
      rw [List.foldl_cons, hedge, ih]
  exact hedges _

omit [Scalar V] in
theorem Rewriting.result_eq_self (size : Nat) :
    (⟨g, Array.replicate size false⟩ : Rewriting V).result = g := by
  have hkept : ∀ e : Nat, (Array.replicate size false).getD e false = false := by
    intro e
    by_cases he : e < size <;> simp [Array.getD, he]
  simp [Rewriting.result, Rewriting.isReplaced, hkept]

theorem Plain.merged_eq (h : g.Plain) : g.merged = g := by
  have hflags : (fun n => g.binarizedNodes.getD n false) = fun _ => false :=
    funext h.getD_binarizedNodes
  have hnodes : ∀ (ns : List NodeId) (r : Rewriting V),
      ns.foldl (Rewriting.rewriteNode fun _ => false) r = r := by
    intro ns r
    induction ns with
    | nil => rfl
    | cons n ns ih => rw [List.foldl_cons, Rewriting.rewriteNode_eq_self, ih]
  simp only [merged, hflags, hnodes, Rewriting.result_eq_self]

theorem Plain.unbinarized?_eq (h : g.Plain) (hl : g.Owned) (hin : g.TailsInside)
    (hgoal : ∀ goal : Nat, g.goal = some goal → goal < g.nodes.size) (hvalid : g.isValid = true) :
    g.unbinarized? = some g.sorted := by
  rw [unbinarized?, if_pos hvalid, if_pos (all_isMergeable hl hin _), h.merged_eq]
  exact sort?_eq_some hl hin hgoal

end Hypergraph

theorem Symbol.mark_mem_of_isBinarized {s : Symbol} (h : s.isBinarized = true) :
    '^' ∈ s.text.toList := by
  obtain ⟨hnon, -⟩ := isBinarized_iff.mp h
  obtain ⟨cs, rfl⟩ := exists_eq_bracket hnon
  have hmark := (isBinarized_bracket cs).mp h
  simp [bracket, ofChars, hmark]

open ForestState

variable {g : Grammar V} {o : Options V} {lattice : Lattice V} {pruner : Pruner}

theorem ForestState.Finished.exists_lhs {ledger : List Entry}
    (h : Finished g o lattice pruner ledger) {e : Nat}
    (he : e < (goalGraph g o lattice pruner).edges.size) :
    ∃ rule, ((goalGraph g o lattice pruner).edge e).rule = some rule ∧
      (rule.lhs = Symbol.goal ∨ rule.lhs ∈ g.leftSides o) := by
  rcases h.topped.cases_edge he with ⟨hmade, hold⟩ | ⟨i, c, -, -, hnew⟩
  · obtain ⟨a, pair, hedge⟩ := Edge.MadeBy.exists_of_ledger h.ran hmade
    rw [hold]
    exact ⟨_, hedge.rule, Or.inr (Grammar.mem_leftSides (Grammar.mem_pairs_of_pair? hedge.named))⟩
  · rw [hnew]
    exact ⟨_, rfl, Or.inl rfl⟩

theorem unbinarized?_forest (hplain : ∀ label ∈ g.leftSides o, label.isBinarized = false) :
    (forest g o lattice pruner).unbinarized? = some (forest g o lattice pruner) := by
  by_cases hne : goalCells g o lattice pruner = []
  · rw [forest_of_nil hne]
    rfl
  obtain ⟨c, hc⟩ := List.exists_mem_of_ne_nil _ hne
  obtain ⟨ledger, h⟩ := exists_finished hne
  have hl := h.topped.linked.owned
  have hin := h.tailsInside
  have hlt := h.root_lt _ h.root
  obtain ⟨⟨goal, hwell⟩, nodeOf, edgeOf, hpart⟩ := Hypergraph.wellFormed_sorted_of_hasNode hl hin
    h.root hlt (h.descending.hasNode_goal hl hin hlt)
  have hsame : (goalGraph g o lattice pruner).sorted.Plain := by
    intro n e he
    have hcopied := (hl.owned _ _ (hpart.listed n e he)).1
    obtain ⟨rule, hrule, hlhs⟩ := h.exists_lhs hcopied
    rw [Hypergraph.labelBinarized, ← hpart.rule e (hwell.inside n e he), hrule, Option.any_some]
    rcases hlhs with hgoal | hside
    · rw [hgoal]
      decide
    · exact hplain _ hside
  rw [forest_of_mem_goalCells hc, hsame.unbinarized?_eq hwell.owned hwell.tailsInside,
    h.descending.sorted_sorted hl hin hlt h.root]
  · intro n hn
    rw [hwell.goal_eq] at hn
    exact Option.some.inj hn ▸ hwell.goal_lt
  · rw [Hypergraph.isValid, hwell.goal_eq]
    rfl

namespace ForestParser

/-- Undoing binarization gives back the graph of a parse, number for number and edge for edge, when
no label that the grammar derives holds the mark of binarization. -/
theorem unbinarized?_parse (p : ForestParser V) (lattice : Lattice V) (pruner : Pruner)
    (hplain : ∀ label ∈ p.grammar.leftSides p.options, '^' ∉ label.text.toList) :
    (p.parse lattice pruner).2.unbinarized? = some (p.parse lattice pruner).2 := by
  rw [parse_eq_forest]
  refine unbinarized?_forest fun label hlabel => Bool.eq_false_iff.mpr fun hmark => ?_
  exact hplain label hlabel (Symbol.mark_mem_of_isBinarized hmark)

/-- Two ways to derive the sentence share a node, and one label is built that the goal does not
reach. -/
theorem unbinarized?_parse_of_shared :
    let p := ForestParser.new
      [RuleTable.ofText "[S] ||| a [S,1]\n[S] ||| [S,1] b\n[S] ||| a\n[B] ||| b"] Options.standard
    let lattice := Lattice.ofWords [⟨"a"⟩, ⟨"a"⟩, ⟨"b"⟩]
    (∀ label ∈ p.grammar.leftSides p.options, '^' ∉ label.text.toList) ∧
      ForestState.goalCells p.grammar p.options lattice .none ≠ [] ∧
      (p.parse lattice .none).2.unbinarized? = some (p.parse lattice .none).2 := by
  intro p lattice
  have hplain : ∀ label ∈ p.grammar.leftSides p.options, '^' ∉ label.text.toList := by
    decide +kernel
  exact ⟨hplain, by decide +kernel, unbinarized?_parse p lattice .none hplain⟩

end ForestParser

end ParseForest
