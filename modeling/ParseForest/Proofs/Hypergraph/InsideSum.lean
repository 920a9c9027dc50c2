import Mathlib.Algebra.BigOperators.Group.Finset.Sigma
import Mathlib.Algebra.BigOperators.Ring.Finset
import Mathlib.Algebra.Order.Ring.Nat
import ParseForest.Hypergraph.Inside
import ParseForest.Proofs.Hypergraph.Linked
import ParseForest.Proofs.Hypergraph.Tree
import ParseForest.Proofs.Hypergraph.WellFormed

/-!
# Inside scores are sums over derivations

Over a commutative semiring the inside score of the goal is the sum, over all derivations of the
goal, of the product of the scores of their edges. There may be exponentially many derivations, and
nodes are shared among them. The product of the sums for the tails of an edge is the sum over all
lists of derivations of the tails, so one pass over the nodes, tails before heads, is enough.
-/

namespace ParseForest

variable {V S : Type}

class SemiringScore (S : Type) [Score S] [CommSemiring S] : Prop where
  zero_eq : (Score.zero : S) = 0
  one_eq : (Score.one : S) = 1
  add_eq (a b : S) : Score.add a b = a + b
  mul_eq (a b : S) : Score.mul a b = a * b

namespace Tree

def edges : Tree → List EdgeId
  | node e below => e :: (below.map edges).flatten

def consEmbedding : Tree × List Tree ↪ List Tree where
  toFun p := p.1 :: p.2
  inj' _ _ hpq := Prod.ext (List.cons.inj hpq).1 (List.cons.inj hpq).2

def nodeEmbedding : ((_ : EdgeId) × List Tree) ↪ Tree where
  toFun p := .node p.1 p.2
  inj' _ _ hpq := Sigma.ext (Tree.node.inj hpq).1 (heq_of_eq (Tree.node.inj hpq).2)

variable [CommSemiring S]

def score (g : Hypergraph V) (w : Weighting V S) (x : Tree) : S :=
  (x.edges.map fun e => w (g.edge e).features).prod

theorem score_node (g : Hypergraph V) (w : Weighting V S) (e : EdgeId) (below : List Tree) :
    (node e below).score g w = w (g.edge e).features * (below.map (score g w)).prod := by
  simp only [score, edges, List.map_cons, List.prod_cons, List.map_flatten, List.prod_flatten,
    List.map_map]
  rfl

end Tree

namespace Hypergraph

structure SortedForm (g : Hypergraph V) : Prop where
  below : g.TailsBelow
  node_id : ∀ n : Nat, n < g.nodes.size → (g.node n).id = n
  linked : g.Linked

variable [Score S] [CommSemiring S] [SemiringScore S] {g : Hypergraph V} {w : Weighting V S}

def Summed (g : Hypergraph V) (w : Weighting V S) (n : NodeId) (score : S) : Prop :=
  ∃ trees : Finset Tree, (∀ x, x ∈ trees ↔ g.Derives n x) ∧ score = ∑ x ∈ trees, x.score g w

omit [CommSemiring S] [SemiringScore S] in
theorem getD_push (scores : Array S) (score : S) (n : Nat) :
    (scores.push score).getD n Score.zero =
      if n = scores.size then score else scores.getD n Score.zero := by
  simp only [Array.getD_eq_getD_getElem?, Array.getElem?_push]
  split <;> rfl

theorem product_eq_prod (start : S) (scores : List S) :
    Score.product start scores = start * scores.prod := by
  induction scores generalizing start with
  | nil => simp [Score.product]
  | cons a scores ih =>
    rw [Score.product, List.foldl_cons, ← Score.product, ih, SemiringScore.mul_eq, List.prod_cons,
      mul_assoc]

theorem edgeScore_eq (scores : Array S) (e : Edge V) :
    edgeScore w scores e =
      w e.features * (e.tails.map fun t => scores.getD t Score.zero).prod := by
  rw [edgeScore, product_eq_prod, SemiringScore.mul_eq, SemiringScore.one_eq, one_mul]

theorem nodeScore_eq (scores : Array S) (n : Node) :
    g.nodeScore w scores n = (n.edges.map fun e => edgeScore w scores (g.edge e)).sum := by
  have hfold : ∀ (es : List EdgeId) (start : S),
      es.foldl (fun sum e => Score.add sum (edgeScore w scores (g.edge e))) start =
        start + (es.map fun e => edgeScore w scores (g.edge e)).sum := by
    intro es
    induction es with
    | nil => simp
    | cons e es ih =>
      intro start
      rw [List.foldl_cons, ih, SemiringScore.add_eq, List.map_cons, List.sum_cons, add_assoc]
  rw [nodeScore, hfold, SemiringScore.zero_eq, zero_add]

omit [Score S] [SemiringScore S] in
/-- The product of the sums for the tails is the sum over the lists of derivations of the tails. -/
theorem exists_below {tails : List NodeId} {scoreOf : NodeId → S}
    (h : ∀ t ∈ tails, g.Summed w t (scoreOf t)) :
    ∃ lists : Finset (List Tree), (∀ below, below ∈ lists ↔ List.Forall₂ g.Derives tails below) ∧
      (tails.map scoreOf).prod = ∑ below ∈ lists, (below.map (Tree.score g w)).prod := by
  induction tails with
  | nil => exact ⟨{[]}, by simp, by simp⟩
  | cons t tails ih =>
    obtain ⟨trees, htrees, hsum⟩ := h t List.mem_cons_self
    obtain ⟨lists, hlists, hprod⟩ := ih fun u hu => h u (List.mem_cons_of_mem t hu)
    refine ⟨(trees ×ˢ lists).map Tree.consEmbedding, fun below => ?_, ?_⟩
    · rw [Finset.mem_map, List.forall₂_cons_left_iff]
      constructor
      · intro ⟨⟨x, rest⟩, hmem, hcons⟩
        obtain ⟨hx, hrest⟩ := Finset.mem_product.mp hmem
        exact ⟨x, rest, (htrees x).mp hx, (hlists rest).mp hrest, hcons.symm⟩
      · intro ⟨x, rest, hx, hrest, hcons⟩
        exact ⟨(x, rest), Finset.mem_product.mpr ⟨(htrees x).mpr hx, (hlists rest).mpr hrest⟩,
          hcons.symm⟩
    · rw [List.map_cons, List.prod_cons, hsum, hprod, Finset.sum_mul_sum, Finset.sum_map,
        Finset.sum_product]
      exact Finset.sum_congr rfl fun x _ => Finset.sum_congr rfl fun rest _ => List.prod_cons.symm

theorem summed_nodeScore (hg : g.SortedForm) (n : Nat) {scores : Array S}
    (h : ∀ t : Nat, t < n → g.Summed w t (scores.getD t Score.zero)) :
    g.Summed w n (g.nodeScore w scores (g.node n)) := by
  have hbelow : ∀ e ∈ (g.node n).edges, ∃ lists : Finset (List Tree),
      (∀ below, below ∈ lists ↔ List.Forall₂ g.Derives (g.edge e).tails below) ∧
        edgeScore w scores (g.edge e) =
          ∑ below ∈ lists, (Tree.node e below).score g w := by
    intro e he
    obtain ⟨lists, hlists, hprod⟩ := exists_below fun t ht => h t (hg.below n e he t ht)
    refine ⟨lists, hlists, ?_⟩
    simp only [edgeScore_eq, hprod, Tree.score_node, Finset.mul_sum]
  choose! lists hlists hsum using hbelow
  refine ⟨((g.node n).edges.toFinset.sigma lists).map Tree.nodeEmbedding, fun x => ?_, ?_⟩
  · obtain ⟨e, below⟩ := x
    rw [Finset.mem_map, derives_node_iff]
    constructor
    · intro ⟨⟨e', below'⟩, hmem, hnode⟩
      obtain ⟨he, hlist⟩ := Finset.mem_sigma.mp hmem
      have he := List.mem_toFinset.mp he
      cases hnode
      exact ⟨he, (hlists _ he _).mp hlist⟩
    · intro ⟨he, hlist⟩
      exact ⟨⟨e, below⟩, Finset.mem_sigma.mpr ⟨List.mem_toFinset.mpr he,
        (hlists e he below).mpr hlist⟩, rfl⟩
  · rw [nodeScore_eq, Finset.sum_map, Finset.sum_sigma, List.sum_toFinset _ (hg.linked.nodup n)]
    exact congrArg List.sum (List.map_congr_left hsum)

theorem insideScores_spec (hg : g.SortedForm) (w : Weighting V S) :
    (g.insideScores w).size = g.nodes.size ∧
      ∀ n : Nat, n < g.nodes.size → g.Summed w n ((g.insideScores w).getD n Score.zero) := by
  refine Array.foldl_induction (fun i (scores : Array S) => scores.size = i ∧
    ∀ n : Nat, n < i → g.Summed w n (scores.getD n Score.zero)) ?_ fun i scores ih => ?_
  · exact ⟨rfl, fun n hn => absurd hn (Nat.not_lt_zero n)⟩
  · obtain ⟨hsize, hsummed⟩ := ih
    have hnode : g.nodes[(i : Nat)] = g.node i := by simp [node, Array.getD]
    refine ⟨by rw [Array.size_push, hsize], fun n hn => ?_⟩
    rw [getD_push, hsize]
    split
    · rename_i heq
      rw [heq, Fin.getElem_fin, hnode]
      exact summed_nodeScore hg i hsummed
    · exact hsummed n (by omega)

theorem summed_inside (hg : g.SortedForm) (w : Weighting V S) (n : Nat) :
    g.Summed w n ((g.insideScores w).getD n Score.zero) := by
  obtain ⟨hsize, hsummed⟩ := insideScores_spec hg w
  by_cases hn : n < g.nodes.size
  · exact hsummed n hn
  · refine ⟨∅, fun x => ?_, ?_⟩
    · obtain ⟨e, below⟩ := x
      simp [derives_node_iff, node_eq_of_le (Nat.not_lt.mp hn)]
    · have hout : ¬n < (g.insideScores w).size := by omega
      simp [Array.getD, hout, SemiringScore.zero_eq]

omit [SemiringScore S] [CommSemiring S] [Score S] in
theorem SortedForm.isGrounded (hg : g.SortedForm)
    (hgoal : ∀ goal : Nat, g.goal = some goal → goal < g.nodes.size) : g.isGrounded = true := by
  rw [Hypergraph.isGrounded]
  split
  · rfl
  · rename_i goal heq
    rw [Bool.and_eq_true, Array.all_eq_true]
    refine ⟨decide_eq_true (hgoal goal heq), fun n hn => ?_⟩
    have hnode : g.nodes[n] = g.node n := by simp [node, Array.getD, hn]
    rw [hnode, List.all_eq_true]
    intro e he
    rw [List.all_eq_true]
    intro t ht
    exact decide_eq_true (Nat.lt_trans (hg.below n e he t ht) hn)

/-- The inside score of a graph in sorted form is the sum of the scores of all derivations of its
goal, and zero without a goal. It is there as soon as the goal is a node. -/
theorem inside_eq_sum (hg : g.SortedForm) (w : Weighting V S) :
    (∃ trees : Finset Tree, (trees : Set Tree) = g.goalTrees ∧
      g.inside w = ∑ x ∈ trees, x.score g w) ∧
    (g.goal = none → g.inside w = Score.zero) ∧
    ((∀ goal : Nat, g.goal = some goal → goal < g.nodes.size) →
      g.inside? w = some (g.inside w)) := by
  refine ⟨?_, fun hgoal => by rw [inside, hgoal], fun hlt => ?_⟩
  · cases hgoal : g.goal with
    | none =>
      refine ⟨∅, ?_, ?_⟩
      · ext x
        simp [goalTrees, hgoal]
      · rw [inside, hgoal, SemiringScore.zero_eq, Finset.sum_empty]
    | some goal =>
      obtain ⟨trees, htrees, hsum⟩ := summed_inside hg w goal
      refine ⟨trees, ?_, by simpa [inside, hgoal] using hsum⟩
      ext x
      simp [goalTrees, hgoal, htrees]
  · rw [inside?, if_pos (hg.isGrounded hlt)]

/-! ## A shared node -/

instance : Score ℕ where
  zero := 0
  one := 1
  add := (· + ·)
  mul := (· * ·)
  div := (· / ·)
  less a b := decide (a < b)
  isZero a := a == 0

instance : SemiringScore ℕ := ⟨rfl, rfl, fun _ _ => rfl, fun _ _ => rfl⟩

def shared : Hypergraph ℕ :=
  let count (n : ℕ) : FeatureVector ℕ := NameMap.ofList [("n", n)]
  let lower := (empty.addNode.extend 0 [] none (count 2) NameMap.empty).extend 0 [] none (count 3)
    NameMap.empty
  ((lower.addNode.extend 1 [0, 0] none (count 5) NameMap.empty).extend 1 [0] none (count 7)
    NameMap.empty).withGoal (some 1)

theorem sortedForm_shared : shared.SortedForm := by
  have hbuilt : shared.Built := by
    refine .withGoal (.extend (.extend (.addNode (.extend (.extend (.addNode .empty)
      ?_ _ _ _ _) ?_ _ _ _ _)) ?_ _ _ _ _) ?_ _ _ _ _) _
    all_goals decide
  have hids : ∀ n < 2, (shared.node n).id = n := by decide
  have hbelow : ∀ n < 2, ∀ e ∈ (shared.node n).edges, ∀ t ∈ (shared.edge e).tails, t < n := by
    decide
  exact ⟨fun n e he => hbelow n ((hbuilt.linked.listed n e).mp he).2.1 e he, hids, hbuilt.linked⟩

/-- Four derivations use the first edge of the goal and two the second one. -/
theorem inside_shared :
    shared.SortedForm ∧ ∃ trees : Finset Tree, (trees : Set Tree) = shared.goalTrees ∧
      shared.inside (fun f => (f.get? "n").getD 1) =
        ∑ x ∈ trees, x.score shared (fun f => (f.get? "n").getD 1) ∧
      ∑ x ∈ trees, x.score shared (fun f => (f.get? "n").getD 1) = 160 ∧
        shared.inside? (fun f => (f.get? "n").getD 1) = some 160 := by
  obtain ⟨⟨trees, htrees, hsum⟩, -, hlt⟩ :=
    inside_eq_sum sortedForm_shared fun f => (f.get? "n").getD 1
  have hinside : shared.inside (fun f => (f.get? "n").getD 1) = 160 := by decide +kernel
  refine ⟨sortedForm_shared, trees, htrees, hsum, hsum.symm.trans hinside, ?_⟩
  rw [hlt (by decide), hinside]

end Hypergraph

end ParseForest
