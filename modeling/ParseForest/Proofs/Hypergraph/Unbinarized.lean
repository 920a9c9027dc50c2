import ParseForest.Proofs.Hypergraph.Merging
import ParseForest.Proofs.Hypergraph.WellFormed

/-!
# Undoing binarization keeps the derivations

The derivations of the goal of an unbinarized graph are those of the graph it was made from, one
for one, with the same words and the same features. No edge of it has a tail whose label
binarization made.
-/

namespace ParseForest.Hypergraph

variable {V : Type} [Scalar V] {g : Hypergraph V}

def labelBinarized (g : Hypergraph V) (e : EdgeId) : Bool :=
  (g.edge e).rule.any fun rule => rule.lhs.isBinarized

omit [Scalar V] in
theorem getD_binarizedNodes (n : Nat) (hn : n < g.nodes.size) :
    g.binarizedNodes.getD n false = g.isBinarizedNode (g.node n) := by
  simp [binarizedNodes, node, Array.getD, hn]

omit [Scalar V] in
theorem Readable.labelBinarized_eq (hg : g.Readable) {n e : Nat} (he : e ∈ (g.node n).edges) :
    g.labelBinarized e = g.binarizedNodes.getD n false := by
  rw [getD_binarizedNodes n ((hg.linked.listed n e).mp he).2.1, isBinarizedNode]
  have hany : ∀ r : Option Rule, r.any (fun rule => rule.lhs.isBinarized) =
      (r.map Rule.lhs).any Symbol.isBinarized := by
    intro r
    cases r <;> rfl
  split
  · rename_i hnil
    rw [hnil] at he
    cases he
  · rename_i first rest hcons
    rw [labelBinarized, hany, hany, hg.label n e he first (hcons ▸ List.mem_cons_self)]

theorem Merging.owned_result {r : Rewriting V} {made : List (EdgeId × List (Option EdgeId))}
    (h : Merging g r.graph made) : r.result.Owned ∧ r.result.TailsInside ∧ r.result.TailsBelow := by
  have hsub : ∀ n : Nat, ∀ e ∈ (r.result.node n).edges, e ∈ (r.graph.node n).edges := by
    intro n e he
    rw [node_result] at he
    exact (List.mem_filter.mp he).1
  have hsize : r.result.nodes.size = r.graph.nodes.size := by simp [Rewriting.result]
  refine ⟨⟨fun n e he => ?_, fun n => ?_⟩, fun e he t ht => ?_, fun n e he => ?_⟩
  · rw [hsize]
    exact (h.linked.listed n e).mp (hsub n e he)
  · rw [node_result]
    exact (h.linked.nodup n).filter _
  · rw [hsize]
    exact h.inside e he t ht
  · exact h.below n e (hsub n e he)

omit [Scalar V] in
theorem isMergeable_of_inside {e : Edge V} (bin : NodeId → Bool)
    (h : ∀ t ∈ e.tails, (show Nat from t) < g.nodes.size) : g.isMergeable bin e = true := by
  have hnode : ∀ t ∈ e.tails, g.hasNode t = true := fun t ht => decide_eq_true (h t ht)
  unfold isMergeable
  split
  · rfl
  · rename_i t ht
    rw [hnode t (List.mem_of_find?_eq_some ht), List.all_eq_true.mpr hnode]
    simp

omit [Scalar V] in
theorem all_isMergeable (hl : g.Owned) (hin : g.TailsInside) (bin : NodeId → Bool) :
    (g.nodes.all fun n => n.edges.all fun e => g.isMergeable bin (g.edge e)) = true := by
  refine Array.all_eq_true.mpr fun i hi => List.all_eq_true.mpr fun e he => ?_
  have hnode : g.node i = g.nodes[i] := by simp [node, Array.getD, hi]
  exact isMergeable_of_inside bin (hin e (hl.owned i e (hnode ▸ he)).1)

def NoBinarizedTails (g : Hypergraph V) : Prop :=
  ∀ e : Nat, e < g.edges.size → ∀ t ∈ (g.edge e).tails, (g.node t).edges ≠ [] ∧
    ∀ k ∈ (g.node t).edges, ∃ rule, (g.edge k).rule = some rule ∧ rule.lhs.isBinarized = false

section

variable {G : Hypergraph V} {bin : NodeId → Bool} {entry : EdgeId → List (Option EdgeId) → EdgeId}

/-- Chains of binarized labels collapse: what is merged in has no binarized tails itself. -/
theorem Inlined.not_binarized_tail (h : Inlined g G bin entry) (n : Nat) :
    ∀ k ∈ (G.node n).edges, ∀ t ∈ (G.edge k).tails, bin t = false := by
  induction n using Nat.strongRecOn with
  | _ n ih =>
    intro k hk t ht
    rcases h.only n k hk with ⟨hk, hbin⟩ | ⟨e, choice, hc, rfl⟩
    · rw [(h.kept n k hk hbin).2] at ht
      exact Bool.eq_false_iff.mpr fun hb => Bool.eq_false_iff.mp hbin
        (List.any_eq_true.mpr ⟨t, ht, hb⟩)
    · rw [(h.merged n e choice hc).2.tails, mergedTails, List.mem_flatMap] at ht
      obtain ⟨i, hi, ht⟩ := ht
      have hlt := (h.fits n e hc.listed).lt hi
      have hoffer := forall₂_getD hc.offered hlt 0 none
      have hbelow := h.below n e hc.listed _ (List.getElem_mem hlt)
      rw [List.getD_eq_getElem?_getD, List.getElem?_eq_getElem hlt, Option.getD_some] at ht hoffer
      cases hchosen : choice.getD i none with
      | none =>
        rw [hchosen] at ht hoffer
        rw [List.mem_singleton.mp ht]
        exact hoffer
      | some k =>
        rw [hchosen] at ht hoffer
        obtain ⟨q, -, hq⟩ := List.mem_filterMap.mp ht
        exact ih _ hbelow k hoffer.2 t (List.mem_of_getElem? hq)

theorem Inlined.exists_rule (h : Inlined g G bin entry) (hg : g.Readable)
    (hbin : bin = fun n => g.binarizedNodes.getD n false) {n k : Nat} (hk : k ∈ (G.node n).edges) :
    ∃ rule, (G.edge k).rule = some rule ∧ rule.lhs.isBinarized = bin n := by
  have hlabel : ∀ e ∈ (g.node n).edges, ∃ rule, (g.edge e).rule = some rule ∧
      rule.lhs.isBinarized = bin n := by
    intro e he
    obtain ⟨rule, hrule, -, -⟩ := hg.fits n e he
    have heq := hg.labelBinarized_eq he
    rw [labelBinarized, hrule] at heq
    exact ⟨rule, hrule, by rw [hbin]; exact heq⟩
  rcases h.only n k hk with ⟨hk, hno⟩ | ⟨e, choice, hc, rfl⟩
  · rw [(h.kept n k hk hno).2]
    exact hlabel k hk
  · obtain ⟨rule, hrule, heq⟩ := hlabel e hc.listed
    rw [(h.merged n e choice hc).2.rule, mergedRule, hrule]
    exact ⟨_, rfl, heq⟩

end

theorem Inlined.noBinarizedTails_sorted {G : Hypergraph V} {bin : NodeId → Bool}
    {entry : EdgeId → List (Option EdgeId) → EdgeId} (h : Inlined g G bin entry) (hg : g.Readable)
    (hbin : bin = fun n => g.binarizedNodes.getD n false) (ho : G.Owned) (hin : G.TailsInside)
    (hgoal : ∀ goal : Nat, G.goal = some goal → goal < G.nodes.size) :
    G.sorted.NoBinarizedTails := by
  have hempty : (empty : Hypergraph V).NoBinarizedTails := fun e he =>
    absurd he (Nat.not_lt_zero e)
  cases hG : G.goal with
  | none => rwa [sorted_eq_empty_of_none hG]
  | some goal =>
    by_cases hnode : (G.derivable (G.searchFrom goal)).hasNode goal = true
    · obtain ⟨⟨root, hform⟩, nodeOf, edgeOf, hpart⟩ :=
        wellFormed_sorted_of_hasNode ho hin hG (hgoal goal hG) hnode
      intro e he t ht
      obtain ⟨head, hlt, hhead, hcount⟩ := hform.once e he
      have htlt := Nat.lt_trans (hform.below e head hhead t ht) hlt
      have hlisted : e ∈ (G.sorted.node head).edges :=
        List.count_pos_iff.mp (by rw [hcount, if_pos rfl]; exact Nat.one_pos)
      have htail : nodeOf t ∈ (G.edge (edgeOf e)).tails := by
        rw [hpart.tails e he]
        exact List.mem_map_of_mem ht
      have hplain := h.not_binarized_tail _ _ (hpart.listed head e hlisted) _ htail
      refine ⟨?_, fun k hk => ?_⟩
      · obtain ⟨k, hk, -⟩ := hform.derived t htlt
        exact List.ne_nil_of_mem hk
      · obtain ⟨rule, hrule, hlhs⟩ := h.exists_rule hg hbin (hpart.listed t k hk)
        exact ⟨rule, by rw [← hpart.rule k (hform.inside t k hk), hrule], hlhs.trans hplain⟩
    · rwa [sorted_eq_empty hG hnode]

theorem Readable.inlined_merged (hg : g.Readable) :
    (∃ entry, Inlined g g.merged (fun n => g.binarizedNodes.getD n false) entry) ∧
      g.merged.Owned ∧ g.merged.TailsInside ∧ g.merged.TailsBelow ∧
      g.merged.goal = g.goal ∧ g.merged.nodes.size = g.nodes.size := by
  obtain ⟨made, h⟩ := @Readable.progress V _ g (fun n => g.binarizedNodes.getD n false) hg
    g.nodes.size
  obtain ⟨ho, hin, hbelow⟩ := h.merging.owned_result
  refine ⟨⟨_, h.inlined hg⟩, ho, hin, hbelow, h.merging.goal, ?_⟩
  rw [← h.merging.nodes]
  simp [merged, Rewriting.result]

/-- An unbinarized graph has the derivations of the goal that the graph had before, one for one,
with the same words and features, and none of its edges has a binarized tail. -/
theorem Readable.unbinarized [LawfulScalar V] (hg : g.Readable) {goal : Nat}
    (hgoal : g.goal = some goal) (hlt : goal < g.nodes.size) :
    g.unbinarized? = some g.unbinarized ∧
      (∃ f : Tree → Tree, Set.BijOn f g.unbinarized.goalTrees g.goalTrees ∧
        ∀ x ∈ g.unbinarized.goalTrees, (f x).yield g = x.yield g.unbinarized ∧
          (f x).features g = x.features g.unbinarized) ∧
      g.unbinarized.NoBinarizedTails := by
  have hvalid : g.isValid = true := by
    rw [isValid, hgoal]
    rfl
  have heq : g.unbinarized = g.merged.sorted := if_pos hvalid
  obtain ⟨⟨entry, hinlined⟩, ho, hin, hbelow, hsame, hsize⟩ := hg.inlined_merged
  have hroot : g.merged.goal = some goal := hsame.trans hgoal
  have hgoal' : ∀ n : Nat, g.merged.goal = some n → n < g.merged.nodes.size := by
    intro n hn
    rw [hroot] at hn
    cases hn
    rw [hsize]
    exact hlt
  have hmergeable := all_isMergeable hg.linked.owned hg.inside
    fun t => g.binarizedNodes.getD t false
  rw [heq]
  refine ⟨?_, ?_, hinlined.noBinarizedTails_sorted hg rfl ho hin hgoal'⟩
  · rw [unbinarized?, if_pos hvalid, if_pos hmergeable]
    exact sort?_eq_some ho hin hgoal'
  · obtain ⟨back, hback, hsame⟩ := hbelow.sorted_bijOn ho hin hgoal'
    let graft := g.graftAll g.merged (fun n => g.binarizedNodes.getD n false) entry
    have hgraft : Set.BijOn graft g.goalTrees g.merged.goalTrees := by
      have hbij := hinlined.graftAll_bijOn goal
      have hsource : g.goalTrees = {x | g.Derives goal x} :=
        Set.ext fun x => mem_goalTrees hgoal
      have htarget : g.merged.goalTrees = {x | g.merged.Derives goal x} :=
        Set.ext fun x => mem_goalTrees hroot
      rw [hsource, htarget]
      exact hbij
    refine ⟨Function.invFunOn graft g.goalTrees ∘ Tree.relabel back,
      (hgraft.symm hgraft.invOn_invFunOn.symm).comp hback, fun x hx => ?_⟩
    obtain ⟨hy, hgrafted⟩ : Function.invFunOn graft g.goalTrees (x.relabel back) ∈ g.goalTrees ∧
        graft (Function.invFunOn graft g.goalTrees (x.relabel back)) = x.relabel back :=
      ⟨Function.invFunOn_mem (hgraft.surjOn (hback.mapsTo hx)),
        Function.invFunOn_eq (hgraft.surjOn (hback.mapsTo hx))⟩
    obtain ⟨m, -, hx⟩ := hx
    have hderives := (mem_goalTrees hgoal).mp hy
    rw [Function.comp_apply]
    constructor
    · rw [← hinlined.yield_graftAll hderives, ← yield_relabel hsame hx]
      exact congrArg (Tree.yield g.merged) hgrafted
    · rw [← hinlined.features_graftAll hderives, ← features_relabel hsame hx]
      exact congrArg (Tree.features g.merged) hgrafted

def nested : Hypergraph ℚ :=
  let rule (lhs : String) (rhs : List String) : Option Rule := some ⟨⟨lhs⟩, rhs.map Symbol.mk⟩
  let count (x : ℚ) : FeatureVector ℚ := NameMap.ofList [("n", x)]
  let first := empty.addNode.extend 0 [] (rule "[A]" ["a"]) (count 1) NameMap.empty
  let inner := first.addNode.extend 1 [0] (rule "[X^]" ["b", "[A,1]"]) (count 2) NameMap.empty
  let outer := inner.addNode.extend 2 [0, 1] (rule "[Y^]" ["[X^,2]", "[A,1]"]) (count 3)
    NameMap.empty
  let top := outer.addNode.extend 3 [2] (rule "[S]" ["[Y^,1]", "c"]) (count 4) NameMap.empty
  top.withGoal (some 3)

theorem readable_nested : nested.Readable := by
  have hbuilt : nested.Built := by
    refine .withGoal (.extend (.addNode (.extend (.addNode (.extend (.addNode (.extend
      (.addNode .empty) ?_ _ _ _ _)) ?_ _ _ _ _)) ?_ _ _ _ _)) ?_ _ _ _ _) _
    all_goals decide
  have hin : nested.TailsInside := by
    have hall : ∀ e < 4, ∀ t ∈ (nested.edge e).tails, t < 4 := by decide +kernel
    exact hall
  have hall : ∀ n < 4, ∀ e ∈ (nested.node n).edges, nested.Fits e ∧
      (∀ t ∈ (nested.edge e).tails, t < n) ∧ ∀ e' ∈ (nested.node n).edges,
        (nested.edge e).rule.map Rule.lhs = (nested.edge e').rule.map Rule.lhs := by decide +kernel
  have hlt : ∀ n : Nat, ∀ e ∈ (nested.node n).edges, n < 4 := fun n e he =>
    ((hbuilt.linked.listed n e).mp he).2.1
  exact ⟨hbuilt.linked, hin, fun n e he => (hall n (hlt n e he) e he).2.1,
    fun n e he => (hall n (hlt n e he) e he).1, fun n e he => (hall n (hlt n e he) e he).2.2⟩

/-- Both labels are merged away, and the words come out in the order that the indices say. -/
theorem unbinarized_nested :
    nested.Readable ∧ nested.goal = some 3 ∧ 3 < nested.nodes.size ∧
      nested.unbinarized? = some nested.unbinarized ∧ nested.unbinarized.NoBinarizedTails ∧
      ∃ x ∈ nested.unbinarized.goalTrees,
        x.yield nested.unbinarized = [⟨"b"⟩, ⟨"a"⟩, ⟨"a"⟩, ⟨"c"⟩] := by
  have hlt : 3 < nested.nodes.size := by decide
  obtain ⟨hsome, ⟨f, hf, hsame⟩, hplain⟩ := readable_nested.unbinarized rfl hlt
  let leaf := Tree.node 0 []
  let whole := Tree.node 3 [.node 2 [leaf, .node 1 [leaf]]]
  have hleaf : nested.Derives 0 leaf := derives_node_iff.mpr ⟨by decide, .nil⟩
  have hwhole : whole ∈ nested.goalTrees := by
    refine ⟨3, rfl, derives_node_iff.mpr ⟨by decide, .cons (derives_node_iff.mpr ⟨by decide,
      .cons hleaf (.cons (derives_node_iff.mpr ⟨by decide, .cons hleaf .nil⟩) .nil)⟩) .nil⟩⟩
  obtain ⟨x, hx, heq⟩ := hf.surjOn hwhole
  have hyield := (hsame x hx).1
  rw [heq] at hyield
  refine ⟨readable_nested, rfl, hlt, hsome, hplain, x, hx, hyield.symm.trans ?_⟩
  simp only [whole, leaf, Tree.yield, List.map_cons, List.map_nil]
  decide +kernel

end ParseForest.Hypergraph
