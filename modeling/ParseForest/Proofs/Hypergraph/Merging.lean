import ParseForest.Proofs.Hypergraph.Inlined
import ParseForest.Proofs.Selection

/-!
# Merging from below

The nodes are taken in the order of their numbers. An edge that is replaced has its tails among the
nodes that are done, so the edges that are left there are those of the finished graph. The
invariant lists what has been merged: edge number `g.edges.size + i` is the `i`-th pair of an edge
and a choice for its tails.
-/

namespace ParseForest

variable {V : Type}

theorem mapM_eq_some {α β : Type} {f : α → Option β} {f' : α → β} {xs : List α}
    (h : ∀ x ∈ xs, f x = some (f' x)) : xs.mapM f = some (xs.map f') := by
  induction xs with
  | nil => rfl
  | cons x xs ih =>
    simp [List.mapM_cons, h x List.mem_cons_self, ih fun y hy => h y (List.mem_cons_of_mem x hy)]

theorem flatMap_toList {α β γ : Type} (f : α → Option β) (f' : β → List γ) (xs : List α) :
    (xs.flatMap fun x => (f x).toList.flatMap f') = (xs.filterMap f).flatMap f' := by
  induction xs with
  | nil => rfl
  | cons x xs ih =>
    rw [List.flatMap_cons, List.filterMap_cons, ih]
    cases f x <;> simp

namespace Hypergraph

/-- A graph whose tails come before their heads and whose edges can be read: their rules fit, and
the edges of a node have the same label. -/
structure Readable (g : Hypergraph V) : Prop where
  linked : g.Linked
  inside : g.TailsInside
  below : g.TailsBelow
  fits : ∀ n : Nat, ∀ e ∈ (g.node n).edges, g.Fits e
  label : ∀ n : Nat, ∀ e ∈ (g.node n).edges, ∀ e' ∈ (g.node n).edges,
    (g.edge e).rule.map Rule.lhs = (g.edge e').rule.map Rule.lhs

variable [Scalar V] {g : Hypergraph V} {r : Rewriting V}
  {made : List (EdgeId × List (Option EdgeId))} {bin : NodeId → Bool}

structure Merging (g : Hypergraph V) (G : Hypergraph V)
    (made : List (EdgeId × List (Option EdgeId))) : Prop where
  goal : G.goal = g.goal
  nodes : G.nodes.size = g.nodes.size
  edges : G.edges.size = g.edges.size + made.length
  old : ∀ e : Nat, e < g.edges.size → G.edge e = g.edge e
  linked : G.Linked
  inside : G.TailsInside
  below : G.TailsBelow
  fits : ∀ n : Nat, ∀ e ∈ (G.node n).edges, G.Fits e
  new : ∀ (i : Nat) (e : EdgeId) (choice : List (Option EdgeId)), made[i]? = some (e, choice) →
    (G.edge (g.edges.size + i)).head = (g.edge e).head ∧
      MergedAs g G e choice (g.edges.size + i)
  source : ∀ p ∈ made, (∃ n, p.1 ∈ (g.node n).edges) ∧
    ∀ k : Nat, some k ∈ p.2 → k < G.edges.size

variable {G G' : Hypergraph V}

theorem Readable.merging (hg : g.Readable) : Merging g g [] :=
  ⟨rfl, rfl, rfl, fun _ _ => rfl, hg.linked, hg.inside, hg.below, hg.fits,
    (fun i e choice h => by simp at h), fun p h => by cases h⟩

omit [Scalar V] in
theorem Fits.congr {e : EdgeId} (h : G'.edge e = G.edge e) (hfits : G.Fits e) : G'.Fits e := by
  rw [Hypergraph.Fits, h]
  exact hfits

omit [Scalar V] in
theorem openedTails_congr {t : NodeId} {c : Option EdgeId}
    (h : ∀ k ∈ c, G'.edge k = G.edge k) : G'.openedTails t c = G.openedTails t c := by
  cases c with
  | none => rfl
  | some k => simp only [openedTails, tailOrder, h k rfl]

omit [Scalar V] in
theorem openedSymbols_congr {s : Symbol} {c : Option EdgeId}
    (h : ∀ k ∈ c, G'.edge k = G.edge k) : G'.openedSymbols s c = G.openedSymbols s c := by
  cases c with
  | none => rfl
  | some k => simp only [openedSymbols, h k rfl]

omit [Scalar V] in
theorem mem_of_mem_getD {choice : List (Option EdgeId)} {i : Nat} {k : EdgeId}
    (h : k ∈ choice.getD i none) : some k ∈ choice := by
  by_cases hi : i < choice.length
  · rw [List.getD_eq_getElem?_getD, List.getElem?_eq_getElem hi, Option.getD_some] at h
    exact h ▸ List.getElem_mem hi
  · rw [List.getD_eq_getElem?_getD, List.getElem?_eq_none (Nat.not_lt.mp hi)] at h
    cases h

section

variable {e k : EdgeId} {choice : List (Option EdgeId)}
  (h : ∀ k : Nat, some k ∈ choice → G'.edge k = G.edge k)
include h

omit [Scalar V] in
theorem mergedRule_congr : g.mergedRule G' e choice = g.mergedRule G e choice := by
  refine congrArg (fun f => (g.edge e).rule.map f) (funext fun rule => ?_)
  congr 1
  refine List.flatMap_congr fun p _ => ?_
  obtain ⟨s, none | i⟩ := p
  · rfl
  · exact openedSymbols_congr fun k hk => h k (mem_of_mem_getD hk)

omit [Scalar V] in
theorem mergedTails_congr : g.mergedTails G' e choice = g.mergedTails G e choice :=
  List.flatMap_congr fun _ _ => openedTails_congr fun k hk => h k (mem_of_mem_getD hk)

theorem mergedFeatures_congr : g.mergedFeatures G' e choice = g.mergedFeatures G e choice := by
  refine List.foldl_ext _ _ _ fun f k hk => ?_
  obtain ⟨i, -, hi⟩ := List.mem_filterMap.mp hk
  rw [h k (mem_of_mem_getD hi)]

theorem MergedAs.congr (hmerged : MergedAs g G e choice k) (hk : G'.edge k = G.edge k) :
    MergedAs g G' e choice k :=
  ⟨by rw [hk, hmerged.rule, mergedRule_congr h], by rw [hk, hmerged.tails, mergedTails_congr h],
    by rw [hk, hmerged.features, mergedFeatures_congr h]⟩

end

def extendMerged (g G : Hypergraph V) (n e : Nat) (choice : List (Option EdgeId)) :
    Hypergraph V :=
  G.extend n (g.mergedTails G e choice) (g.mergedRule G e choice) (g.mergedFeatures G e choice)
    (g.edge e).attributes

section

variable {n e : Nat} {choice : List (Option EdgeId)}

theorem edge_extendMerged_of_lt {k : Nat} (hk : k < G.edges.size) :
    (g.extendMerged G n e choice).edge k = G.edge k := by
  rw [extendMerged, edge_extend, if_neg (Nat.ne_of_lt hk)]

variable (n e choice) in
theorem edge_extendMerged_self :
    let k := (g.extendMerged G n e choice).edge G.edges.size
    k.head = some n ∧ k.rule = g.mergedRule G e choice ∧ k.tails = g.mergedTails G e choice ∧
      k.features = g.mergedFeatures G e choice := by
  simp only [extendMerged, edge_extend, if_pos, and_self]

theorem mergedAs_extendMerged (hchoice : ∀ k : Nat, some k ∈ choice → k < G.edges.size) :
    MergedAs g (g.extendMerged G n e choice) e choice G.edges.size := by
  have hsame : ∀ k : Nat, some k ∈ choice → (g.extendMerged G n e choice).edge k = G.edge k :=
    fun k hk => edge_extendMerged_of_lt (hchoice k hk)
  obtain ⟨-, hrule, htails, hfeatures⟩ :=
    edge_extendMerged_self (g := g) (G := G) n e choice
  refine ⟨?_, ?_, ?_⟩
  · rw [mergedRule_congr hsame, hrule]
  · rw [mergedTails_congr hsame, htails]
  · rw [mergedFeatures_congr hsame, hfeatures]

theorem of_mem_extendMerged (hl : G.Linked) {m k : Nat}
    (hk : k ∈ ((g.extendMerged G n e choice).node m).edges) :
    k ∈ (G.node m).edges ∧ k < G.edges.size ∨ k = G.edges.size ∧ m = n := by
  rw [extendMerged, node_extend] at hk
  split at hk
  · rename_i hm
    rcases List.mem_append.mp hk with hk | hk
    · exact Or.inl ⟨hk, ((hl.listed m k).mp hk).1⟩
    · exact Or.inr ⟨List.mem_singleton.mp hk, hm.1⟩
  · exact Or.inl ⟨hk, ((hl.listed m k).mp hk).1⟩

end

theorem addMerged_eq {n e : Nat} {rule : Rule} (hrule : (g.edge e).rule = some rule)
    (hfits : g.Fits e) {choice : List (Option EdgeId)}
    (hlen : (g.edge e).tails.length = choice.length)
    (hchoice : ∀ k : Nat, some k ∈ choice → G.Fits k) :
    addMerged n (g.edge e) rule G choice = g.extendMerged G n e choice := by
  have hlt : ∀ s i, (s, some i) ∈ rule.placed → i < choice.length := by
    intro s i hmem
    rw [← hlen]
    refine hfits.lt ?_
    rw [tailOrder_eq hrule]
    exact List.mem_filterMap.mpr ⟨_, hmem, rfl⟩
  -- the rules fit, so something stands for each symbol
  have hparts : rule.placed.mapM (G.inlined? (g.edge e) choice) =
      some (rule.placed.map fun p => (G.mergedSymbols choice p,
        p.2.toList.flatMap fun i =>
          G.openedTails ((g.edge e).tails.getD i 0) (choice.getD i none))) := by
    refine mapM_eq_some fun p hp => ?_
    obtain ⟨s, none | i⟩ := p
    · rfl
    · have hi := hlt s i hp
      have hit : i < (g.edge e).tails.length := hlen ▸ hi
      have hget := List.getElem?_eq_getElem hi
      rw [inlined?, hget]
      cases hc : choice[i] with
      | none =>
        simp [mergedSymbols, List.getD_eq_getElem?_getD, hget, hc, openedSymbols, openedTails, hit]
      | some k =>
        obtain ⟨inner, hinner, hperm, -⟩ := hchoice k (hc ▸ List.getElem_mem hi)
        have htails : inner.tailPositions.mapM (fun q => (G.edge k).tails[q]?) =
            some (arrange inner.tailPositions (G.edge k).tails) := by
          rw [arrange_eq_map_getD (fun q hq => lt_of_perm_range hperm hq) 0]
          refine mapM_eq_some fun q hq => ?_
          have hq := lt_of_perm_range hperm hq
          simp [List.getD_eq_getElem?_getD, hq]
        simp [mergedSymbols, List.getD_eq_getElem?_getD, hget, hc, openedSymbols, openedTails,
          hinner, htails, tailOrder]
  have htails : rule.placed.flatMap (fun p => p.2.toList.flatMap fun i =>
        G.openedTails ((g.edge e).tails.getD i 0) (choice.getD i none)) =
      g.mergedTails G e choice := by
    rw [mergedTails, tailOrder_eq hrule, flatMap_toList]
    rfl
  have hchosen : chosenEdges rule choice = (g.tailOrder e).filterMap fun i => choice.getD i none := by
    rw [chosenEdges, tailOrder_eq hrule]
    congr 1
    funext i
    rw [List.getD_eq_getElem?_getD]
    cases choice[i]? <;> rfl
  rw [addMerged, hparts]
  simp only [hchosen, List.flatMap_map, htails]
  rw [extendMerged, mergedRule, hrule]
  rfl

/-! ## One merged edge -/

omit [Scalar V] in
theorem exists_offered {ts : List NodeId} {choice : List (Option EdgeId)}
    (h : List.Forall₂ (G.Offers bin) ts choice) {k : Nat} (hk : some k ∈ choice) :
    ∃ t ∈ ts, k ∈ (G.node t).edges := by
  obtain ⟨t, ht⟩ := exists_mem_zip h.length_eq hk
  exact ⟨t, (List.of_mem_zip ht).1, ((List.forall₂_iff_zip.mp h).2 ht).2⟩

omit [Scalar V] in
theorem le_of_mem_openedTails (hbelow : G.TailsBelow) {t t' : Nat} {c : Option EdgeId}
    (hc : G.Offers bin t c) (ht : t' ∈ G.openedTails t c) : t' ≤ t := by
  cases c with
  | none => exact Nat.le_of_eq (List.mem_singleton.mp ht)
  | some k =>
    obtain ⟨i, -, hi⟩ := List.mem_filterMap.mp ht
    exact Nat.le_of_lt (hbelow t k hc.2 t' (List.mem_of_getElem? hi))

namespace Merging

variable {n e : Nat} {choice : List (Option EdgeId)}

theorem fits_offered (h : Merging g G made)
    (hchoice : List.Forall₂ (G.Offers bin) (g.edge e).tails choice) {k : Nat}
    (hk : some k ∈ choice) : k < G.edges.size ∧ G.Fits k := by
  obtain ⟨t, -, ht⟩ := exists_offered hchoice hk
  exact ⟨((h.linked.listed t k).mp ht).1, h.fits t k ht⟩

theorem lt_of_mem_mergedTails (h : Merging g G made) (hg : g.Readable) (he : e ∈ (g.node n).edges)
    (hchoice : List.Forall₂ (G.Offers bin) (g.edge e).tails choice) :
    ∀ t ∈ g.mergedTails G e choice, (show Nat from t) < n := by
  intro t ht
  obtain ⟨i, hi, ht⟩ := List.mem_flatMap.mp ht
  have hlt := (hg.fits n e he).lt hi
  have hle := le_of_mem_openedTails h.below (forall₂_getD hchoice hlt 0 none) ht
  have hbelow := hg.below n e he _ (List.getElem_mem hlt)
  rw [List.getD_eq_getElem?_getD, List.getElem?_eq_getElem hlt, Option.getD_some] at hle
  exact Nat.lt_of_le_of_lt hle hbelow

omit [Scalar V] in
theorem fits_merged {k : EdgeId} (hfits : g.Fits e)
    (hchoice : ∀ k : Nat, some k ∈ choice → G.Fits k)
    (hrule : (G'.edge k).rule = g.mergedRule G e choice)
    (htails : (G'.edge k).tails = g.mergedTails G e choice) : G'.Fits k := by
  obtain ⟨rule, hr, -, -⟩ := id hfits
  have hc : ∀ i ∈ g.tailOrder e, ∀ k ∈ choice.getD i none, G.Fits k := fun i _ k hk =>
    hchoice k (mem_of_mem_getD hk)
  have hindex := index_mergedSymbols hfits hr hc
  refine ⟨⟨rule.lhs, rule.placed.flatMap (G.mergedSymbols choice)⟩, ?_, ?_, ?_⟩
  · rw [hrule, mergedRule, hr]
    rfl
  · rw [htails, length_mergedTails hr hc, Rule.tailPositions_eq_range hindex]
  · intro s hs hnon
    rw [Symbol.unindexed_of_index (hindex s hs hnon)]
    exact hindex s hs hnon

theorem addEdge (h : Merging g G made) (hg : g.Readable) (he : e ∈ (g.node n).edges)
    (hchoice : List.Forall₂ (G.Offers bin) (g.edge e).tails choice) :
    Merging g (g.extendMerged G n e choice) (made ++ [(e, choice)]) := by
  obtain ⟨hlt, hn, hhead⟩ := (hg.linked.listed n e).mp he
  have hnG : n < G.nodes.size := h.nodes ▸ hn
  have hoffered : ∀ k : Nat, some k ∈ choice → k < G.edges.size ∧ G.Fits k := fun k hk =>
    h.fits_offered hchoice hk
  have htails := h.lt_of_mem_mergedTails hg he hchoice
  have hinside : ∀ t ∈ g.mergedTails G e choice, (show Nat from t) < G.nodes.size := fun t ht =>
    Nat.lt_trans (htails t ht) hnG
  have hsize : (g.extendMerged G n e choice).edges.size = G.edges.size + 1 := by
    rw [extendMerged, size_edges_extend]
  obtain ⟨hheadNew, hruleNew, htailsNew, -⟩ :=
    edge_extendMerged_self (g := g) (G := G) n e choice
  refine ⟨by rw [extendMerged, goal_extend, h.goal],
    by rw [extendMerged, size_nodes_extend, h.nodes], ?_, fun k hk => ?_,
    h.linked.extend hnG _ _ _ _, h.inside.extend n hinside _ _ _, fun m k hk => ?_,
    fun m k hk => ?_, fun i e' choice' hi => ?_, fun p hp => ?_⟩
  · rw [hsize, h.edges, List.length_append, List.length_singleton, Nat.add_assoc]
  · rw [edge_extendMerged_of_lt (by rw [h.edges]; omega), h.old k hk]
  · rcases of_mem_extendMerged h.linked hk with ⟨hk, hlt⟩ | ⟨rfl, rfl⟩
    · rw [edge_extendMerged_of_lt hlt]
      exact h.below m k hk
    · rw [htailsNew]
      exact htails
  · rcases of_mem_extendMerged h.linked hk with ⟨hk, hlt⟩ | ⟨rfl, rfl⟩
    · exact (h.fits m k hk).congr (edge_extendMerged_of_lt hlt)
    · exact fits_merged (hg.fits m e he) (fun k hk => (hoffered k hk).2) hruleNew htailsNew
  · by_cases hlast : i < made.length
    · rw [List.getElem?_append_left hlast] at hi
      have hlt : g.edges.size + i < G.edges.size := by
        rw [h.edges]
        omega
      obtain ⟨hhead, hmerged⟩ := h.new i e' choice' hi
      have hsource := (h.source _ (List.mem_of_getElem? hi)).2
      exact ⟨by rw [edge_extendMerged_of_lt hlt, hhead], hmerged.congr
        (fun k hk => edge_extendMerged_of_lt (hsource k hk)) (edge_extendMerged_of_lt hlt)⟩
    · have hlen := (List.getElem?_eq_some_iff.mp hi).1
      rw [List.length_append, List.length_singleton] at hlen
      obtain rfl : i = made.length := by omega
      rw [List.getElem?_concat_length] at hi
      cases hi
      rw [← h.edges, hhead]
      exact ⟨hheadNew, mergedAs_extendMerged fun k hk => (hoffered k hk).1⟩
  · rw [hsize]
    rcases List.mem_append.mp hp with hp | hp
    · exact ⟨(h.source p hp).1, fun k hk => Nat.lt_succ_of_lt ((h.source p hp).2 k hk)⟩
    · rw [List.mem_singleton.mp hp]
      exact ⟨⟨n, he⟩, fun k hk => Nat.lt_succ_of_lt (hoffered k hk).1⟩

theorem addEdges (h : Merging g G made) (hg : g.Readable) (he : e ∈ (g.node n).edges) {rule : Rule}
    (hrule : (g.edge e).rule = some rule) {choices : List (List (Option EdgeId))}
    (hchoices : ∀ choice ∈ choices, List.Forall₂ (G.Offers bin) (g.edge e).tails choice) :
    let G' := choices.foldl (addMerged n (g.edge e) rule) G
    Merging g G' (made ++ choices.map (e, ·)) ∧ (∀ m : Nat, m ≠ n → G'.node m = G.node m) ∧
      ∀ k ∈ (G.node n).edges, k ∈ (G'.node n).edges := by
  induction choices using List.reverseRecOn with
  | nil => exact ⟨by simpa using h, fun _ _ => rfl, fun _ hk => hk⟩
  | append_singleton choices choice ih =>
    obtain ⟨hmerging, hother, hmore⟩ := ih fun c hc => hchoices c (List.mem_append_left _ hc)
    rw [List.foldl_append]
    simp only [List.foldl_cons, List.foldl_nil]
    generalize choices.foldl (addMerged n (g.edge e) rule) G = G' at hmerging hother hmore
    have hoffers : List.Forall₂ (G'.Offers bin) (g.edge e).tails choice := by
      refine (hchoices choice (List.mem_append_right _ List.mem_cons_self)).imp fun t c hc => ?_
      cases c with
      | none => exact hc
      | some k =>
        refine ⟨hc.1, ?_⟩
        by_cases ht : t = n
        · exact ht ▸ hmore k (ht ▸ hc.2)
        · rw [hother t ht]
          exact hc.2
    rw [addMerged_eq hrule (hg.fits n e he) hoffers.length_eq fun k hk =>
      (hmerging.fits_offered hoffers hk).2]
    refine ⟨?_, fun m hm => ?_, fun k hk => ?_⟩
    · rw [List.map_append, ← List.append_assoc]
      exact hmerging.addEdge hg he hoffers
    · rw [extendMerged, node_extend, if_neg fun hand => hm hand.1, hother m hm]
    · rw [extendMerged, node_extend]
      split
      · exact List.mem_append_left _ (hmore k hk)
      · exact hmore k hk

theorem mem_edges_iff (h : Merging g G made) (hg : g.Readable) (n k : Nat) :
    k ∈ (G.node n).edges ↔ k ∈ (g.node n).edges ∨
      ∃ (i : Nat) (e : EdgeId) (choice : List (Option EdgeId)),
        made[i]? = some (e, choice) ∧ e ∈ (g.node n).edges ∧ k = g.edges.size + i := by
  rw [h.linked.listed, h.edges, h.nodes]
  constructor
  · rintro ⟨hk, hn, hhead⟩
    by_cases hold : k < g.edges.size
    · rw [h.old k hold] at hhead
      exact Or.inl ((hg.linked.listed n k).mpr ⟨hold, hn, hhead⟩)
    · obtain ⟨i, rfl⟩ := Nat.exists_eq_add_of_le (Nat.not_lt.mp hold)
      have hi : i < made.length := by omega
      have hget := List.getElem?_eq_getElem hi
      refine Or.inr ⟨i, made[i].1, made[i].2, hget, ?_, rfl⟩
      obtain ⟨⟨m, hm⟩, -⟩ := h.source _ (List.getElem_mem hi)
      obtain ⟨hlt, -, hm⟩ := (hg.linked.listed m _).mp hm
      rw [(h.new i _ _ hget).1] at hhead
      exact (hg.linked.listed n _).mpr ⟨hlt, hn, hhead⟩
  · rintro (hk | ⟨i, e, choice, hi, he, rfl⟩)
    · obtain ⟨hlt, hn, hhead⟩ := (hg.linked.listed n k).mp hk
      exact ⟨by omega, hn, by rw [h.old k hlt, hhead]⟩
    · obtain ⟨-, hn, hhead⟩ := (hg.linked.listed n e).mp he
      have hlt := (List.getElem?_eq_some_iff.mp hi).1
      exact ⟨by omega, hn, by rw [(h.new i e choice hi).1, hhead]⟩

end Merging

/-! ## One edge replaced -/

omit [Scalar V] in
theorem node_result (r : Rewriting V) (n : Nat) :
    (r.result.node n).edges = (r.graph.node n).edges.filter fun e => !r.isReplaced e := by
  by_cases hn : n < r.graph.nodes.size
  · simp [Rewriting.result, node, Array.getD, hn]
  · simp [Rewriting.result, node, Array.getD, hn]

structure Progress (g : Hypergraph V) (bin : NodeId → Bool) (r : Rewriting V)
    (made : List (EdgeId × List (Option EdgeId))) (passed : Set EdgeId) : Prop where
  merging : Merging g r.graph made
  size : r.replaced.size = g.edges.size
  replaced : ∀ e : Nat, r.isReplaced e = true ↔ e ∈ passed ∧ g.hasBinarized bin e = true
  nodup : made.Nodup
  made_iff : ∀ e choice, (e, choice) ∈ made ↔
    e ∈ passed ∧ ∃ n, Choosable g r.result bin n e choice

omit [Scalar V] in
theorem forall₂_mem_choices (binarized : NodeId → Bool) {ts : List NodeId}
    {choice : List (Option EdgeId)} :
    List.Forall₂ (· ∈ ·) choice (ts.map fun t =>
        if binarized t then (r.graph.node t).edges.map some else [none]) ∧
      (choice.any fun c => c.any r.isReplaced) = false ↔
      List.Forall₂ (r.result.Offers binarized) ts choice := by
  have hone : ∀ (t : NodeId) (c : Option EdgeId),
      (c ∈ if binarized t then (r.graph.node t).edges.map some else [none]) ∧
        c.any r.isReplaced = false ↔ r.result.Offers binarized t c := by
    intro t c
    cases c with
    | none => by_cases hb : binarized t = true <;> simp [Offers, hb]
    | some k => by_cases hb : binarized t = true <;> simp [Offers, hb, node_result]
  induction ts generalizing choice with
  | nil => cases choice <;> simp
  | cons t ts ih =>
    cases choice with
    | nil => simp
    | cons c choice =>
      rw [List.map_cons, List.forall₂_cons, List.forall₂_cons, ← hone, List.any_cons,
        Bool.or_eq_false_iff]
      have hrest := @ih choice
      tauto

omit [Scalar V] in
theorem Readable.choosable_congr (hg : g.Readable) {n m : Nat}
    (hsame : ∀ t : Nat, t < n → (G'.node t).edges = (G.node t).edges) (hm : m ≤ n) {e : EdgeId}
    {choice : List (Option EdgeId)} (h : Choosable g G bin m e choice) :
    Choosable g G' bin m e choice := by
  refine ⟨h.listed, h.binarized, List.forall₂_iff_zip.mpr ⟨h.offered.length_eq, fun {t c} hp => ?_⟩⟩
  have hoffer := (List.forall₂_iff_zip.mp h.offered).2 hp
  have ht := hg.below m e h.listed t (List.of_mem_zip hp).1
  cases c with
  | none => exact hoffer
  | some k => exact ⟨hoffer.1, hsame t (Nat.lt_of_lt_of_le ht hm) ▸ hoffer.2⟩

def freshChoices (g : Hypergraph V) (bin : NodeId → Bool) (r : Rewriting V) (e : EdgeId) :
    List (List (Option EdgeId)) :=
  (selections (r.choices bin (g.edge e))).filter fun choice =>
    !choice.any fun c => c.any (Rewriting.isReplaced ⟨r.graph, r.replaced.setIfInBounds e true⟩)

omit [Scalar V] in
theorem mem_freshChoices {e : EdgeId} (hbin : g.hasBinarized bin e = true)
    {choice : List (Option EdgeId)} :
    choice ∈ g.freshChoices bin r e ↔ List.Forall₂
      ((Rewriting.result ⟨r.graph, r.replaced.setIfInBounds e true⟩).Offers bin)
        (g.edge e).tails choice := by
  have htails : r.choices bin (g.edge e) ≠ [] := by
    obtain ⟨t, ht, -⟩ := List.any_eq_true.mp hbin
    exact List.ne_nil_of_mem (List.mem_map_of_mem ht)
  rw [freshChoices, List.mem_filter, selections_eq_sections htails, List.mem_sections,
    Bool.not_eq_true', ← forall₂_mem_choices]
  rfl

omit [Scalar V] in
theorem nodup_freshChoices (hl : r.graph.Linked) {e : EdgeId} (hbin : g.hasBinarized bin e = true) :
    (g.freshChoices bin r e).Nodup := by
  have htails : r.choices bin (g.edge e) ≠ [] := by
    obtain ⟨t, ht, -⟩ := List.any_eq_true.mp hbin
    exact List.ne_nil_of_mem (List.mem_map_of_mem ht)
  rw [freshChoices, selections_eq_sections htails]
  refine (nodup_sections fun c hc => ?_).filter _
  obtain ⟨t, -, rfl⟩ := List.mem_map.mp hc
  split
  · exact (hl.nodup t).map (Option.some_injective _)
  · exact List.nodup_singleton none

theorem replaceEdge_eq {n e : Nat} {rule : Rule} (hedge : r.graph.edge e = g.edge e)
    (hrule : (g.edge e).rule = some rule) :
    r.replaceEdge bin n e =
      if g.hasBinarized bin e then
        ⟨(g.freshChoices bin r e).foldl (addMerged n (g.edge e) rule) r.graph,
          r.replaced.setIfInBounds e true⟩
      else r := by
  simp only [Rewriting.replaceEdge, hedge, hrule]
  rfl

omit [Scalar V] in
theorem isReplaced_mark {e : Nat} (he : e < r.replaced.size) (G' : Hypergraph V) (e' : Nat) :
    Rewriting.isReplaced ⟨G', r.replaced.setIfInBounds e true⟩ e' = true ↔
      e' = e ∨ r.isReplaced e' = true := by
  simp only [Rewriting.isReplaced, getD_setIfInBounds, he, and_true]
  by_cases heq : e = e'
  · simp [heq]
  · simp [heq, Ne.symm heq]

omit [Scalar V] in
theorem result_mark_eq {n e t : Nat} (hl : r.graph.Linked) (hsize : e < r.replaced.size)
    (he : e ∈ (r.graph.node n).edges) (ht : t ≠ n) :
    ((Rewriting.result ⟨r.graph, r.replaced.setIfInBounds e true⟩).node t).edges =
      (r.result.node t).edges := by
  rw [node_result, node_result]
  refine List.filter_congr fun k hk => ?_
  have hne : k ≠ e := by
    rintro rfl
    exact ht (hl.owned.node_eq hk he)
  rw [Bool.eq_iff_iff, Bool.not_eq_true', Bool.not_eq_true', ← Bool.not_eq_true,
    ← Bool.not_eq_true, isReplaced_mark hsize, or_iff_right hne]

theorem Progress.keepEdge {passed : Set EdgeId} (h : Progress g bin r made passed) {e : EdgeId}
    (hbin : ¬g.hasBinarized bin e = true) : Progress g bin r made (insert e passed) := by
  refine ⟨h.merging, h.size, fun e' => ?_, h.nodup, fun e' choice => ?_⟩
  · rw [h.replaced, Set.mem_insert_iff]
    refine and_congr_left fun hb => (or_iff_right ?_).symm
    rintro rfl
    exact hbin hb
  · rw [h.made_iff, Set.mem_insert_iff]
    refine and_congr_left fun ⟨m, hc⟩ => (or_iff_right ?_).symm
    rintro rfl
    exact hbin hc.binarized

theorem Merging.addFresh (h : Merging g r.graph made) (hg : g.Readable) {n e : Nat}
    (he : e ∈ (g.node n).edges) {rule : Rule} (hrule : (g.edge e).rule = some rule)
    (hbin : g.hasBinarized bin e = true) :
    let G' := (g.freshChoices bin r e).foldl (addMerged n (g.edge e) rule) r.graph
    Merging g G' (made ++ (g.freshChoices bin r e).map (e, ·)) ∧
      ∀ m : Nat, m ≠ n → G'.node m = r.graph.node m := by
  have hoffers : ∀ choice ∈ g.freshChoices bin r e,
      List.Forall₂ (r.graph.Offers bin) (g.edge e).tails choice := by
    refine fun choice hc => ((mem_freshChoices hbin).mp hc).imp fun t c hc => ?_
    cases c with
    | none => exact hc
    | some k =>
      have hk := hc.2
      rw [node_result] at hk
      exact ⟨hc.1, (List.mem_filter.mp hk).1⟩
  obtain ⟨hmerging, hother, -⟩ := h.addEdges hg he hrule hoffers
  exact ⟨hmerging, hother⟩

/-- An edge with binarized tails gives way to one edge for each choice. The tails lie below its
node, where the edges that are left stay the same. -/
theorem Progress.mergeEdge {passed : Set EdgeId} (h : Progress g bin r made passed)
    (hg : g.Readable) {n e : Nat} (he : e ∈ (g.node n).edges) (hnew : e ∉ passed)
    (hpassed : ∀ e' ∈ passed, ∀ m : Nat, e' ∈ (g.node m).edges → m ≤ n) {rule : Rule}
    (hrule : (g.edge e).rule = some rule) (hbin : g.hasBinarized bin e = true) :
    Progress g bin ⟨(g.freshChoices bin r e).foldl (addMerged n (g.edge e) rule) r.graph,
      r.replaced.setIfInBounds e true⟩ (made ++ (g.freshChoices bin r e).map (e, ·))
      (insert e passed) := by
  have hlt : e < r.replaced.size := h.size ▸ ((hg.linked.listed n e).mp he).1
  obtain ⟨hmerging, hother⟩ := h.merging.addFresh hg he hrule hbin
  generalize (g.freshChoices bin r e).foldl (addMerged n (g.edge e) rule) r.graph = G'
    at hmerging hother
  let marked : Rewriting V := ⟨r.graph, r.replaced.setIfInBounds e true⟩
  let r' : Rewriting V := ⟨G', r.replaced.setIfInBounds e true⟩
  -- merged edges come to node `n`, and the tails of its edges lie below it
  have hmarked : ∀ t : Nat, t < n → (r'.result.node t).edges = (marked.result.node t).edges := by
    intro t ht
    rw [node_result, node_result, hother t (Nat.ne_of_lt ht)]
    rfl
  have hlive : ∀ t : Nat, t < n → (r'.result.node t).edges = (r.result.node t).edges :=
    fun t ht => (hmarked t ht).trans (result_mark_eq h.merging.linked hlt
      ((h.merging.mem_edges_iff hg n e).mpr (Or.inl he)) (Nat.ne_of_lt ht))
  refine ⟨hmerging, by rw [Array.size_setIfInBounds, h.size], fun e' => ?_, ?_,
    fun e' choice => ?_⟩
  · rw [isReplaced_mark hlt, h.replaced, Set.mem_insert_iff]
    constructor
    · rintro (rfl | ⟨hp, hb⟩)
      · exact ⟨Or.inl rfl, hbin⟩
      · exact ⟨Or.inr hp, hb⟩
    · rintro ⟨rfl | hp, hb⟩
      · exact Or.inl rfl
      · exact Or.inr ⟨hp, hb⟩
  · refine List.nodup_append.mpr ⟨h.nodup, (nodup_freshChoices h.merging.linked hbin).map
      fun c c' heq => (Prod.mk.inj heq).2, fun p hp p' hp' heq => ?_⟩
    obtain ⟨c, -, rfl⟩ := List.mem_map.mp hp'
    rw [heq] at hp
    exact hnew ((h.made_iff e c).mp hp).1
  · rw [List.mem_append, h.made_iff, Set.mem_insert_iff]
    constructor
    · rintro (⟨hp, m, hc⟩ | hmem)
      · exact ⟨Or.inr hp, m, hg.choosable_congr hlive (hpassed e' hp m hc.listed) hc⟩
      · obtain ⟨c, hc, heq⟩ := List.mem_map.mp hmem
        cases heq
        exact ⟨Or.inl rfl, n, hg.choosable_congr hmarked (Nat.le_refl n)
          ⟨he, hbin, (mem_freshChoices hbin).mp hc⟩⟩
    · rintro ⟨heq | hp, m, hc⟩
      · subst heq
        obtain rfl := hg.linked.owned.node_eq hc.listed he
        have hback := hg.choosable_congr (fun t ht => (hmarked t ht).symm) (Nat.le_refl m) hc
        exact Or.inr (List.mem_map_of_mem ((mem_freshChoices hbin).mpr hback.offered))
      · exact Or.inl ⟨hp, m, hg.choosable_congr (fun t ht => (hlive t ht).symm)
          (hpassed e' hp m hc.listed) hc⟩

theorem Progress.replaceEdge {passed : Set EdgeId} (h : Progress g bin r made passed)
    (hg : g.Readable) {n e : Nat} (he : e ∈ (g.node n).edges) (hnew : e ∉ passed)
    (hpassed : ∀ e' ∈ passed, ∀ m : Nat, e' ∈ (g.node m).edges → m ≤ n) :
    ∃ made', Progress g bin (r.replaceEdge bin n e) made' (insert e passed) := by
  obtain ⟨rule, hrule, -, -⟩ := hg.fits n e he
  rw [replaceEdge_eq (h.merging.old e ((hg.linked.listed n e).mp he).1) hrule]
  split
  · rename_i hbin
    exact ⟨_, h.mergeEdge hg he hnew hpassed hrule hbin⟩
  · rename_i hbin
    exact ⟨made, h.keepEdge hbin⟩

/-! ## The whole pass -/

theorem Progress.foldl {n : Nat} (hg : g.Readable) {es : List EdgeId} (hnd : es.Nodup)
    (hes : ∀ e ∈ es, e ∈ (g.node n).edges) {passed : Set EdgeId}
    (h : Progress g bin r made passed) (hnew : ∀ e ∈ es, e ∉ passed)
    (hpassed : ∀ e ∈ passed, ∀ m : Nat, e ∈ (g.node m).edges → m ≤ n) :
    ∃ made', Progress g bin (es.foldl (Rewriting.replaceEdge bin n) r) made'
      (passed ∪ {e | e ∈ es}) := by
  induction es generalizing r made passed with
  | nil => exact ⟨made, by simpa using h⟩
  | cons e es ih =>
    obtain ⟨hne, hnd⟩ := List.nodup_cons.mp hnd
    have he := hes e List.mem_cons_self
    obtain ⟨made', hstep⟩ := h.replaceEdge hg he (hnew e List.mem_cons_self) hpassed
    have hnew' : ∀ e' ∈ es, e' ∉ insert e passed := by
      rintro e' he' (rfl | hmem)
      · exact hne he'
      · exact hnew e' (List.mem_cons_of_mem e he') hmem
    have hpassed' : ∀ e' ∈ insert e passed, ∀ m : Nat, e' ∈ (g.node m).edges → m ≤ n := by
      rintro e' (rfl | hmem) m hm
      · exact Nat.le_of_eq (hg.linked.owned.node_eq hm he)
      · exact hpassed e' hmem m hm
    obtain ⟨made'', hrest⟩ := ih hnd (fun e' he' => hes e' (List.mem_cons_of_mem e he')) hstep
      hnew' hpassed'
    have hset : insert e passed ∪ {e' | e' ∈ es} = passed ∪ {e' | e' ∈ e :: es} := by
      ext e'
      simp only [Set.mem_union, Set.mem_insert_iff, Set.mem_ofPred_eq, List.mem_cons]
      tauto
    rw [List.foldl_cons, ← hset]
    exact ⟨made'', hrest⟩

def edgesBelow (g : Hypergraph V) (n : Nat) : Set EdgeId :=
  {e | ∃ m : Nat, m < n ∧ e ∈ (g.node m).edges}

theorem Readable.progress (hg : g.Readable) (n : Nat) :
    ∃ made, Progress g bin ((List.range n).foldl (Rewriting.rewriteNode bin)
      ⟨g, Array.replicate g.edges.size false⟩) made (g.edgesBelow n) := by
  induction n with
  | zero =>
    refine ⟨[], hg.merging, by simp, fun e => ?_, List.nodup_nil, fun e choice => ?_⟩
    · simp [Rewriting.isReplaced, edgesBelow, Array.getD_eq_getD_getElem?,
        Array.getElem?_replicate]
      split <;> simp
    · simp [edgesBelow]
  | succ n ih =>
    obtain ⟨made, h⟩ := ih
    rw [List.range_succ, List.foldl_append]
    simp only [List.foldl_cons, List.foldl_nil]
    generalize (List.range n).foldl (Rewriting.rewriteNode bin)
      ⟨g, Array.replicate g.edges.size false⟩ = r at h
    -- node `n` still has its own edges only
    have hown : ∀ k : Nat, k ∈ (r.graph.node n).edges ↔ k ∈ (g.node n).edges := by
      intro k
      rw [h.merging.mem_edges_iff hg, or_iff_left]
      rintro ⟨i, e, choice, hi, he, -⟩
      obtain ⟨⟨m, hm, hem⟩, -⟩ := (h.made_iff e choice).mp (List.mem_of_getElem? hi)
      exact Nat.ne_of_lt hm (hg.linked.owned.node_eq hem he)
    have hnew : ∀ e ∈ (r.graph.node n).edges, e ∉ g.edgesBelow n := by
      rintro e he ⟨m, hm, hem⟩
      exact Nat.ne_of_lt hm (hg.linked.owned.node_eq hem ((hown e).mp he))
    have hpassed : ∀ e ∈ g.edgesBelow n, ∀ m : Nat, e ∈ (g.node m).edges → m ≤ n := by
      rintro e ⟨m', hm', hem⟩ m hm
      rw [hg.linked.owned.node_eq hm hem]
      exact Nat.le_of_lt hm'
    obtain ⟨made', hnext⟩ := h.foldl hg (h.merging.linked.nodup n) (fun e he => (hown e).mp he)
      hnew hpassed
    have hset : g.edgesBelow n ∪ {e | e ∈ (r.graph.node n).edges} = g.edgesBelow (n + 1) := by
      ext e
      simp only [edgesBelow, Set.mem_union, Set.mem_ofPred_eq, hown]
      constructor
      · rintro (⟨m, hm, he⟩ | he)
        · exact ⟨m, Nat.lt_succ_of_lt hm, he⟩
        · exact ⟨n, Nat.lt_succ_self n, he⟩
      · rintro ⟨m, hm, he⟩
        rcases Nat.lt_succ_iff_lt_or_eq.mp hm with hm | rfl
        · exact Or.inl ⟨m, hm, he⟩
        · exact Or.inr he
    rw [← hset]
    exact ⟨made', hnext⟩

def entryOf (g : Hypergraph V) (made : List (EdgeId × List (Option EdgeId))) (e : EdgeId)
    (choice : List (Option EdgeId)) : EdgeId :=
  g.edges.size + made.idxOf (e, choice)

theorem Progress.inlined (hg : g.Readable) (h : Progress g bin r made (g.edgesBelow g.nodes.size)) :
    Inlined g r.result bin (g.entryOf made) := by
  have hpassed : ∀ n : Nat, ∀ e ∈ (g.node n).edges, e ∈ g.edgesBelow g.nodes.size := fun n e he =>
    ⟨n, ((hg.linked.listed n e).mp he).2.1, he⟩
  have hmade : ∀ {n e choice}, Choosable g r.result bin n e choice → (e, choice) ∈ made :=
    fun {n e choice} hc => (h.made_iff e choice).mpr ⟨hpassed n e hc.listed, n, hc⟩
  have hget : ∀ {n e choice}, Choosable g r.result bin n e choice →
      made[made.idxOf (e, choice)]? = some (e, choice) := fun hc =>
    List.getElem?_idxOf (hmade hc)
  have hmem : ∀ n k : Nat, k ∈ (r.result.node n).edges ↔
      k ∈ (r.graph.node n).edges ∧ ¬(k ∈ g.edgesBelow g.nodes.size ∧
        g.hasBinarized bin k = true) := by
    intro n k
    rw [node_result, List.mem_filter, Bool.not_eq_true', ← Bool.not_eq_true, h.replaced]
  have hnotold : ∀ i : Nat, g.edges.size + i ∉ g.edgesBelow g.nodes.size := by
    rintro i ⟨m, -, hm⟩
    have hlt := ((hg.linked.listed m _).mp hm).1
    omega
  refine ⟨hg.fits, fun n k hk => ?_, hg.below, fun n e he hbin => ?_, fun n e choice hc => ?_,
    fun n k hk => ?_, fun n n' e e' choice choice' hc hc' heq => ?_, fun n n' e choice hc e' he' => ?_⟩
  · exact h.merging.fits n k ((hmem n k).mp hk).1
  · refine ⟨(hmem n e).mpr ⟨(h.merging.mem_edges_iff hg n e).mpr (Or.inl he), ?_⟩,
      h.merging.old e ((hg.linked.listed n e).mp he).1⟩
    rw [hbin]
    simp
  · have hmerged : MergedAs g r.result e choice (g.edges.size + made.idxOf (e, choice)) :=
      MergedAs.congr (G := r.graph) (fun _ _ => rfl) (h.merging.new _ e choice (hget hc)).2 rfl
    exact ⟨(hmem n _).mpr ⟨(h.merging.mem_edges_iff hg n _).mpr
      (Or.inr ⟨_, e, choice, hget hc, hc.listed, rfl⟩), fun hand => hnotold _ hand.1⟩, hmerged⟩
  · obtain ⟨hk, hnot⟩ := (hmem n k).mp hk
    rcases (h.merging.mem_edges_iff hg n k).mp hk with hk | ⟨i, e, choice, hi, he, rfl⟩
    · exact Or.inl ⟨hk, Bool.eq_false_iff.mpr fun hb => hnot ⟨hpassed n k hk, hb⟩⟩
    · obtain ⟨-, m, hc⟩ := (h.made_iff e choice).mp (List.mem_of_getElem? hi)
      obtain rfl := hg.linked.owned.node_eq hc.listed he
      refine Or.inr ⟨e, choice, hc, ?_⟩
      have hlt := (List.getElem?_eq_some_iff.mp hi).1
      have hidx := (List.getElem?_inj hlt h.nodup).mp (hi.trans (hget hc).symm)
      rw [entryOf, ← hidx]
  · have hidx : made.idxOf (e, choice) = made.idxOf (e', choice') := Nat.add_left_cancel heq
    have hsame := hget hc
    rw [hidx, hget hc'] at hsame
    obtain ⟨he, hchoice⟩ := Prod.mk.inj (Option.some.inj hsame)
    exact ⟨he.symm, hchoice.symm⟩
  · rintro rfl
    exact hnotold _ (hpassed n' _ he')

end Hypergraph

end ParseForest
