import ParseForest.Proofs.Hypergraph.Derivable
import ParseForest.Proofs.Hypergraph.Tree

/-!
# The nodes and edges that are left

Once it is decided which edges take part in a derivation, the goal passes the mark of being
reached down over those edges, heads before tails. Every node that is left then gets its own
edges: in a linked graph no two nodes list the same edge, so none of them is taken away by a node
that comes before.
-/

namespace ParseForest.Hypergraph

variable {V : Type} {g : Hypergraph V}

theorem decided_derivable (hl : g.Owned) (hin : g.TailsInside) {goal : Nat}
    (hgoal : goal < g.nodes.size) :
    Decided g (g.searchFrom goal) (g.searchFrom goal).finished
      (g.derivable (g.searchFrom goal)) := by
  have hs := searching_searchFrom hgoal
  refine decided_foldl hl hin hs.settled hs.once fun n hn => ?_
  have hmark := (hs.finished n).mpr hn
  obtain ⟨hlt, -⟩ := Array.getElem?_eq_some_iff.mp hmark
  rw [hs.size] at hlt
  exact hlt

/-! ## What the goal reaches -/

section

variable {d : Derivable}

theorem getD_foldl_set (a : Array Bool) (ts : List NodeId)
    (hts : ∀ t ∈ ts, (show Nat from t) < a.size) (m : Nat) :
    (ts.foldl (fun r t => r.setIfInBounds t true) a).size = a.size ∧
      ((ts.foldl (fun r t => r.setIfInBounds t true) a).getD m false = true ↔
        a.getD m false = true ∨ m ∈ ts) := by
  induction ts generalizing a with
  | nil => simp
  | cons t ts ih =>
    have ht := hts t List.mem_cons_self
    obtain ⟨hsize, hget⟩ := ih (a.setIfInBounds t true) fun u hu => by
      rw [Array.size_setIfInBounds]
      exact hts u (List.mem_cons_of_mem t hu)
    rw [List.foldl_cons]
    refine ⟨by rw [hsize, Array.size_setIfInBounds], ?_⟩
    rw [hget, getD_setIfInBounds, List.mem_cons]
    by_cases hm : t = m
    · subst hm
      simp [show (show Nat from t) < a.size from ht]
    · simp [hm, Ne.symm hm]

theorem getD_foldl_tails (r : Array Bool) (es : List EdgeId)
    (hes : ∀ e ∈ es, ∀ t ∈ (g.edge e).tails, (show Nat from t) < r.size) (m : Nat) :
    let after := es.foldl
      (fun r e => (g.edge e).tails.foldl (fun r t => r.setIfInBounds t true) r) r
    after.size = r.size ∧
      (after.getD m false = true ↔ r.getD m false = true ∨ ∃ e ∈ es, m ∈ (g.edge e).tails) := by
  induction es generalizing r with
  | nil => simp
  | cons e es ih =>
    obtain ⟨hsize, hget⟩ := getD_foldl_set r (g.edge e).tails (hes e List.mem_cons_self) m
    obtain ⟨hsize', hget'⟩ := ih
      ((g.edge e).tails.foldl (fun r t => r.setIfInBounds t true) r) fun e' he' t ht => by
        rw [hsize]
        exact hes e' (List.mem_cons_of_mem e he') t ht
    rw [List.foldl_cons]
    refine ⟨hsize'.trans hsize, ?_⟩
    rw [hget', hget, List.exists_mem_cons_iff, or_assoc]

theorem getD_reachTails (hl : g.Owned) (hin : g.TailsInside) {r : Array Bool}
    (hr : r.size = g.nodes.size) (n m : Nat) :
    (g.reachTails d r n).size = g.nodes.size ∧
      ((g.reachTails d r n).getD m false = true ↔ r.getD m false = true ∨
        r.getD n false = true ∧ ∃ e ∈ (g.node n).edges, d.hasEdge e = true ∧
          m ∈ (g.edge e).tails) := by
  unfold reachTails
  split
  · rename_i hn
    obtain ⟨hsize, hget⟩ := getD_foldl_tails (g := g) r ((g.node n).edges.filter d.hasEdge)
      (fun e he t ht => by
        rw [hr]
        exact hin e (hl.owned n e (List.mem_filter.mp he).1).1 t ht) m
    refine ⟨hsize.trans hr, ?_⟩
    rw [hget]
    simp only [List.mem_filter, and_assoc, hn, true_and]
  · rename_i hn
    exact ⟨hr, by simp [hn]⟩

/-- A tail of a kept edge of a reached node is reached: it is passed after its head, and nothing
changes the mark of a node once its tails have been dealt with. -/
theorem reached_foldl (hl : g.Owned) (hin : g.TailsInside) {s : Search}
    {seen rest : List NodeId} (hset : Settled g s.cyclic (seen ++ rest))
    (hnd : (seen ++ rest).Nodup)
    (hkept : ∀ n ∈ seen, ∀ e ∈ (g.node n).edges, d.hasEdge e = true → s.isCyclic e = false)
    {start : Array Bool} (hstart : start.size = g.nodes.size) :
    let r := seen.foldl (g.reachTails d) start
    r.size = g.nodes.size ∧ (∀ m : Nat, start.getD m false = true → r.getD m false = true) ∧
      ∀ n ∈ seen, r.getD n false = true → ∀ e ∈ (g.node n).edges, d.hasEdge e = true →
        ∀ t ∈ (g.edge e).tails, r.getD t false = true := by
  induction seen using List.reverseRecOn generalizing rest with
  | nil => exact ⟨hstart, fun m hm => hm, fun n hn => by cases hn⟩
  | append_singleton seen n ih =>
    rw [List.append_assoc] at hset hnd
    obtain ⟨hsize, hmono, hclosed⟩ := ih hset hnd fun m hm =>
      hkept m (List.mem_append_left _ hm)
    rw [List.foldl_append]
    simp only [List.foldl_cons, List.foldl_nil]
    have hstep := getD_reachTails (d := d) hl hin hsize n
    have hlater : ∀ e ∈ (g.node n).edges, s.isCyclic e = false → ∀ t ∈ (g.edge e).tails,
        t ∈ rest := fun e he hc t ht => tail_mem_of_settled hl hin hset.of_append he hc ht
    -- the marks that are set now belong to nodes that come later
    have hold : ∀ m ∈ seen ++ [n], (g.reachTails d (seen.foldl (g.reachTails d) start) n).getD m
        false = true → (seen.foldl (g.reachTails d) start).getD m false = true := by
      intro m hm hr
      rcases ((hstep m).2.mp hr) with h | ⟨-, e, he, hd, ht⟩
      · exact h
      · have hc := hkept n (List.mem_append_right _ List.mem_cons_self) e he hd
        have hrest := hlater e he hc m ht
        rw [← List.append_assoc] at hnd
        exact absurd hrest (List.disjoint_of_nodup_append hnd hm)
    refine ⟨(hstep n).1, fun m hm => (hstep m).2.mpr (Or.inl (hmono m hm)), ?_⟩
    intro m hm hr e he hd t ht
    have hr := hold m hm hr
    rcases List.mem_append.mp hm with hm | hm
    · exact (hstep t).2.mpr (Or.inl (hclosed m hm hr e he hd t ht))
    · rw [List.mem_singleton.mp hm] at hr he
      exact (hstep t).2.mpr (Or.inr ⟨hr, e, he, hd, ht⟩)

theorem reached_closed (hl : g.Owned) (hin : g.TailsInside) {goal : Nat}
    (hgoal : goal < g.nodes.size)
    (hkept : ∀ e : Nat, d.hasEdge e = true → (g.searchFrom goal).isCyclic e = false) :
    let r := g.reached (g.searchFrom goal) d goal
    r.getD goal false = true ∧
      ∀ n ∈ (g.searchFrom goal).finished, r.getD n false = true →
        ∀ e ∈ (g.node n).edges, d.hasEdge e = true →
          ∀ t ∈ (g.edge e).tails, r.getD t false = true := by
  have hs := searching_searchFrom hgoal
  have hstart : ((Array.replicate g.nodes.size false).setIfInBounds goal true).size =
      g.nodes.size := by simp
  have hsettled : Settled g (g.searchFrom goal).cyclic ((g.searchFrom goal).finished ++ []) := by
    rw [List.append_nil]
    exact hs.settled
  have honce : ((g.searchFrom goal).finished ++ []).Nodup := by
    rw [List.append_nil]
    exact hs.once
  obtain ⟨-, hmono, hclosed⟩ := reached_foldl (d := d) hl hin hsettled honce
    (fun n _ e _ hd => hkept e hd) hstart
  refine ⟨hmono goal ?_, hclosed⟩
  rw [getD_setIfInBounds]
  simp [hgoal]

end

/-! ## The edges of the nodes that are left -/

theorem foldl_takeEdge {es : List EdgeId} (hnd : es.Nodup) (own : List EdgeId)
    (free : Array Bool) :
    (es.foldl takeEdge (own, free)).1 = (es.filter fun e => free.getD e false).reverse ++ own ∧
      ∀ e ∉ es, (es.foldl takeEdge (own, free)).2.getD e false = free.getD e false := by
  induction es generalizing own free with
  | nil => simp
  | cons e es ih =>
    obtain ⟨he, hnd⟩ := List.nodup_cons.mp hnd
    rw [List.foldl_cons, takeEdge]
    split
    · rename_i hfree
      obtain ⟨hown, hrest⟩ := ih hnd (e :: own) (free.setIfInBounds e false)
      have hsame : ∀ e' ≠ e, (free.setIfInBounds e false).getD e' false =
          free.getD e' false := by
        intro e' hne
        rw [getD_setIfInBounds, if_neg fun h => hne h.1.symm]
      constructor
      · have heq : es.filter (fun e' => (free.setIfInBounds e false).getD e' false) =
            es.filter fun e' => free.getD e' false :=
          List.filter_congr fun e' he' => hsame e' fun heq => he (heq ▸ he')
        rw [hown, heq, List.filter_cons, if_pos hfree, List.reverse_cons, List.append_assoc]
        rfl
      · intro e' he'
        rw [List.mem_cons, not_or] at he'
        rw [hrest e' he'.2, hsame e' he'.1]
    · rename_i hfree
      obtain ⟨hown, hrest⟩ := ih hnd own free
      refine ⟨by rw [hown, List.filter_cons, if_neg hfree], fun e' he' => ?_⟩
      exact hrest e' fun h => he' (List.mem_cons_of_mem e h)

theorem allot_eq (hl : g.Owned) (free : Array Bool) {nodes : List NodeId} (hnd : nodes.Nodup) :
    g.allot free nodes =
      nodes.map fun n => (n, (g.node n).edges.filter fun e => free.getD e false) := by
  suffices key : (nodes.foldl g.allotNode (#[], free)).1.toList =
        nodes.map (fun n => (n, (g.node n).edges.filter fun e => free.getD e false)) ∧
      ∀ e : Nat, (∀ n ∈ nodes, e ∉ (g.node n).edges) →
        (nodes.foldl g.allotNode (#[], free)).2.getD e false = free.getD e false from key.1
  induction nodes using List.reverseRecOn with
  | nil => simp
  | append_singleton nodes n ih =>
    obtain ⟨hnd, -, hdis⟩ := List.nodup_append.mp hnd
    obtain ⟨hshares, hfree⟩ := ih hnd
    rw [List.foldl_append]
    simp only [List.foldl_cons, List.foldl_nil]
    generalize nodes.foldl g.allotNode (#[], free) = st at hshares hfree
    obtain ⟨shares, left⟩ := st
    obtain ⟨hown, hrest⟩ := foldl_takeEdge (hl.nodup n) [] left
    have hheads : ∀ e ∈ (g.node n).edges, ∀ m ∈ nodes, e ∉ (g.node m).edges := by
      intro e he m hm he'
      exact hdis m hm n List.mem_cons_self (hl.node_eq he' he)
    have hsame : (g.node n).edges.filter (fun e => left.getD e false) =
        (g.node n).edges.filter fun e => free.getD e false :=
      List.filter_congr fun e he => hfree e (hheads e he)
    rw [allotNode]
    constructor
    · simp only at hshares
      simp only [Array.toList_push, hshares, List.map_append, List.map_cons, List.map_nil, hown,
        List.append_nil, List.reverse_reverse, hsame]
    · intro e he
      have hn := he n (List.mem_append_right _ List.mem_cons_self)
      simp only
      rw [hrest e hn]
      exact hfree e fun m hm => he m (List.mem_append_left _ hm)

end ParseForest.Hypergraph
