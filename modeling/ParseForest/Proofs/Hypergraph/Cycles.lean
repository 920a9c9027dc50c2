import ParseForest.Proofs.Hypergraph.Isomorphic

/-!
# Cycles and the derivations that sorting keeps

The search notes the edges with a tail that is still under way when the edge is followed. These are
the edges one of whose tails is not finished before their node, and each of them lies on a cycle.
Sorting keeps the derivations without such edges and no others.

So nothing is lost when no edge that the goal leads to lies on a cycle. On a cycle it depends on
where the search enters it which edge is dropped, and a derivation may need just that one: a sorted
graph has a goal when some derivation does without the edges that close a cycle.
-/

namespace ParseForest.Hypergraph

variable {V : Type} {g : Hypergraph V} {goal : Nat}

/-- The links lead from a tail of the edge back to the node that lists it. -/
def OnCycle (g : Hypergraph V) (e : EdgeId) : Prop := ∃ n t, (e, t) ∈ g.links n ∧ g.Reaches t n

def AcyclicBelow (g : Hypergraph V) : Prop :=
  ∀ goal : Nat, g.goal = some goal → ∀ n, g.Reaches goal n → ∀ e ∈ (g.node n).edges, ¬g.OnCycle e

/-! ## Edges that close a cycle -/

def finishOrder (stack : SearchStack) (s : Search) : List NodeId := s.order ++ stack.map (·.1)

def LeadsBack (g : Hypergraph V) (order : List NodeId) (e : EdgeId) : Prop :=
  ∃ n ∈ order, ∃ t, (e, t) ∈ g.links n ∧ (t = n ∨ [n, t].Sublist order)

theorem LeadsBack.mono {order order' : List NodeId} {e : EdgeId} (hsub : order.Sublist order')
    (h : LeadsBack g order e) : LeadsBack g order' e := by
  obtain ⟨n, hn, t, hlink, hback⟩ := h
  exact ⟨n, hsub.subset hn, t, hlink, hback.imp_right fun hnt => hnt.trans hsub⟩

theorem leadsBack_follow {stack : SearchStack} {s : Search} (hs : Searching g goal stack s)
    (h : ∀ e ∈ s.cyclic, LeadsBack g (finishOrder stack s) e) :
    ∀ e ∈ (g.follow stack s).cyclic, LeadsBack g (g.follow stack s).order e := by
  -- the order in which the nodes under way would be finished only grows when one is entered
  fun_induction Hypergraph.follow g stack s with
  | case1 s =>
    intro e he
    have hback := h e he
    rwa [finishOrder, List.map_nil, List.append_nil] at hback
  | case2 s n rest ih =>
    refine ih hs.leave fun e he => ?_
    have heq : finishOrder rest (s.leave n) = finishOrder ((n, []) :: rest) s := by
      simp [finishOrder, Search.order, Search.leave]
    rw [heq]
    exact h e he
  | case3 s n e t links rest ht ih =>
    refine ih (hs.enter ht) fun e' he' => (h e' he').mono ?_
    exact (List.Sublist.refl _).append (List.sublist_cons_self _ _)
  | case4 s n e t links rest ht ih =>
    refine ih (hs.noteCyclic ht) fun e' he' => ?_
    rcases List.mem_cons.mp he' with rfl | he'
    · have hstack : [n].Sublist (((n, (e', t) :: links) :: rest).map (·.1)) := by simp
      have htop : finishOrder ((n, links) :: rest) (s.noteCyclic e') =
          s.order ++ ((n, (e', t) :: links) :: rest).map (·.1) := rfl
      rw [htop]
      refine ⟨n, List.mem_append_right _ List.mem_cons_self, t, Searching.link_of_frame hs.frames, ?_⟩
      refine (List.mem_cons.mp ((hs.underway t).mp ht)).imp_right fun hrest => ?_
      exact ((List.singleton_sublist.mpr hrest).cons_cons n).trans (List.sublist_append_right _ _)
    · exact h e' he'
  | case5 s n e t links rest ht ih => exact ih (hs.pass (Or.inl ht)) h
  | case6 s n e t links rest ht ih => exact ih (hs.pass (Or.inr ht)) h

theorem not_sublist_of_mem_before {before after : List NodeId} {n t : NodeId}
    (hnodup : (before ++ n :: after).Nodup) (ht : t ∈ before) :
    ¬[n, t].Sublist (before ++ n :: after) := by
  intro hback
  obtain ⟨-, -, hdis⟩ := List.nodup_append.mp hnodup
  obtain ⟨first, last, heq, hfirst, hlast⟩ := List.sublist_append_iff.mp hback
  cases first with
  | nil =>
    rw [List.nil_append] at heq
    subst heq
    exact hdis t ht t (hlast.subset (List.mem_cons_of_mem n List.mem_cons_self)) rfl
  | cons m first =>
    obtain rfl : n = m := (List.cons.inj heq).1
    exact hdis n (hfirst.subset List.mem_cons_self) n List.mem_cons_self rfl

/-- The search notes the edges of what it reaches that lead back in the order of finishing. -/
theorem isCyclic_iff (hl : g.Owned) (hin : g.TailsInside) (hlt : goal < g.nodes.size) {e : EdgeId} :
    (g.searchFrom goal).isCyclic e = true ↔ LeadsBack g (g.searchFrom goal).order e := by
  constructor
  · intro he
    rw [Search.isCyclic, List.contains_iff_mem] at he
    exact leadsBack_follow (searching_start hlt) (fun e he => by cases he) e he
  · rintro ⟨n, hn, t, hlink, hback⟩
    by_contra hcyclic
    rw [Bool.not_eq_true] at hcyclic
    have htails := hin.link_lt fun n e he => (hl.owned n e he).1
    obtain ⟨before, after, horder, htb⟩ := exists_before hlt htails hn hlink hcyclic
    have hnodup := nodup_order hlt
    rw [horder] at hback hnodup
    rcases hback with rfl | hback
    · exact (List.nodup_append.mp hnodup).2.2 t htb t List.mem_cons_self rfl
    · exact not_sublist_of_mem_before hnodup htb hback

theorem closesCycle.onCycle (hgoal : ∀ goal : Nat, g.goal = some goal → goal < g.nodes.size)
    {e : EdgeId} (h : g.closesCycle e) : g.OnCycle e := by
  obtain ⟨goal, hg, he⟩ := h
  rw [Search.isCyclic, List.contains_iff_mem] at he
  exact (searching_searchFrom (hgoal goal hg)).cyclic e he

/-! ## The derivations that are kept -/

theorem Derives.all_reached {n : NodeId} {x : Tree} (hx : g.Derives n x) :
    x.All fun e => ∃ m, g.Reaches n m ∧ e ∈ (g.node m).edges := by
  induction hx with
  | @node n e below listed length tails ih =>
    refine Tree.All.node ⟨n, .refl, listed⟩ fun y hy => ?_
    obtain ⟨t, ht⟩ := exists_mem_zip length hy
    refine (ih _ ht).imp fun f hf => ?_
    obtain ⟨m, hreach, hf⟩ := hf
    exact ⟨m, .head ⟨e, mem_links.mpr ⟨listed, (List.of_mem_zip ht).1⟩⟩ hreach, hf⟩

theorem AcyclicBelow.all_not_closesCycle (h : g.AcyclicBelow)
    (hgoal : ∀ goal : Nat, g.goal = some goal → goal < g.nodes.size) {x : Tree}
    (hx : x ∈ g.goalTrees) : x.All fun e => ¬g.closesCycle e := by
  obtain ⟨goal, hg, hx⟩ := hx
  refine hx.all_reached.imp fun e he hcycle => ?_
  obtain ⟨m, hreach, he⟩ := he
  exact h goal hg m hreach e he (hcycle.onCycle hgoal)

theorem exists_mem_goalTrees_sorted (hl : g.Owned) (hin : g.TailsInside)
    (hgoal : ∀ goal : Nat, g.goal = some goal → goal < g.nodes.size)
    (hvalid : g.sorted.isValid = true) : ∃ x, x ∈ g.sorted.goalTrees := by
  cases hg : g.goal with
  | none =>
    rw [sorted_eq_empty_of_none hg] at hvalid
    cases hvalid
  | some goal =>
    by_cases hnode : (g.derivable (g.searchFrom goal)).hasNode goal = true
    · obtain ⟨⟨top, hwell⟩, -⟩ := wellFormed_sorted_of_hasNode hl hin hg (hgoal goal hg) hnode
      have hdesc : g.sorted.Descending :=
        ⟨fun n e he t ht => hwell.below e n (hwell.of_mem_edges he).2.2 t ht, fun n hn =>
          (hwell.derived n hn).imp fun e he => he.1⟩
      obtain ⟨x, hx⟩ := hdesc.exists_derives top hwell.goal_lt
      exact ⟨x, top, hwell.goal_eq, hx⟩
    · -- the graph is cleared when its goal is not derivable
      rw [sorted_eq_empty hg hnode] at hvalid
      cases hvalid

theorem acyclicBelow_of_lt (hl : g.Owned) (h : ∀ goal : Nat, g.goal = some goal →
    ∀ n : Nat, g.Reaches goal n → ∀ l ∈ g.links n, (show Nat from l.2) < n) : g.AcyclicBelow := by
  rintro goal hg m hm e he ⟨n, t, hlink, hback⟩
  obtain rfl : n = m := hl.node_eq (mem_links.mp hlink).1 he
  have ht : g.Reaches goal t := hm.tail ⟨e, hlink⟩
  have hle : ∀ k : Nat, g.Reaches t k → k ≤ t := by
    intro k hk
    induction hk with
    | refl => exact Nat.le_refl t
    | tail hreach hstep ih =>
      obtain ⟨f, hf⟩ := hstep
      exact Nat.le_trans (Nat.le_of_lt (h goal hg _ (ht.trans hreach) _ hf)) ih
  exact absurd (h goal hg n hm _ hlink) (Nat.not_lt.mpr (hle n hback))

/-- The derivations of the sorted graph are derivations of the graph, each of them once and with
the same rules, features and attributes. Below a goal without cycles they are all of them. -/
theorem Built.goalTrees_sorted (h : g.Built) (hin : g.TailsInside)
    (hgoal : ∀ goal : Nat, g.goal = some goal → goal < g.nodes.size) :
    g.sort? = some g.sorted ∧ ∃ back, SameEdges g g.sorted back ∧
      Set.MapsTo (Tree.relabel back) g.sorted.goalTrees g.goalTrees ∧
      Set.InjOn (Tree.relabel back) g.sorted.goalTrees ∧
      (g.AcyclicBelow → Set.SurjOn (Tree.relabel back) g.sorted.goalTrees g.goalTrees) := by
  have hl := h.linked.owned
  obtain ⟨back, hbij, hsame⟩ := sorted_bijOn hl hin hgoal
  refine ⟨sort?_eq_some hl hin hgoal, back, hsame, fun x hx => (hbij.mapsTo hx).1, hbij.injOn,
    fun hacyclic x hx => ?_⟩
  exact hbij.surjOn ⟨hx, hacyclic.all_not_closesCycle hgoal hx⟩

def doubled : Hypergraph Nat :=
  let leaf := ((empty.addNode.extend 0 [] none NameMap.empty NameMap.empty).extend 0 [] none
    NameMap.empty NameMap.empty).addNode
  let above := leaf.addNode.extend 2 [0, 0] none NameMap.empty NameMap.empty
  let top := (above.addNode.extend 3 [2] none NameMap.empty NameMap.empty).extend 3 [1] none
    NameMap.empty NameMap.empty
  (top.addNode.extend 4 [4, 3] none NameMap.empty NameMap.empty).withGoal (some 3)

theorem goalTrees_sorted_doubled :
    (doubled.Built ∧ doubled.TailsInside ∧
      ∀ goal : Nat, doubled.goal = some goal → goal < doubled.nodes.size) ∧
      doubled.AcyclicBelow ∧ doubled.sorted.edges.size = 4 ∧
        ∃ back, SameEdges doubled doubled.sorted back ∧
          Set.BijOn (Tree.relabel back) doubled.sorted.goalTrees doubled.goalTrees := by
  have hbuilt : doubled.Built := by
    refine .withGoal (.extend (.addNode (.extend (.extend (.addNode (.extend (.addNode (.addNode
      (.extend (.extend (.addNode .empty) ?_ _ _ _ _) ?_ _ _ _ _))) ?_ _ _ _ _)) ?_ _ _ _ _)
        ?_ _ _ _ _)) ?_ _ _ _ _) _
    all_goals decide
  have hin : doubled.TailsInside := by
    have hall : ∀ e < 6, ∀ t ∈ (doubled.edge e).tails, t < 5 := by decide
    exact hall
  have hgoal : ∀ goal : Nat, doubled.goal = some goal → goal < doubled.nodes.size := by
    intro goal hg
    cases hg
    decide
  have hacyclic : doubled.AcyclicBelow := by
    have hlow : ∀ n ≤ 3, ∀ l ∈ doubled.links n, (show Nat from l.2) < n := by decide
    refine acyclicBelow_of_lt hbuilt.linked.owned fun goal hg n hn => hlow n ?_
    cases hg
    induction hn with
    | refl => exact Nat.le_refl 3
    | tail _ hlink ih =>
      obtain ⟨e, he⟩ := hlink
      exact Nat.le_trans (Nat.le_of_lt (hlow _ ih _ he)) ih
  obtain ⟨-, back, hsame, hmaps, hinj, hsurj⟩ := hbuilt.goalTrees_sorted hin hgoal
  exact ⟨⟨hbuilt, hin, hgoal⟩, hacyclic, by cbv, back, hsame, hmaps, hinj, hsurj hacyclic⟩

/-- A sorted graph has a goal just when the goal has a derivation none of whose edges leads back in
the order in which the search from the goal finishes the nodes. Edges that lead back lie on cycles. -/
theorem Built.isValid_sorted_iff (h : g.Built) (hin : g.TailsInside)
    (hgoal : ∀ goal : Nat, g.goal = some goal → goal < g.nodes.size) :
    (g.sorted.isValid = true ↔ ∃ goal, g.goal = some goal ∧ ∃ x, g.Derives goal x ∧
      x.All fun e => ¬LeadsBack g (g.searchFrom goal).order e) ∧
    ∀ goal, g.goal = some goal → ∀ e, LeadsBack g (g.searchFrom goal).order e → g.OnCycle e := by
  have hl := h.linked.owned
  have hcloses : ∀ goal : Nat, g.goal = some goal → ∀ e,
      g.closesCycle e ↔ LeadsBack g (g.searchFrom goal).order e := by
    intro goal hg e
    rw [← isCyclic_iff hl hin (hgoal goal hg), closesCycle, hg]
    simp
  obtain ⟨back, hbij, -⟩ := sorted_bijOn hl hin hgoal
  refine ⟨⟨fun hvalid => ?_, ?_⟩, fun goal hg e he => ((hcloses goal hg e).mpr he).onCycle hgoal⟩
  · obtain ⟨x, hx⟩ := exists_mem_goalTrees_sorted hl hin hgoal hvalid
    obtain ⟨⟨goal, hg, hx⟩, hall⟩ := hbij.mapsTo hx
    exact ⟨goal, hg, _, hx, hall.imp fun e he => mt (hcloses goal hg e).mpr he⟩
  · rintro ⟨goal, hg, x, hx, hall⟩
    obtain ⟨y, ⟨top, htop, -⟩, -⟩ := hbij.surjOn
      ⟨⟨goal, hg, hx⟩, hall.imp fun e he => mt (hcloses goal hg e).mp he⟩
    rw [isValid, htop]
    rfl

/-- The second node of the pair leads back to the goal, which has a derivation without that edge. -/
theorem isValid_sorted_iff_pair :
    (pair.Built ∧ pair.TailsInside ∧
      ∀ goal : Nat, pair.goal = some goal → goal < pair.nodes.size) ∧
      LeadsBack pair (pair.searchFrom 1).order 2 ∧
      (∃ goal, pair.goal = some goal ∧ ∃ x, pair.Derives goal x ∧
        x.All fun e => ¬LeadsBack pair (pair.searchFrom goal).order e) := by
  have hin : pair.TailsInside := by
    have hall : ∀ e < 4, ∀ t ∈ (pair.edge e).tails, t < 2 := by decide
    exact hall
  have hgoal : ∀ goal : Nat, pair.goal = some goal → goal < pair.nodes.size := by
    intro goal hg
    cases hg
    decide
  have hback : (pair.searchFrom 1).isCyclic 2 = true := by cbv
  have hvalid : pair.sorted.isValid = true := by cbv
  exact ⟨⟨built_pair, hin, hgoal⟩, (isCyclic_iff built_pair.linked.owned hin (by decide)).mp hback,
    (built_pair.isValid_sorted_iff hin hgoal).1.mp hvalid⟩

/-- The goal, number two, needs two nodes. Each of them derives the other, and the first one has an
edge without tails. -/
def crossed : Hypergraph Nat :=
  let nodes := empty.addNode.addNode.addNode
  let first := (nodes.extend 0 [] none NameMap.empty NameMap.empty).extend 0 [1] none NameMap.empty
    NameMap.empty
  let second := first.extend 1 [0] none NameMap.empty NameMap.empty
  (second.extend 2 [0, 1] none NameMap.empty NameMap.empty).withGoal (some 2)

/-- The search enters the cycle at the first node. So it drops the only edge of the second one,
which all derivations of the goal use. -/
theorem not_isValid_sorted_crossed :
    (crossed.Built ∧ crossed.TailsInside ∧
      ∀ goal : Nat, crossed.goal = some goal → goal < crossed.nodes.size) ∧
      (∃ x, x ∈ crossed.goalTrees) ∧ crossed.sorted.isValid = false ∧
        ¬(crossed.sorted.isValid = true ↔ ∃ x, x ∈ crossed.goalTrees) := by
  have hbuilt : crossed.Built := by
    refine .withGoal (.extend (.extend (.extend (.extend (.addNode (.addNode (.addNode .empty)))
      ?_ _ _ _ _) ?_ _ _ _ _) ?_ _ _ _ _) ?_ _ _ _ _) _
    all_goals decide
  have hin : crossed.TailsInside := by
    have hall : ∀ e < 4, ∀ t ∈ (crossed.edge e).tails, t < 3 := by decide
    exact hall
  have hgoal : ∀ goal : Nat, crossed.goal = some goal → goal < crossed.nodes.size := by
    intro goal hg
    cases hg
    decide
  have hinvalid : crossed.sorted.isValid = false := by cbv
  have hfirst : crossed.Derives 0 (.node 0 []) :=
    derives_node_iff.mpr ⟨by decide, List.Forall₂.nil⟩
  have hsecond : crossed.Derives 1 (.node 2 [.node 0 []]) :=
    derives_node_iff.mpr ⟨by decide, List.Forall₂.cons hfirst List.Forall₂.nil⟩
  have htree : .node 3 [.node 0 [], .node 2 [.node 0 []]] ∈ crossed.goalTrees :=
    ⟨2, rfl, derives_node_iff.mpr
      ⟨by decide, List.Forall₂.cons hfirst (List.Forall₂.cons hsecond List.Forall₂.nil)⟩⟩
  refine ⟨⟨hbuilt, hin, hgoal⟩, ⟨_, htree⟩, hinvalid, fun hiff => ?_⟩
  rw [hiff.mpr ⟨_, htree⟩] at hinvalid
  cases hinvalid

end ParseForest.Hypergraph
