import ParseForest.Proofs.Forest.Run
import ParseForest.Proofs.Forest.Tails
import ParseForest.Proofs.Hypergraph.Sorted

/-!
# The graph of a finished forest

The recorded graph has its tails before their heads, and every node is derived by an edge. The
goal is put on top of it, with one edge for each constituent of the goal label over the whole
lattice. So the graph that is sorted in the end loses nothing, and it has a goal as soon as there
is such a constituent.
-/

namespace ParseForest

variable {V : Type} [Scalar V]

theorem load_tails (lattice : Lattice V) (x : Trail Constituent) :
    (x.load Match.carrier lattice).tails = x.entries.map Constituent.node := by
  induction x with
  | start => rfl
  | entry x p c ih =>
    change (x.load Match.carrier lattice).tails ++ [c.node] = _
    rw [ih, Trail.entries, List.map_append, List.map_singleton]
  | arc x p k ih =>
    rw [Trail.load, Trail.entries, ← ih]
    cases (lattice.arcsAt p)[k]? <;> rfl

namespace Recorded

variable {g : Grammar V} {o : Options V} {lattice : Lattice V}
  {cells : Nat → Nat → List Constituent} {graph : Hypergraph V} {ledger : List Entry}

theorem of_mem_edges (h : Recorded g o lattice cells graph ledger) {n e : Nat}
    (he : e ∈ (graph.node n).edges) :
    ∃ a pair c, ledger[e]? = some a ∧ g.pair? a.step.rule = some pair ∧
      c ∈ cells a.place.first a.place.last ∧ c.label = a.place.label ∧
      c.level = a.step.parts.level ∧ graph.edge e = edgeOf o lattice e c.node pair a ∧
      (∀ d ∈ a.step.parts.entries, d.node < c.node) ∧ c.node = n := by
  obtain ⟨hlt, -, hhead⟩ := (h.linked.listed n e).mp he
  rw [h.size] at hlt
  have hget := List.getElem?_eq_getElem hlt
  obtain ⟨pair, c, hp, hc, hlabel, hlevel, hedge, hbelow⟩ := h.edge e _ hget
  refine ⟨_, pair, c, hget, hp, hc, hlabel, hlevel, hedge, hbelow, ?_⟩
  rw [hedge] at hhead
  exact Option.some.inj hhead

theorem tail_lt (h : Recorded g o lattice cells graph ledger) {n e : Nat}
    (he : e ∈ (graph.node n).edges) {t : NodeId} (ht : t ∈ (graph.edge e).tails) : t < n := by
  obtain ⟨a, pair, c, -, -, -, -, -, hedge, hbelow, rfl⟩ := h.of_mem_edges he
  rw [hedge] at ht
  have ht := mem_of_mem_orderTails ht
  rw [load_tails] at ht
  obtain ⟨d, hd, rfl⟩ := List.mem_map.mp ht
  exact hbelow d hd

theorem mem_edges (h : Recorded g o lattice cells graph ledger) {e : Nat} {a : Entry}
    (ha : ledger[e]? = some a) {c : Constituent} (hc : c ∈ cells a.place.first a.place.last)
    (hlabel : c.label = a.place.label) (hlevel : c.level = a.step.parts.level) :
    e ∈ (graph.node c.node).edges := by
  obtain ⟨pair, d, -, hd, hlabel', hlevel', hedge, -⟩ := h.edge e a ha
  have heq := h.distinct _ _ d c hd hc (hlabel'.trans hlabel.symm) (hlevel'.trans hlevel.symm)
  subst heq
  refine (h.linked.listed _ e).mpr ⟨?_, h.bound _ _ d hd, by rw [hedge]; rfl⟩
  rw [h.size]
  exact (List.getElem?_eq_some_iff.mp ha).1

theorem derives_node (h : Recorded g o lattice cells graph ledger) {e : Nat} {a : Entry}
    (ha : ledger[e]? = some a) {pair : RulePair V} (hnamed : g.pair? a.step.rule = some pair)
    (hcount : a.step.parts.entries.length ≤ pair.source.arity) {c : Constituent}
    (hc : c ∈ cells a.place.first a.place.last) (hlabel : c.label = a.place.label)
    (hlevel : c.level = a.step.parts.level) {trees : List Tree}
    (htrees : List.Forall₂ (fun d x => graph.Derives d.node x) a.step.parts.entries trees) :
    graph.Derives c.node (.node e (orderTails pair.source trees)) := by
  obtain ⟨pair', _, hnamed', -, -, -, hedge, -⟩ := h.edge e a ha
  rw [hnamed] at hnamed'
  cases hnamed'
  refine Hypergraph.derives_node_iff.mpr ⟨h.mem_edges ha hc hlabel hlevel, ?_⟩
  rw [hedge, edgeOf, load_tails, forall₂_orderTails_iff, List.forall₂_map_left_iff]
  · exact htrees
  · rw [List.length_map, htrees.length_eq]
  · rw [List.length_map]
    exact hcount

theorem exists_edge (h : Recorded g o lattice cells graph ledger)
    (hderived : ∀ i j, ∀ c ∈ cells i j, ∃ a ∈ ledger, a.place = ⟨i, j, c.label⟩ ∧
      a.step.parts.level = c.level) {n : Nat} (hn : n < graph.nodes.size) :
    ∃ e, e ∈ (graph.node n).edges := by
  obtain ⟨i, j, c, hc, rfl⟩ := h.known n hn
  obtain ⟨a, ha, hplace, hlevel⟩ := hderived i j c hc
  obtain ⟨e, he⟩ := List.getElem?_of_mem ha
  exact ⟨e, h.mem_edges he (by rw [hplace]; exact hc) (by rw [hplace]) hlevel.symm⟩

theorem edge_tail_lt (h : Recorded g o lattice cells graph ledger) {e : Nat}
    (he : e < graph.edges.size) {t : NodeId} (ht : t ∈ (graph.edge e).tails) :
    t < graph.nodes.size := by
  rw [h.size] at he
  obtain ⟨pair, c, -, hc, hlabel, hlevel, -⟩ := h.edge e _ (List.getElem?_eq_getElem he)
  have hmem := h.mem_edges (List.getElem?_eq_getElem he) hc hlabel hlevel
  exact Nat.lt_trans (h.tail_lt hmem ht) (h.bound _ _ c hc)

end Recorded

namespace ForestState

variable {g : Grammar V} {o : Options V} {lattice : Lattice V} {pruner : Pruner}
  {st : ForestState V} {ledger : List Entry}

def goalEdge (o : Options V) (size : Nat) (e : EdgeId) (goal : NodeId) (c : Constituent) : Edge V :=
  ⟨e, some goal, [c.node], some (goalRule o), NameMap.empty, spanAttributes 0 size⟩

structure Topped (o : Options V) (size : Nat) (graph : Hypergraph V) (tops : List Constituent)
    (topped : Hypergraph V) : Prop where
  linked : topped.Linked
  nodes : topped.nodes.size = graph.nodes.size + 1
  edges : topped.edges.size = graph.edges.size + tops.length
  old : ∀ e : Nat, e < graph.edges.size → topped.edge e = graph.edge e
  new : ∀ (i : Nat) c, tops[i]? = some c → topped.edge (graph.edges.size + i) =
    goalEdge o size (graph.edges.size + i) graph.nodes.size c

omit [Scalar V] in
theorem topped_foldl {graph : Hypergraph V} (hlinked : graph.addNode.Linked) (o : Options V)
    (size : Nat) (tops : List Constituent) :
    Topped o size graph tops (tops.foldl
      (fun h c => (h.addEdge [c.node] (some (goalRule o)) NameMap.empty
        (spanAttributes 0 size)).connect h.edges.size graph.nodes.size) graph.addNode) := by
  induction tops using List.reverseRecOn with
  | nil => exact ⟨hlinked, by simp, by simp, fun e _ => rfl, fun i c hi => by cases hi⟩
  | append_singleton tops c ih =>
    rw [List.foldl_append]
    simp only [List.foldl_cons, List.foldl_nil]
    generalize tops.foldl (fun h c => (h.addEdge [c.node] (some (goalRule o)) NameMap.empty
      (spanAttributes 0 size)).connect h.edges.size graph.nodes.size) graph.addNode = h at ih
    change Topped o size graph (tops ++ [c]) (h.extend graph.nodes.size [c.node]
      (some (goalRule o)) NameMap.empty (spanAttributes 0 size))
    have hgoal : graph.nodes.size < h.nodes.size := ih.nodes ▸ Nat.lt_succ_self _
    refine ⟨ih.linked.extend hgoal _ _ _ _, ?_, ?_, fun e he => ?_, fun i d hi => ?_⟩
    · rw [Hypergraph.size_nodes_extend, ih.nodes]
    · rw [Hypergraph.size_edges_extend, ih.edges, List.length_append, List.length_singleton,
        Nat.add_assoc]
    · rw [Hypergraph.edge_extend, ih.edges, if_neg (by omega)]
      exact ih.old e he
    · rw [Hypergraph.edge_extend, ih.edges]
      by_cases heq : i = tops.length
      · subst heq
        rw [List.getElem?_concat_length] at hi
        cases hi
        rw [if_pos rfl]
        rfl
      · have hlt := (List.getElem?_eq_some_iff.mp hi).1
        rw [List.length_append, List.length_singleton] at hlt
        rw [List.getElem?_append_left (by omega)] at hi
        rw [if_neg (by omega)]
        exact ih.new i d hi

omit [Scalar V] in
theorem withGoal_eq (st : ForestState V) (size : Nat) (h : st.tops o size ≠ []) :
    st.withGoal o size = ((st.tops o size).foldl
      (fun h c => (h.addEdge [c.node] (some (goalRule o)) NameMap.empty
        (spanAttributes 0 size)).connect h.edges.size st.graph.nodes.size)
          st.graph.addNode).withGoal (some st.graph.nodes.size) := by
  unfold withGoal
  cases htops : st.tops o size with
  | nil => exact absurd htops h
  | cons c tops => rfl

omit [Scalar V] in
theorem withGoal_of_nil (st : ForestState V) (size : Nat) (h : st.tops o size = []) :
    st.withGoal o size = st.graph.withGoal none := by
  unfold withGoal
  rw [h]

variable (g o lattice pruner) in
theorem exists_ledger : ∃ ledger, Ran g o lattice pruner (Chart.spansByLength lattice.size)
    (run g o lattice pruner) ledger :=
  exists_ran (List.append_nil (Chart.spansByLength lattice.size)).symm

namespace Ran

variable {done : List (Nat × Nat)} {st : ForestState V}

theorem topped (h : Ran g o lattice pruner done st ledger) (size : Nat) :
    Topped o size st.graph (st.tops o size) ((st.tops o size).foldl
      (fun h c => (h.addEdge [c.node] (some (goalRule o)) NameMap.empty
        (spanAttributes 0 size)).connect h.edges.size st.graph.nodes.size) st.graph.addNode) :=
  topped_foldl (h.recorded.linked.addNode h.recorded.head_lt) o size _

end Ran

namespace Topped

variable {size : Nat} {graph topped : Hypergraph V} {tops : List Constituent}
  {cells : Nat → Nat → List Constituent}

omit [Scalar V] in
theorem cases_edge (h : Topped o size graph tops topped) {e : Nat} (he : e < topped.edges.size) :
    (e < graph.edges.size ∧ topped.edge e = graph.edge e) ∨
      ∃ (i : Nat) (c : Constituent), tops[i]? = some c ∧ e = graph.edges.size + i ∧
        topped.edge e = goalEdge o size e graph.nodes.size c := by
  by_cases hlt : e < graph.edges.size
  · exact Or.inl ⟨hlt, h.old e hlt⟩
  · rw [h.edges] at he
    obtain ⟨i, rfl⟩ := Nat.exists_eq_add_of_le (Nat.not_lt.mp hlt)
    have hi : i < tops.length := by omega
    exact Or.inr ⟨i, tops[i], List.getElem?_eq_getElem hi, rfl,
      h.new i _ (List.getElem?_eq_getElem hi)⟩

theorem mem_edges_old (h : Topped o size graph tops topped)
    (hrec : Recorded g o lattice cells graph ledger) {n : Nat} (hn : n < graph.nodes.size)
    {e : Nat} : e ∈ (topped.node n).edges ↔ e ∈ (graph.node n).edges := by
  rw [h.linked.listed, hrec.linked.listed, h.nodes]
  constructor
  · rintro ⟨he, -, hhead⟩
    rcases h.cases_edge he with ⟨hlt, hedge⟩ | ⟨i, c, -, -, hedge⟩
    · rw [hedge] at hhead
      exact ⟨hlt, hn, hhead⟩
    · rw [hedge] at hhead
      exact absurd (Option.some.inj hhead) (Nat.ne_of_gt hn)
  · rintro ⟨he, -, hhead⟩
    refine ⟨by rw [h.edges]; omega, by omega, ?_⟩
    rw [h.old e he]
    exact hhead

theorem mem_edges_goal (h : Topped o size graph tops topped)
    (hrec : Recorded g o lattice cells graph ledger) {e : Nat} :
    e ∈ (topped.node graph.nodes.size).edges ↔
      ∃ (i : Nat) (c : Constituent), tops[i]? = some c ∧ e = graph.edges.size + i := by
  rw [h.linked.listed, h.nodes]
  constructor
  · rintro ⟨he, -, hhead⟩
    rcases h.cases_edge he with ⟨hlt, hedge⟩ | ⟨i, c, hi, rfl, -⟩
    · rw [hedge] at hhead
      exact absurd (hrec.head_lt e hlt _ hhead) (Nat.lt_irrefl _)
    · exact ⟨i, c, hi, rfl⟩
  · rintro ⟨i, c, hi, rfl⟩
    have hlt := (List.getElem?_eq_some_iff.mp hi).1
    refine ⟨by rw [h.edges]; omega, Nat.lt_succ_self _, ?_⟩
    rw [h.new i c hi]
    rfl

theorem tailsInside (h : Topped o size graph tops topped)
    (hrec : Recorded g o lattice cells graph ledger) (htops : ∀ c ∈ tops, ∃ i j, c ∈ cells i j) :
    topped.TailsInside := by
  intro e he t ht
  rw [h.nodes]
  rcases h.cases_edge he with ⟨hlt, hedge⟩ | ⟨i, c, hi, -, hedge⟩
  · rw [hedge] at ht
    exact Nat.lt_succ_of_lt (hrec.edge_tail_lt hlt ht)
  · rw [hedge] at ht
    obtain ⟨a, b, hc⟩ := htops c (List.mem_of_getElem? hi)
    rw [List.mem_singleton.mp ht]
    exact Nat.lt_succ_of_lt (hrec.bound a b c hc)

theorem descending (h : Topped o size graph tops topped)
    (hrec : Recorded g o lattice cells graph ledger) (htops : ∀ c ∈ tops, ∃ i j, c ∈ cells i j)
    (hderived : ∀ i j, ∀ c ∈ cells i j, ∃ a ∈ ledger, a.place = ⟨i, j, c.label⟩ ∧
      a.step.parts.level = c.level) (hne : tops ≠ []) : topped.Descending := by
  constructor
  · intro n e he t ht
    obtain ⟨hlt, hn, -⟩ := (h.linked.listed n e).mp he
    rw [h.nodes] at hn
    rcases Nat.lt_succ_iff_lt_or_eq.mp hn with hn | rfl
    · have he' := (h.mem_edges_old hrec hn).mp he
      rw [h.old e ((hrec.linked.listed n e).mp he').1] at ht
      exact hrec.tail_lt he' ht
    · obtain ⟨i, c, hi, rfl⟩ := (h.mem_edges_goal hrec).mp he
      rw [h.new i c hi] at ht
      rw [List.mem_singleton.mp ht]
      obtain ⟨a, b, hc⟩ := htops c (List.mem_of_getElem? hi)
      exact hrec.bound a b c hc
  · intro n hn
    rw [h.nodes] at hn
    rcases Nat.lt_succ_iff_lt_or_eq.mp hn with hn | rfl
    · obtain ⟨e, he⟩ := hrec.exists_edge hderived hn
      exact ⟨e, (h.mem_edges_old hrec hn).mpr he⟩
    · obtain ⟨c, rest, hcons⟩ := List.exists_cons_of_ne_nil hne
      refine ⟨graph.edges.size + 0, (h.mem_edges_goal hrec).mpr ⟨0, c, ?_, rfl⟩⟩
      rw [hcons]
      rfl

theorem derives_iff (h : Topped o size graph tops topped)
    (hrec : Recorded g o lattice cells graph ledger) (n : Nat) (hn : n < graph.nodes.size) :
    ∀ x, topped.Derives n x ↔ graph.Derives n x := by
  induction n using Nat.strongRecOn with
  | _ n ih =>
    rintro ⟨e, below⟩
    rw [Hypergraph.derives_node_iff, Hypergraph.derives_node_iff, h.mem_edges_old hrec hn]
    refine and_congr_right fun he => ?_
    rw [h.old e ((hrec.linked.listed n e).mp he).1, List.forall₂_iff_zip, List.forall₂_iff_zip]
    refine and_congr_right fun _ => forall_congr' fun t => forall_congr' fun y => ?_
    refine imp_congr_right fun hp => ?_
    have ht := hrec.tail_lt he (List.of_mem_zip hp).1
    exact ih t ht (Nat.lt_trans ht hn) y

end Topped

/-! ## The forest -/

variable (g o lattice pruner)

def goalGraph : Hypergraph V := (run g o lattice pruner).withGoal o lattice.size

def goalCells : List Constituent := (run g o lattice pruner).tops o lattice.size

variable {g o lattice pruner}

theorem perm_goalCells {done : List (Nat × Nat)}
    (hsplit : Chart.spansByLength lattice.size = done ++ [(0, lattice.size)])
    (hskip : pruner.skipsSpan 0 lattice.size = false) : (goalCells g o lattice pruner).Perm
      ((built g o lattice pruner (upTo g o lattice pruner done) 0 lattice.size).found.filter
        fun c => c.label == o.goal) := by
  change ((cells g o lattice pruner 0 lattice.size).filter _).Perm _
  rw [cells_eq_sorted hsplit hskip]
  exact (SpanBuild.perm_sorted _).filter _

theorem mem_goalCells {c : Constituent} :
    c ∈ goalCells g o lattice pruner ↔
      c ∈ cells g o lattice pruner 0 lattice.size ∧ c.label = o.goal := by
  rw [goalCells, tops, List.mem_filter, beq_iff_eq]
  rfl

theorem cells_of_empty (h : lattice.isEmpty = true) (i j : Nat) :
    cells g o lattice pruner i j = [] := by
  have hsize := lattice.size_of_isEmpty h
  refine get_upTo_blank fun hmem => ?_
  have hs := Chart.mem_spansByLength.mp hmem
  simp only at hs
  omega

variable (g o lattice pruner) in
structure Finished (ledger : List Entry) : Prop where
  ran : Ran g o lattice pruner (Chart.spansByLength lattice.size) (run g o lattice pruner) ledger
  topped : Topped o lattice.size (run g o lattice pruner).graph (goalCells g o lattice pruner)
    (goalGraph g o lattice pruner)
  root : (goalGraph g o lattice pruner).goal = some (run g o lattice pruner).graph.nodes.size
  tops : goalCells g o lattice pruner ≠ []

theorem Ran.finished
    (h : Ran g o lattice pruner (Chart.spansByLength lattice.size) (run g o lattice pruner) ledger)
    (hne : goalCells g o lattice pruner ≠ []) : Finished g o lattice pruner ledger := by
  have htop := h.topped lattice.size
  refine ⟨h, ?_, ?_, hne⟩
  · rw [goalGraph, withGoal_eq _ _ hne]
    exact ⟨htop.linked.withGoal _, htop.nodes, htop.edges, htop.old, htop.new⟩
  · rw [goalGraph, withGoal_eq _ _ hne]
    rfl

theorem exists_finished (hne : goalCells g o lattice pruner ≠ []) :
    ∃ ledger, Finished g o lattice pruner ledger := by
  obtain ⟨ledger, hran⟩ := exists_ledger g o lattice pruner
  exact ⟨ledger, hran.finished hne⟩

namespace Finished

theorem mem_cells {c : Constituent} (hc : c ∈ goalCells g o lattice pruner) :
    ∃ i j, c ∈ cells g o lattice pruner i j := ⟨0, lattice.size, (mem_goalCells.mp hc).1⟩

theorem recorded (h : Finished g o lattice pruner ledger) :
    Recorded g o lattice (cells g o lattice pruner) (run g o lattice pruner).graph ledger :=
  h.ran.recorded

theorem tailsInside (h : Finished g o lattice pruner ledger) :
    (goalGraph g o lattice pruner).TailsInside :=
  h.topped.tailsInside h.recorded fun _ => mem_cells

theorem descending (h : Finished g o lattice pruner ledger) :
    (goalGraph g o lattice pruner).Descending :=
  h.topped.descending h.recorded (fun _ => mem_cells) h.ran.derived h.tops

theorem root_lt (h : Finished g o lattice pruner ledger) (goal : Nat)
    (hgoal : (goalGraph g o lattice pruner).goal = some goal) :
    goal < (goalGraph g o lattice pruner).nodes.size := by
  rw [h.root] at hgoal
  cases hgoal
  rw [h.topped.nodes]
  exact Nat.lt_succ_self _

theorem mem_goalTrees (h : Finished g o lattice pruner ledger) {x : Tree} :
    x ∈ (goalGraph g o lattice pruner).goalTrees ↔
      ∃ (i : Nat) (c : Constituent) (y : Tree), (goalCells g o lattice pruner)[i]? = some c ∧
        x = .node ((run g o lattice pruner).graph.edges.size + i) [y] ∧
          (run g o lattice pruner).graph.Derives c.node y := by
  rw [Hypergraph.mem_goalTrees h.root]
  have hedge : ∀ {i : Nat} {c : Constituent}, (goalCells g o lattice pruner)[i]? = some c →
      ((goalGraph g o lattice pruner).edge ((run g o lattice pruner).graph.edges.size + i)).tails =
        [c.node] := by
    intro i c hi
    rw [h.topped.new i c hi]
    rfl
  have hbelow : ∀ {i : Nat} {c : Constituent}, (goalCells g o lattice pruner)[i]? = some c →
      ∀ y, (goalGraph g o lattice pruner).Derives c.node y ↔
        (run g o lattice pruner).graph.Derives c.node y := by
    intro i c hi y
    obtain ⟨a, b, hc⟩ := mem_cells (List.mem_of_getElem? hi)
    exact h.topped.derives_iff h.recorded c.node (h.recorded.bound a b c hc) y
  constructor
  · intro hx
    obtain ⟨e, below⟩ := x
    obtain ⟨he, hbelow'⟩ := Hypergraph.derives_node_iff.mp hx
    obtain ⟨i, c, hi, rfl⟩ := (h.topped.mem_edges_goal h.recorded).mp he
    rw [hedge hi, List.forall₂_cons_left_iff] at hbelow'
    obtain ⟨y, rest, hy, hrest, rfl⟩ := hbelow'
    rw [List.forall₂_nil_left_iff.mp hrest]
    exact ⟨i, c, y, hi, rfl, (hbelow hi y).mp hy⟩
  · rintro ⟨i, c, y, hi, rfl, hy⟩
    refine Hypergraph.derives_node_iff.mpr
      ⟨(h.topped.mem_edges_goal h.recorded).mpr ⟨i, c, hi, rfl⟩, ?_⟩
    rw [hedge hi]
    exact List.Forall₂.cons ((hbelow hi y).mpr hy) List.Forall₂.nil

end Finished

theorem goalGraph_of_nil (hnil : goalCells g o lattice pruner = []) :
    (goalGraph g o lattice pruner).goal = none := by
  rw [goalGraph, withGoal_of_nil _ _ hnil]
  rfl

end ForestState

open ForestState

variable {g : Grammar V} {o : Options V} {lattice : Lattice V} {pruner : Pruner}

theorem forest_eq (h : lattice.isEmpty = false) :
    forest g o lattice pruner = (goalGraph g o lattice pruner).sorted := by
  simp only [forest, ForestParser.parse, h, Bool.false_eq_true, if_false]
  rfl

theorem forest_of_empty (h : lattice.isEmpty = true) :
    forest g o lattice pruner = Hypergraph.empty := by
  simp only [forest, ForestParser.parse, h, if_true]

theorem forest_of_nil (hnil : goalCells g o lattice pruner = []) :
    forest g o lattice pruner = Hypergraph.empty := by
  cases hempty : lattice.isEmpty with
  | true => exact forest_of_empty hempty
  | false => rw [forest_eq hempty, Hypergraph.sorted_eq_empty_of_none (goalGraph_of_nil hnil)]

theorem forest_of_mem_goalCells {c : Constituent} (hc : c ∈ goalCells g o lattice pruner) :
    forest g o lattice pruner = (goalGraph g o lattice pruner).sorted := by
  refine forest_eq (Bool.eq_false_iff.mpr fun hempty => ?_)
  rw [mem_goalCells, cells_of_empty hempty] at hc
  exact List.not_mem_nil hc.1

theorem isValid_forest_iff_ne_nil :
    (forest g o lattice pruner).isValid = true ↔ goalCells g o lattice pruner ≠ [] := by
  by_cases hne : goalCells g o lattice pruner = []
  · rw [forest_of_nil hne]
    exact iff_of_false (by simp [Hypergraph.isValid, Hypergraph.empty]) fun h => h hne
  · obtain ⟨c, hc⟩ := List.exists_mem_of_ne_nil _ hne
    obtain ⟨ledger, hgoal⟩ := exists_finished hne
    rw [forest_of_mem_goalCells hc, hgoal.descending.isValid_sorted hgoal.topped.linked.owned
      hgoal.tailsInside hgoal.root_lt, Hypergraph.isValid, hgoal.root]
    exact iff_of_true rfl hne

theorem isValid_forest_of_built {done : List (Nat × Nat)}
    (hsplit : Chart.spansByLength lattice.size = done ++ [(0, lattice.size)])
    (hskip : pruner.skipsSpan 0 lattice.size = false)
    (hgoal : ((built g o lattice pruner (upTo g o lattice pruner done) 0 lattice.size).found.any
      fun c => c.label == o.goal) = true) : (forest g o lattice pruner).isValid = true := by
  obtain ⟨c, hc, hlabel⟩ := List.any_eq_true.mp hgoal
  have hmem := (perm_goalCells hsplit hskip).mem_iff.mpr (List.mem_filter.mpr ⟨hc, hlabel⟩)
  exact isValid_forest_iff_ne_nil.mpr (List.ne_nil_of_mem hmem)

theorem isValid_forest_iff :
    (forest g o lattice pruner).isValid = true ↔
      ∃ c ∈ cells g o lattice pruner 0 lattice.size, c.label = o.goal := by
  rw [isValid_forest_iff_ne_nil]
  constructor
  · intro hne
    obtain ⟨c, hc⟩ := List.exists_mem_of_ne_nil _ hne
    exact ⟨c, mem_goalCells.mp hc⟩
  · rintro ⟨c, hc⟩
    exact List.ne_nil_of_mem (mem_goalCells.mpr hc)

theorem forest_bijOn (hne : goalCells g o lattice pruner ≠ []) :
    ∃ back, Set.BijOn (Tree.relabel back) (forest g o lattice pruner).goalTrees
      (goalGraph g o lattice pruner).goalTrees ∧
        Hypergraph.SameEdges (goalGraph g o lattice pruner) (forest g o lattice pruner) back := by
  obtain ⟨c, hc⟩ := List.exists_mem_of_ne_nil _ hne
  obtain ⟨ledger, hgoal⟩ := exists_finished hne
  rw [forest_of_mem_goalCells hc]
  exact hgoal.descending.tails.sorted_bijOn hgoal.topped.linked.owned hgoal.tailsInside
    hgoal.root_lt

end ParseForest
