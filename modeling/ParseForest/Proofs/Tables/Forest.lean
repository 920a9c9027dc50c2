import ParseForest.Proofs.Forest.Graph
import ParseForest.Proofs.Tables.Nodes

/-!
# The forest parser with its tables

A forest parser keeps the items of each rule table and the tables of nodes from one parse to the
next. A parse makes the charts anew and clears the other tables, and then does all it does with
checked accesses to them. Whatever the tables held before, no access fails under a pruner that
knows the lattice, and the graph is that of `ForestParser.parse`.
-/

namespace ParseForest

variable {V : Type}

structure ForestTables (V : Type) where
  actives : ItemCharts (Match V)
  nodes : NodeTables

namespace NodeTables

variable [Scalar V]

def carrier (n : NodeTables) : TableCarrier V NodeId (Match V) where
  label? id := n.labels[id]?
  start := ⟨[], NameMap.empty⟩
  overEntry m id := { m with tails := m.tails ++ [id] }
  overArc m a := { m with features := FeatureVector.plus m.features a.features }

def parser (site : Site V) : TableParser V NodeId (Match V) (Growth V) where
  carrier s := s.1.carrier
  entries? s first last := s.1.passives.get? first last
  build? s pairs used := pairs.foldlM (fun s pair => (applyPair? site 0 s pair used).map (·.1)) s

omit [Scalar V] in
def attach? (o : Options V) (size : Nat) (s : Growth V × Option NodeId) (tail : NodeId) :
    Option (Growth V × Option NodeId) := do
  let ((n, graph), goal) := s
  let e := graph.edges.size
  let graph := graph.addEdge [tail] (some (ForestState.goalRule o)) NameMap.empty
    (spanAttributes 0 size)
  match goal with
  | some goal =>
    let graph ← graph.connect? e goal
    return ((n, graph), some goal)
  | none =>
    let goal := graph.nodes.size
    let n := { n with labels := n.labels.push Symbol.goal, levels := n.levels.push 0 }
    let graph ← graph.addNode.connect? e goal
    return ((n, graph), some goal)

omit [Scalar V] in
def attachGoal? (o : Options V) (size : Nat) (s : Growth V) : Option (Growth V) := do
  let ids ← s.1.passives.get? 0 size
  let tops ← gather (fun id => do
    let label ← s.1.labels[id]?
    return if label == o.goal then [id] else []) ids
  let ((n, graph), goal) ← tops.foldlM (attach? o size) (s, none)
  return (n, graph.withGoal goal)

end NodeTables

namespace ForestTables

def blank : ForestTables V := ⟨#[], ⟨Chart.new 0, #[], #[], []⟩⟩

def reset (g : Grammar V) (size : Nat) (m : ForestTables V) : ForestTables V :=
  { m with
    actives := Array.replicate g.length (Chart.new size)
    nodes := { m.nodes with passives := Chart.new size, labels := #[], levels := #[], byKey := [] } }

variable [Scalar V] (g : Grammar V) (o : Options V) (lattice : Lattice V) (pruner : Pruner)

def finishSpan? (first last distance : Nat) (actives : ItemCharts (Match V)) (s : Growth V) :
    Option (ForestTables V × Hypergraph V) := do
  let site : Site V := ⟨o, pruner, first, last⟩
  let s ← NodeTables.close? site g distance s
  let nodes ← NodeTables.sort? site s.1
  let (actives, s) ← (NodeTables.parser site).beginTables? g first last distance actives (nodes, s.2)
  return (⟨actives, s.1⟩, s.2)

def fillSpan? (m : ForestTables V × Hypergraph V) (span : Nat × Nat) :
    Option (ForestTables V × Hypergraph V) := do
  let (first, last) := span
  let skipped ← pruner.skipsSpan? first last
  let distance ← lattice.distance? first last
  let parser := NodeTables.parser ⟨o, pruner, first, last⟩
  let (actives, s) ← forTables? g (parser.fillTable? o lattice first last distance skipped)
    (m.1.actives, { m.1.nodes with byKey := [] }, m.2)
  if skipped then return (⟨actives, s.1⟩, s.2)
  else finishSpan? g o pruner first last distance actives s

def run? (m : ForestTables V) : Option (ForestTables V × Hypergraph V) := do
  let m := m.reset g lattice.size
  let actives ← startTables? g m.nodes.carrier lattice.size m.actives
  let spans ← Chart.spansByLength? lattice.size
  let (m, graph) ← spans.foldlM (fillSpan? g o lattice pruner)
    ({ m with actives }, Hypergraph.empty)
  let (nodes, graph) ← NodeTables.attachGoal? o lattice.size (m.nodes, graph)
  let graph ← graph.sortedAt?
  return ({ m with nodes }, graph)

def parse? (m : ForestTables V) : Option (ForestTables V × Hypergraph V) :=
  if lattice.isEmpty then some (m, Hypergraph.empty) else run? g o lattice pruner m

end ForestTables

/-! ## No access fails -/

namespace NodeTables

variable [Scalar V] {base n : NodeTables} {site : Site V} {s : Growth V} {b : SpanBuild V}

theorem standsFor (h : ∀ c, base.Knows c → n.Knows c) :
    (n.carrier : TableCarrier V NodeId (Match V)).StandsFor Match.carrier base.Names Eq where
  label id c hid := by rw [hid.1]; exact (h c hid.2).1
  start := rfl
  overEntry l' l id c hl hid := by rw [hl, hid.1]; rfl
  overArc l' l a hl := by rw [hl]; rfl

omit [Scalar V] in
theorem builds_start {graph : Hypergraph V} (hlabels : base.labels.size = graph.nodes.size)
    (hlevels : base.levels.size = graph.nodes.size)
    (hblank : base.passives.get site.first site.last = []) :
    Builds base site ({ base with byKey := [] }, graph) ⟨graph, []⟩ :=
  ⟨rfl, hlabels, hlevels, rfl, rfl, hblank, fun _ _ _ => rfl,
    fun _ hc => absurd hc List.not_mem_nil, fun _ hc => hc⟩

theorem Builds.build (h : Builds base site s b)
    (hspan : base.passives.IsSpan site.first site.last)
    (hknows : site.pruner.knows site.last = true) (pairs : List (RulePair V)) (used : Match V) :
    Yields ((parser site).build? s pairs used) (Builds base site ·
      (pairs.foldl (fun b pair => b.apply site 0 pair used) b)) :=
  yields_foldlM_same (fun _ _ pair _ h => ((h.apply hspan hknows 0 pair used).mono
    fun _ hr => hr.1).map) h

end NodeTables

namespace ForestTables

variable [Scalar V] {g : Grammar V} {o : Options V} {lattice : Lattice V} {pruner : Pruner}

structure Follows (g : Grammar V) (lattice : Lattice V) (m : ForestTables V × Hypergraph V)
    (st : ForestState V) : Prop where
  graph : m.2 = st.graph
  items : ItemCharts.Like g Eq m.1.actives st.tracks
  sizes : ∀ tr ∈ st.tracks, tr.items.size = lattice.size
  labels : m.1.nodes.labels.size = st.graph.nodes.size
  levels : m.1.nodes.levels.size = st.graph.nodes.size
  passives : Chart.Cellwise (List.Forall₂ m.1.nodes.Names) m.1.nodes.passives st.found
  found : st.found.size = lattice.size

theorem follows_start {m : ForestTables V} {actives : ItemCharts (Match V)}
    (hactives : ItemCharts.Like g Eq actives (g.map (Track.start Match.carrier lattice.size))) :
    Follows g lattice ({ m.reset g lattice.size with actives }, Hypergraph.empty)
      (ForestState.start g lattice.size) := by
  refine ⟨rfl, hactives, fun tr htr => ?_, rfl, rfl, Chart.Cellwise.new .nil _, rfl⟩
  obtain ⟨t, -, rfl⟩ := List.mem_map.mp htr
  exact size_start Match.carrier lattice.size t

section Step

variable {m : ForestTables V × Hypergraph V} {st : ForestState V} {first last : Nat}
  (h : Follows g lattice m st) (hspan : first < last ∧ last ≤ lattice.size)

include h

omit [Scalar V] in
include hspan in
theorem Follows.isSpan : m.1.nodes.passives.IsSpan first last := by
  refine h.passives.isSpan_iff.mpr ⟨by omega, ?_⟩
  rw [h.found]
  exact hspan.2

theorem Follows.sizes_advanced :
    ∀ tr ∈ ForestState.advanced o lattice st first last, tr.items.size = lattice.size := by
  intro tr htr
  obtain ⟨tr', htr', rfl⟩ := List.mem_map.mp htr
  rw [TableParser.size_advance, h.sizes tr' htr']

theorem Follows.entries {site : Site V} {s : Growth V} {b : SpanBuild V}
    (hs : NodeTables.Builds m.1.nodes site s b) {first' last' : Nat}
    (hspan' : m.1.nodes.passives.IsSpan first' last')
    (hother : ¬(first' = site.first ∧ last' = site.last)) :
    Yields ((NodeTables.parser site).entries? s first' last')
      (List.Forall₂ m.1.nodes.Names · (st.found.get first' last')) := by
  refine .of_eq_some (Chart.get?_eq_some_get ⟨hspan'.1, hs.size ▸ hspan'.2⟩) ?_
  rw [hs.other _ _ hother]
  exact h.passives.cell _ _

variable (hclosed : ∀ t ∈ g, t.Closed) (hblank : st.found.get first last = [])
  (hknows : pruner.knows last = true)

include hspan hclosed hknows

include hblank in

theorem Follows.fillTables (skipped : Bool) :
    Yields (forTables? g ((NodeTables.parser ⟨o, pruner, first, last⟩).fillTable? o lattice first
      last (lattice.distanceTable.length first last) skipped)
        (m.1.actives, { m.1.nodes with byKey := [] }, m.2)) fun r =>
      ItemCharts.Like g Eq r.1 (ForestState.advanced o lattice st first last) ∧
        NodeTables.Builds m.1.nodes ⟨o, pruner, first, last⟩ r.2
          (if skipped then ⟨st.graph, []⟩ else (SpanBuild.mk st.graph []).applyAll
            ⟨o, pruner, first, last⟩ ((ForestState.advanced o lattice st first last).flatMap
              (Track.completed first last))) := by
  have hcell := h.passives.cell first last
  rw [hblank, List.forall₂_nil_right_iff] at hcell
  have hwhole := h.isSpan hspan
  have hstart : NodeTables.Builds m.1.nodes ⟨o, pruner, first, last⟩
      ({ m.1.nodes with byKey := [] }, m.2) ⟨st.graph, []⟩ := by
    rw [h.graph]
    exact NodeTables.builds_start h.labels h.levels hcell
  refine TableParser.yields_fillTables (C := Eq) (N := m.1.nodes.Names) hclosed
    (fun s b hs => NodeTables.standsFor hs.grows) ?_ ?_ hspan h.sizes h.items skipped hstart
  · intro s b hs middle hfirst hlast
    exact h.entries hs ⟨by omega, hwhole.2⟩ (by simp only; omega)
  · rintro s b used _ pairs hs rfl
    exact hs.build hwhole hknows pairs used

theorem Follows.finishSpan {actives : ItemCharts (Match V)} {s : Growth V}
    (hactives : ItemCharts.Like g Eq actives (ForestState.advanced o lattice st first last))
    (hs : NodeTables.Builds m.1.nodes ⟨o, pruner, first, last⟩ s
      ((SpanBuild.mk st.graph []).applyAll ⟨o, pruner, first, last⟩
        ((ForestState.advanced o lattice st first last).flatMap (Track.completed first last))))
    (hskip : pruner.skipsSpan first last = false) :
    Yields (finishSpan? g o pruner first last (lattice.distanceTable.length first last) actives s)
      (Follows g lattice · (ForestState.fill g o lattice pruner st (first, last))) := by
  have hwhole := h.isSpan hspan
  rw [ForestState.fill_of_not_skipped hskip]
  refine (hs.close hwhole hknows hclosed _).bind fun s' hs' => ?_
  change NodeTables.Builds _ _ _ (ForestState.built g o lattice pruner st first last) at hs'
  generalize ForestState.built g o lattice pruner st first last = build at hs' ⊢
  refine (hs'.sort hwhole).bind fun n ⟨hlabels, hlevels, hsize, hcell, hother⟩ => ?_
  have hknown {c : Constituent} (hc : s'.1.Knows c) : n.Knows c := by
    rwa [NodeTables.Knows, hlabels, hlevels]
  have hnames : List.Forall₂ n.Names (n.passives.get first last) build.sorted := by
    rw [hcell]
    exact NodeTables.names_map fun c hc => hknown (hs'.known c (build.perm_sorted.mem_iff.mp hc))
  have hentries : Yields ((NodeTables.parser ⟨o, pruner, first, last⟩).entries? (n, s'.2) first last)
      (List.Forall₂ n.Names · build.sorted) :=
    .of_eq_some (Chart.get?_eq_some_get ⟨hwhole.1, hsize ▸ hwhole.2⟩) hnames
  refine (TableParser.yields_beginTables (C := Eq) hclosed (NodeTables.standsFor fun _ h => h)
    hentries hspan h.sizes_advanced hactives).bind fun (actives', s'') ⟨hitems, hrest⟩ => ?_
  simp only at hitems hrest
  subst hrest
  refine yields_some ⟨hs'.graph, hitems, fun tr htr => ?_, ?_, ?_, ⟨?_, fun i j => ?_⟩, ?_⟩
  · obtain ⟨tr', htr', rfl⟩ := List.mem_map.mp htr
    rw [TableParser.size_beginWith, h.sizes_advanced tr' htr']
  · exact hlabels ▸ hs'.labels
  · exact hlevels ▸ hs'.levels
  · exact (hsize.trans h.passives.size).trans (Chart.size_modify ..).symm
  · rw [Chart.get_set _ _ _ _ _ _ (h.passives.isSpan_iff.mp hwhole)]
    by_cases hij : i = first ∧ j = last
    · rw [if_pos hij, hij.1, hij.2]
      exact hnames
    · rw [if_neg hij, hother i j hij]
      exact (h.passives.cell i j).imp fun _ c hc => ⟨hc.1, hknown (hs'.grows c hc.2)⟩
  · exact (Chart.size_modify ..).trans h.found

include hblank in
theorem Follows.fillSpan :
    Yields (fillSpan? g o lattice pruner m (first, last))
      (Follows g lattice · (ForestState.fill g o lattice pruner st (first, last))) := by
  unfold fillSpan?
  simp only [Pruner.skipsSpan?_eq_some hknows, Lattice.distance?_eq_some, Option.bind_eq_bind,
    Option.bind_some]
  refine (h.fillTables hspan hclosed hblank hknows _).bind fun (actives, s) ⟨hitems, hs⟩ => ?_
  cases hskip : pruner.skipsSpan first last with
  | false =>
    simp only [hskip, Bool.false_eq_true, if_false] at hs ⊢
    exact h.finishSpan hspan hclosed hknows hitems hs hskip
  | true =>
    simp only [hskip, if_true] at hs ⊢
    rw [ForestState.fill_of_skipped hskip]
    refine yields_some ⟨hs.graph, hitems, h.sizes_advanced, hs.labels, hs.levels,
      ⟨hs.size.trans h.passives.size, fun i j => ?_⟩, h.found⟩
    by_cases hij : i = first ∧ j = last
    · rw [hij.1, hij.2, hs.here, hblank]
      exact .nil
    · rw [hs.other i j hij]
      exact (h.passives.cell i j).imp fun _ c hc => ⟨hc.1, hs.grows c hc.2⟩

end Step

theorem yields_run (hclosed : ∀ t ∈ g, t.Closed) (hknows : pruner.knows lattice.size = true)
    {m : ForestTables V × Hypergraph V}
    (h : Follows g lattice m (ForestState.start g lattice.size)) :
    Yields ((Chart.spansByLength lattice.size).foldlM (fillSpan? g o lattice pruner) m)
      (Follows g lattice · (ForestState.run g o lattice pruner)) := by
  refine yields_foldlM_prefix
    (P := fun done m => Follows g lattice m (ForestState.upTo g o lattice pruner done)) ?_ h
  rintro done ⟨first, last⟩ rest hsplit m hm
  rw [ForestState.upTo_append]
  have hspan := Chart.isSpan_of_split hsplit
  exact hm.fillSpan hspan hclosed (ForestState.get_upTo_blank (Chart.not_mem_done hsplit))
    (Pruner.knows_of_le hknows hspan.2)

/-! ### The goal -/

omit [Scalar V] in
theorem foldlM_attach (o : Options V) (size : Nat) {goal : Nat} (tops : List Constituent)
    {n : NodeTables} {graph : Hypergraph V} (hgoal : goal < graph.nodes.size) :
    (tops.map Constituent.node).foldlM (NodeTables.attach? o size) ((n, graph), some goal) =
      some ((n, tops.foldl (fun g c => (g.addEdge [c.node] (some (ForestState.goalRule o))
        NameMap.empty (spanAttributes 0 size)).connect g.edges.size goal) graph), some goal) := by
  induction tops generalizing graph with
  | nil => rfl
  | cons c tops ih =>
    have hstep : NodeTables.attach? o size ((n, graph), some goal) c.node =
        some ((n, (graph.addEdge [c.node] (some (ForestState.goalRule o)) NameMap.empty
          (spanAttributes 0 size)).connect graph.edges.size goal), some goal) := by
      have hconnect : (graph.addEdge [c.node] (some (ForestState.goalRule o)) NameMap.empty
          (spanAttributes (V := V) 0 size)).connect? graph.edges.size goal = some _ :=
        Hypergraph.connect?_eq_some (by simp) hgoal
      rw [NodeTables.attach?, hconnect]
      rfl
    rw [List.map_cons, List.foldlM_cons, hstep, List.foldl_cons]
    exact ih (by simpa using hgoal)

omit [Scalar V] in
theorem Follows.attachGoal {m : ForestTables V × Hypergraph V} {st : ForestState V}
    (h : Follows g lattice m st) :
    Yields (NodeTables.attachGoal? o lattice.size (m.1.nodes, m.2))
      (·.2 = st.withGoal o lattice.size) := by
  have hspan : m.1.nodes.passives.IsSpan 0 lattice.size := by
    refine h.passives.isSpan_iff.mpr ⟨Nat.zero_le _, ?_⟩
    rw [h.found]
  have htops : Yields (gather (fun id => do
      let label ← m.1.nodes.labels[id]?
      return if label == o.goal then [id] else []) (m.1.nodes.passives.get 0 lattice.size))
      (List.Forall₂ Eq · ((st.tops o lattice.size).map Constituent.node)) := by
    rw [ForestState.tops, ← List.filterMap_eq_filter, List.filterMap_eq_flatMap_toList,
      List.map_flatMap]
    refine yields_gather (fun id c hid => ?_) (h.passives.cell 0 lattice.size)
    rw [hid.1, hid.2.1]
    cases hlabel : c.label == o.goal with
    | false => exact yields_some (by simp [hlabel])
    | true => exact yields_some (by simp [hlabel])
  unfold NodeTables.attachGoal?
  rw [Chart.get?_eq_some_get hspan]
  refine htops.bind fun tops htops => ?_
  rw [List.forall₂_eq_eq_eq] at htops
  subst htops
  cases hcons : st.tops o lattice.size with
  | nil =>
    rw [st.withGoal_of_nil _ hcons, ← h.graph]
    exact yields_some rfl
  | cons c tops =>
    rw [st.withGoal_eq _ (by rw [hcons]; exact List.cons_ne_nil c tops), hcons, ← h.graph]
    have hconnect : (m.2.addEdge [c.node] (some (ForestState.goalRule o)) NameMap.empty
        (spanAttributes (V := V) 0 lattice.size)).addNode.connect? m.2.edges.size m.2.nodes.size =
          some _ := Hypergraph.connect?_eq_some (by simp) (by simp)
    rw [List.map_cons, List.foldlM_cons, NodeTables.attach?]
    simp only [Hypergraph.nodes_addEdge, hconnect, Option.bind_eq_bind, Option.bind_some,
      Option.pure_def]
    rw [foldlM_attach o lattice.size tops (by simp)]
    exact yields_some rfl

/-! ### A parse -/

variable (o) in
theorem sortedAt?_goalGraph : (ForestState.goalGraph g o lattice pruner).sortedAt? =
    some (ForestState.goalGraph g o lattice pruner).sorted := by
  by_cases htops : ForestState.goalCells g o lattice pruner = []
  · exact Hypergraph.sortedAt?_of_none (ForestState.goalGraph_of_nil htops)
  · obtain ⟨ledger, hfinished⟩ := ForestState.exists_finished htops
    exact Hypergraph.sortedAt?_eq hfinished.topped.linked.owned hfinished.tailsInside
      hfinished.root_lt

theorem yields_parse (hclosed : ∀ t ∈ g, t.Closed)
    (hknows : lattice.isEmpty = true ∨ pruner.knows lattice.size = true) (m : ForestTables V) :
    Yields (parse? g o lattice pruner m) (·.2 = forest g o lattice pruner) := by
  unfold parse?
  cases hempty : lattice.isEmpty with
  | true =>
    rw [forest_of_empty hempty]
    exact yields_some rfl
  | false =>
    rw [forest_eq hempty]
    replace hknows := hknows.resolve_left (by simp [hempty])
    rw [if_neg Bool.false_ne_true, run?]
    have hcarrier := NodeTables.standsFor (V := V) (n := (m.reset g lattice.size).nodes)
      fun _ h => h
    refine (yields_startTables hcarrier hclosed lattice.size).bind fun actives hactives => ?_
    rw [Chart.spansByLength?_eq]
    refine (yields_run hclosed hknows (follows_start hactives)).bind fun (m'', graph) hm'' => ?_
    refine hm''.attachGoal.bind fun (nodes, graph') hgraph => ?_
    obtain rfl : graph' = ForestState.goalGraph g o lattice pruner := hgraph
    simp only [sortedAt?_goalGraph o, Option.bind_eq_bind, Option.bind_some]
    exact yields_some rfl

theorem run?_eq (m m' : ForestTables V) : run? g o lattice pruner m = run? g o lattice pruner m' :=
  rfl

end ForestTables

end ParseForest
