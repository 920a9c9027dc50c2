import ParseForest.Proofs.Forest.Graph
import ParseForest.Proofs.Forest.WithoutUnary
import ParseForest.Proofs.Hypergraph.RulesApart

/-!
# Forests that yield either side

The option for the side of rule pairs decides which rules stand on edges. The label that is built
is read off that side too, but both sides of a pair that is read from text derive the same label. So
two parses that differ in this option go step by step through states that differ in the rules of
edges only: the same nodes are made, found and sorted.
-/

namespace ParseForest

variable {V : Type}

/-- What two parses put on edges with one head, when the first yields source sides and the second
target sides: the two sides of a rule pair, and the same rule below the goal. -/
structure Sides (pairs : List (RulePair V)) (goal head : Option NodeId) (rule rule' : Option Rule) :
    Prop where
  top : head = goal → rule' = rule
  below : head ≠ goal → ∃ pair ∈ pairs, rule = some pair.source ∧ rule' = some pair.target

def Grammar.OneLabel (g : Grammar V) : Prop := ∀ pair ∈ g.pairs, pair.target.lhs = pair.source.lhs

theorem Grammar.IsLimitedText.oneLabel [NumberText V] {g : Grammar V} (hg : g.IsLimitedText) :
    g.OneLabel := by
  intro pair hpair
  obtain ⟨t, ht, hpair⟩ := List.mem_flatMap.mp hpair
  obtain ⟨s, hs⟩ := RuleTable.exists_mem_rulesAt hpair
  obtain ⟨text, u, kind, limit, hread, rfl⟩ := hg t ht
  exact ((RuleTable.legible_read hread).aligned s pair hs).1

theorem Grammar.OneLabel.lhs_side {g : Grammar V} (hg : g.OneLabel) {pair : RulePair V}
    (hpair : pair ∈ g.pairs) (yieldSource : Bool) :
    (pair.side yieldSource).lhs = pair.source.lhs := by
  cases yieldSource with
  | true => rfl
  | false => exact hg pair hpair

def Options.yielding (o : Options V) (yieldSource : Bool) : Options V := { o with yieldSource }

@[simp]
theorem Options.goal_yielding (o : Options V) (yieldSource : Bool) :
    (o.yielding yieldSource).goal = o.goal := rfl

def Site.yielding (site : Site V) (yieldSource : Bool) : Site V :=
  { site with options := site.options.yielding yieldSource }

theorem Track.mem_pairs_of_completed {L : Type} {g : Grammar V} {tracks : List (Track V L)}
    (htables : ∀ tr ∈ tracks, tr.table ∈ g) {first last : Nat} {m : RulePair V × L}
    (hm : m ∈ tracks.flatMap (Track.completed first last)) : m.1 ∈ g.pairs := by
  obtain ⟨tr, htr, hm⟩ := List.mem_flatMap.mp hm
  obtain ⟨item, -, hm⟩ := List.mem_flatMap.mp hm
  obtain ⟨pair, hpair, rfl⟩ := List.mem_map.mp hm
  exact List.mem_flatMap.mpr ⟨_, htables tr htr, RuleTable.mem_pairs_of_mem_rulesAt hpair⟩

variable [Scalar V] {g : Grammar V}

/-! ## A span -/

namespace SpanBuild

structure Apart (g : Grammar V) (b b' : SpanBuild V) : Prop where
  found : b'.found = b.found
  graph : b.graph.RulesApart (Sides g.pairs none) b'.graph

namespace Apart

variable {b b' : SpanBuild V} (site : Site V) (hg : g.OneLabel)

omit [Scalar V] in
theorem extend_sides {graph graph' : Hypergraph V}
    (h : graph.RulesApart (Sides g.pairs none) graph') {pair : RulePair V} (hpair : pair ∈ g.pairs)
    (head : Nat) (tails : List NodeId) (features : FeatureVector V)
    (attributes : AttributeVector V) :
    (graph.extend head tails (some pair.source) features attributes).RulesApart
      (Sides g.pairs none) (graph'.extend head tails (some pair.target) features attributes) := by
  refine h.extend ⟨fun hnone => ?_, fun _ => ⟨pair, hpair, rfl, rfl⟩⟩ tails features attributes
  cases hnone

include hg

theorem take (h : Apart g b b') {s : RuleStep V} (hs : s.pair ∈ g.pairs) :
    Apart g (s.take (site.yielding true) b) (s.take (site.yielding false) b') := by
  have hlabel : s.pair.target.lhs = s.pair.source.lhs := hg s.pair hs
  have hfind : b'.find? ((site.yielding false).ruleOf s.pair).lhs s.level =
      b.find? ((site.yielding true).ruleOf s.pair).lhs s.level := by
    change b'.find? s.pair.target.lhs s.level = b.find? s.pair.source.lhs s.level
    rw [find?, find?, h.found, hlabel]
  rw [RuleStep.take, RuleStep.take]
  cases hskip : site.skips s.pair.source.lhs with
  | true =>
    have hskip' : site.skips s.pair.target.lhs = true := hlabel ▸ hskip
    rw [apply_of_skips _ _ _ _ _ hskip, apply_of_skips _ _ _ _ _ hskip']
    exact h
  | false =>
    have hskip' : site.skips s.pair.target.lhs = false := hlabel ▸ hskip
    rw [apply_eq _ _ _ _ _ hskip, apply_eq _ _ _ _ _ hskip']
    rw [hfind]
    cases b.find? ((site.yielding true).ruleOf s.pair).lhs s.level with
    | some c => exact ⟨h.found, extend_sides h.graph hs _ _ _ _⟩
    | none =>
      constructor
      · change b'.found ++ [⟨b'.graph.nodes.size, s.pair.target.lhs, s.level⟩] = _
        rw [h.found, h.graph.nodes, hlabel]
        rfl
      · change (b.graph.addNode.extend _ _ _ _ _).RulesApart _
          (b'.graph.addNode.extend b'.graph.nodes.size _ _ _ _)
        rw [h.graph.nodes]
        exact extend_sides h.graph.addNode hs _ _ _ _

theorem foldl_take (h : Apart g b b') {steps : List (RuleStep V)}
    (hsteps : ∀ s ∈ steps, s.pair ∈ g.pairs) :
    Apart g (steps.foldl (RuleStep.take (site.yielding true)) b)
      (steps.foldl (RuleStep.take (site.yielding false)) b') :=
  List.foldl_rel h fun s hs _ _ h => h.take site hg (hsteps s hs)

theorem round (h : Apart g b b') (distance : Nat) (frontier : List Constituent) :
    Apart g (b.round (site.yielding true) g distance frontier)
      (b'.round (site.yielding false) g distance frontier) := by
  rw [← foldl_roundSteps, ← foldl_roundSteps]
  refine h.foldl_take site hg fun s hs => ?_
  obtain ⟨t, ht, c, -, pair, hpair, rfl⟩ := of_mem_roundSteps hs
  exact Grammar.mem_pairs_of_mem_unaryRules (Grammar.mem_unaryRules ht hpair)

theorem closeFrom (h : Apart g b b') (distance fuel stagnant done : Nat) :
    Apart g (b.closeFrom (site.yielding true) g distance fuel stagnant done)
      (b'.closeFrom (site.yielding false) g distance fuel stagnant done) := by
  induction fuel generalizing stagnant done b b' with
  | zero => exact h
  | succ fuel ih =>
    have hround := h.round site hg distance (b.found.drop done)
    have hgrew : grew b' (b'.round (site.yielding false) g distance (b.found.drop done)) =
        grew b (b.round (site.yielding true) g distance (b.found.drop done)) := by
      simp only [grew, hasLabel, hround.found, h.found]
    simp only [SpanBuild.closeFrom, h.found, hgrew]
    split
    · exact h
    · split
      · exact ih hround _ _
      · by_cases hlast : site.options.forestStagnation ≤ stagnant + 1
        · rw [if_pos (show (site.yielding true).options.forestStagnation ≤ _ from hlast),
            if_pos (show (site.yielding false).options.forestStagnation ≤ _ from hlast)]
          exact hround
        · rw [if_neg (show ¬(site.yielding true).options.forestStagnation ≤ _ from hlast),
            if_neg (show ¬(site.yielding false).options.forestStagnation ≤ _ from hlast)]
          exact ih hround _ _

theorem close (h : Apart g b b') (distance : Nat) :
    Apart g (b.close (site.yielding true) g distance)
      (b'.close (site.yielding false) g distance) := by
  rw [SpanBuild.close, SpanBuild.close]
  by_cases hoff : site.options.forestStagnation = 0
  · rw [if_pos (show (site.yielding true).options.forestStagnation = 0 from hoff),
      if_pos (show (site.yielding false).options.forestStagnation = 0 from hoff)]
    exact h
  · rw [if_neg (show ¬(site.yielding true).options.forestStagnation = 0 from hoff),
      if_neg (show ¬(site.yielding false).options.forestStagnation = 0 from hoff)]
    exact h.closeFrom site hg distance _ 0 0

end Apart

end SpanBuild

/-! ## The run -/

namespace ForestState

variable (o : Options V) (lattice : Lattice V) (pruner : Pruner)

structure Apart (g : Grammar V) (st st' : ForestState V) : Prop where
  tracks : st'.tracks = st.tracks
  found : st'.found = st.found
  graph : st.graph.RulesApart (Sides g.pairs none) st'.graph
  tables : ∀ tr ∈ st.tracks, tr.table ∈ g

namespace Apart

variable {st st' : ForestState V} (hg : g.OneLabel)

theorem advanced_eq (h : Apart g st st') (first last : Nat) :
    advanced o lattice st' first last = advanced o lattice st first last := by
  rw [advanced, advanced, h.tracks, h.found]

include hg

theorem built (h : Apart g st st') (first last : Nat) :
    SpanBuild.Apart g (built g (o.yielding true) lattice pruner st first last)
      (built g (o.yielding false) lattice pruner st' first last) := by
  let site : Site V := ⟨o, pruner, first, last⟩
  have htables : ∀ tr ∈ advanced o lattice st first last, tr.table ∈ g :=
    Track.table_mem_map (fun tr => tr.table_advance _ _ _) h.tables
  have hstart : SpanBuild.Apart g ⟨st.graph, []⟩ ⟨st'.graph, []⟩ := ⟨rfl, h.graph⟩
  have happlied : SpanBuild.Apart g
      ((SpanBuild.mk st.graph []).applyAll (site.yielding true)
        ((advanced o lattice st first last).flatMap (Track.completed first last)))
      ((SpanBuild.mk st'.graph []).applyAll (site.yielding false)
        ((advanced o lattice st' first last).flatMap (Track.completed first last))) := by
    rw [applyAll_eq, applyAll_eq, h.advanced_eq]
    refine hstart.foldl_take site hg fun s hs => ?_
    obtain ⟨m, hm, rfl⟩ := List.mem_map.mp hs
    exact Track.mem_pairs_of_completed htables hm
  exact happlied.close site hg _

theorem fill (h : Apart g st st') (s : Nat × Nat) :
    Apart g (fill g (o.yielding true) lattice pruner st s)
      (fill g (o.yielding false) lattice pruner st' s) := by
  obtain ⟨first, last⟩ := s
  have hadvanced := h.advanced_eq o lattice first last
  have htables : ∀ tr ∈ (ForestState.fill g (o.yielding true) lattice pruner st
      (first, last)).tracks, tr.table ∈ g := table_fill h.tables (first, last)
  cases hskip : pruner.skipsSpan first last with
  | true =>
    rw [fill_of_skipped hskip] at htables ⊢
    rw [fill_of_skipped hskip]
    exact ⟨hadvanced, h.found, h.graph, htables⟩
  | false =>
    have hbuilt := h.built o lattice pruner hg first last
    rw [fill_of_not_skipped hskip] at htables ⊢
    rw [fill_of_not_skipped hskip]
    have hsorted := congrArg (List.mergeSort · fun c d => c.label.atMost d.label) hbuilt.found
    refine ⟨?_, ?_, hbuilt.graph, htables⟩
    · exact congrArg₂ (fun tracks entries => List.map (Track.beginWith Match.carrier entries first
        last (lattice.distanceTable.length first last)) tracks) hadvanced hsorted
    · exact congrArg₂ (fun found entries => Chart.set found first last entries) h.found hsorted

end Apart

theorem apart_run (hg : g.OneLabel) : Apart g (run g (o.yielding true) lattice pruner)
    (run g (o.yielding false) lattice pruner) := by
  have hstart : Apart g (start g lattice.size) (start g lattice.size) :=
    ⟨rfl, rfl, .empty, table_start g lattice.size⟩
  rw [run_eq_upTo, run_eq_upTo]
  exact List.foldl_rel hstart fun s _ _ _ h => h.fill o lattice pruner hg s

theorem goalCells_eq (hg : g.OneLabel) :
    goalCells g (o.yielding false) lattice pruner =
      goalCells g (o.yielding true) lattice pruner := by
  rw [goalCells, goalCells, tops, tops, (apart_run o lattice pruner hg).found,
    Options.goal_yielding,
    Options.goal_yielding]

theorem apart_goalGraph (hg : g.OneLabel)
    (hne : goalCells g (o.yielding true) lattice pruner ≠ []) :
    (goalGraph g (o.yielding true) lattice pruner).RulesApart
      (Sides g.pairs (goalGraph g (o.yielding true) lattice pruner).goal)
      (goalGraph g (o.yielding false) lattice pruner) := by
  have hrun := apart_run o lattice pruner hg
  obtain ⟨ledger, hran⟩ := exists_ledger g (o.yielding true) lattice pruner
  have htops := goalCells_eq o lattice pruner hg
  have hne' : goalCells g (o.yielding false) lattice pruner ≠ [] := htops.symm ▸ hne
  rw [goalGraph, goalGraph, withGoal_eq _ _ hne, withGoal_eq _ _ hne']
  rw [goalCells, goalCells] at htops
  rw [htops, hrun.graph.nodes]
  refine Hypergraph.RulesApart.withGoal ?_ _
  -- The goal is a new node, so no edge leads to it yet.
  have hbelow : (run g (o.yielding true) lattice pruner).graph.addNode.RulesApart
      (Sides g.pairs (some (run g (o.yielding true) lattice pruner).graph.nodes.size))
      (run g (o.yielding false) lattice pruner).graph.addNode := by
    refine hrun.graph.addNode.mono fun e he rule rule' hsides => ?_
    have hentry := List.getElem?_eq_getElem (show e < ledger.length from hran.recorded.size ▸ he)
    obtain ⟨pair, c, -, -, -, -, hedge, -⟩ := hran.recorded.edge e _ hentry
    refine ⟨fun hhead => ?_, fun _ => hsides.below fun hhead => ?_⟩
    · exact absurd (hran.recorded.head_lt e he _ hhead) (Nat.lt_irrefl _)
    · cases (congrArg Edge.head hedge).symm.trans hhead
  generalize tops _ _ _ = cells
  induction cells using List.reverseRecOn with
  | nil => exact hbelow
  | append_singleton cells c ih =>
    rw [List.foldl_append, List.foldl_append]
    exact ih.extend ⟨fun _ => rfl, fun hne => absurd rfl hne⟩ _ _ _

end ForestState

open ForestState

variable (o : Options V) (lattice : Lattice V) (pruner : Pruner)

theorem apart_forest (hg : g.OneLabel) :
    (forest g (o.yielding true) lattice pruner).RulesApart
      (Sides g.pairs (forest g (o.yielding true) lattice pruner).goal)
      (forest g (o.yielding false) lattice pruner) := by
  by_cases hnil : goalCells g (o.yielding true) lattice pruner = []
  · rw [forest_of_nil hnil, forest_of_nil ((goalCells_eq o lattice pruner hg).trans hnil)]
    exact .empty
  obtain ⟨c, hc⟩ := List.exists_mem_of_ne_nil _ hnil
  obtain ⟨ledger, h⟩ := exists_finished hnil
  have hl := h.topped.linked.owned
  have hin := h.tailsInside
  have hlt := h.root_lt _ h.root
  have hplaces := (h.descending.linksCopied_found hl hin hlt).inj
  have hc' : c ∈ goalCells g (o.yielding false) lattice pruner :=
    (goalCells_eq o lattice pruner hg).symm ▸ hc
  rw [forest_of_mem_goalCells hc, forest_of_mem_goalCells hc',
    h.descending.goal_sorted hl hin hlt h.root]
  refine (apart_goalGraph o lattice pruner hg hnil).sorted h.descending hl hin h.root hlt ?_
  intro n hn rule rule' hsides
  rw [h.root] at hsides
  refine ⟨fun heq => hsides.top ?_, fun hbelow => hsides.below ?_⟩
  · rw [hplaces n hn _ (Hypergraph.goal_mem_order hlt) (Option.some.inj heq)]
  · intro hroot
    exact hbelow (by rw [Option.some.inj hroot])

end ParseForest
