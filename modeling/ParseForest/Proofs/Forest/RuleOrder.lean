import ParseForest.Proofs.Forest.Chains
import ParseForest.Proofs.Forest.Shapes
import ParseForest.Proofs.Recognition

/-!
# The order of rules

A parser gives the same forest, in other numbers, whatever the tables are into which its rule pairs
are put and whatever their order. Two such parsers find constituents of the same labels at the same
levels over every span. An entry of the one ledger has a counterpart in the other, since both list
an application whenever the constituent is there that it derives.
-/

namespace ParseForest

variable {V : Type} [Scalar V]

namespace ForestState

variable {g g' : Grammar V} {o : Options V} {lattice : Lattice V} {pruner : Pruner}
  {ledger ledger' : List Entry}

theorem nodup_shapes (i j : Nat) :
    ((cells g o lattice pruner i j).map fun c => (c.label, c.level)).Nodup := by
  obtain ⟨ledger, h⟩ := exists_ledger g o lattice pruner
  refine List.Nodup.map_on (fun c hc d hd heq => ?_) (nodup_cells i j)
  obtain ⟨hlabel, hlevel⟩ := Prod.mk.inj heq
  exact h.recorded.distinct i j c d hc hd hlabel hlevel

theorem perm_shapes (h : g.SamePairs g') (i j : Nat) :
    ((cells g o lattice pruner i j).map fun c => (c.label, c.level)).Perm
      ((cells g' o lattice pruner i j).map fun c => (c.label, c.level)) := by
  refine (List.perm_ext_iff_of_nodup (nodup_shapes i j) (nodup_shapes i j)).mpr ?_
  rintro ⟨label, level⟩
  simpa only [Present, List.mem_map, Prod.mk.injEq] using sameShapes_cells h i j label level

variable (hran : Ran g o lattice pruner (Chart.spansByLength lattice.size)
    (run g o lattice pruner) ledger)

include hran in
theorem exists_counterpart_of_samePairs (h : g.SamePairs g')
    (hran' : Ran g' o lattice pruner (Chart.spansByLength lattice.size) (run g' o lattice pruner)
      ledger') {R : RuleName → RuleName → Prop} (hnames : ∀ r r', R r r' → g.pair? r = g'.pair? r')
    (hforth : ∀ r, (g.pair? r).isSome = true → ∃ r', R r r') {a : Entry} (ha : a ∈ ledger) :
    ∃ a' ∈ ledger', Counterpart R (SameCell g g' o lattice pruner pruner) a a' := by
  obtain ⟨hgen, c, hc, hlabel, hlevel⟩ := hran.mem_ledger_iff_derived.mp ha
  obtain ⟨pair, hpair, hlhs⟩ := hgen.label
  obtain ⟨r', hr⟩ := hforth a.step.rule (by rw [hpair, Option.isSome_some])
  have hpair' : g'.pair? r' = some pair := (hnames _ _ hr).symm.trans hpair
  obtain ⟨parts, halong, hfits⟩ := exists_fits_of_sameShapes h hpair hpair' hgen.fits
    fun p q _ _ => sameShapes_cells h p q
  have hgen' : Genuine g' o lattice pruner (listed (cells g' o lattice pruner))
      ⟨a.place, ⟨r', parts⟩⟩ :=
    ⟨hgen.span, hgen.spanLeft, hgen.labelLeft, ⟨pair, hpair', hlhs⟩, hfits⟩
  obtain ⟨c', hc', hsame, hup⟩ :=
    (sameShapes_cells h a.place.first a.place.last).exists_right hc
  have hlevel' : c'.level = parts.level :=
    hup.trans (hlevel.trans (level_eq (fun _ _ _ _ hd => hd.level) halong))
  exact ⟨_, hran'.mem_ledger_iff_derived.mpr ⟨hgen', c', hc', hsame.trans hlabel, hlevel'⟩, rfl, hr,
    halong⟩

include hran in
theorem exists_paired (h : g.SamePairs g')
    (hran' : Ran g' o lattice pruner (Chart.spansByLength lattice.size) (run g' o lattice pruner)
      ledger') :
    ∃ R, Paired g g' o lattice pruner pruner ledger ledger' R
      (SameCell g g' o lattice pruner pruner) := by
  obtain ⟨R, hR, hnames, hforth, hback⟩ := h.exists_biUnique
  refine ⟨R, hR, hnames, id, fun _ _ _ _ _ a ha _ =>
    exists_counterpart_of_samePairs hran h hran' hnames hforth ha, fun _ _ _ _ _ a' ha' _ => ?_,
    fun c hc => ?_, fun c' hc' => ?_⟩
  · obtain ⟨a, ha, hsame⟩ := exists_counterpart_of_samePairs (R := Function.swap R) hran' h.symm
      hran (fun r' r hr => (hnames r r' hr).symm) hback ha'
    exact ⟨a, ha, hsame.symm.place, hsame.rule, hsame.symm.parts.imp fun _ _ _ _ hc => hc.symm⟩
  · have hcell := (mem_goalCells.mp hc).1
    obtain ⟨c', hc', hlabel, hlevel⟩ := (sameShapes_cells h 0 lattice.size).exists_right hcell
    exact ⟨c', hcell, hc', hlabel.symm, hlevel.symm⟩
  · have hcell := (mem_goalCells.mp hc').1
    obtain ⟨c, hc, hlabel, hlevel⟩ := (sameShapes_cells h.symm 0 lattice.size).exists_right hcell
    exact ⟨c, hc, hcell, hlabel, hlevel⟩

end ForestState

namespace ForestParser

open ForestState

/-- The node is the copy of a constituent with the label and the level over the span. -/
def Names (p : ForestParser V) (size n : Nat) (place : SpanLabel) (level : Nat) : Prop :=
  ∃ c ∈ p.state.found.get place.first place.last, c.label = place.label ∧ c.level = level ∧
    (p.state.withGoal p.options size).origin? n = some c.node

theorem parse_of_not_isEmpty (p : ForestParser V) {lattice : Lattice V} (pruner : Pruner)
    (h : lattice.isEmpty = false) : p.parse lattice pruner =
      (⟨p.grammar, p.options, run p.grammar p.options lattice pruner⟩,
        forest p.grammar p.options lattice pruner) := by
  rw [forest_eq h, parse, if_neg (by rw [h]; exact Bool.false_ne_true)]
  rfl

theorem not_isEmpty_of_lt_size {g : Grammar V} {o : Options V} {lattice : Lattice V}
    {pruner : Pruner} {n : Nat} (hn : n < (forest g o lattice pruner).nodes.size) :
    lattice.isEmpty = false := by
  by_contra hempty
  rw [forest_of_empty (Bool.of_not_eq_false hempty)] at hn
  exact Nat.not_lt_zero n hn

theorem exists_names (p : ForestParser V) (lattice : Lattice V) (pruner : Pruner) {n : Nat}
    (hn : n < (p.parse lattice pruner).2.nodes.size) :
    (p.parse lattice pruner).2.goal = some n ∨
      ∃ place level, (p.parse lattice pruner).1.Names lattice.size n place level := by
  have hne : lattice.isEmpty = false :=
    not_isEmpty_of_lt_size (parse_eq_forest p lattice pruner ▸ hn)
  rw [parse_of_not_isEmpty p pruner hne] at hn ⊢
  have htops : goalCells p.grammar p.options lattice pruner ≠ [] := fun hnil => by
    simp only [forest_of_nil hnil] at hn
    exact Nat.not_lt_zero n hn
  obtain ⟨ledger, h⟩ := exists_finished htops
  obtain ⟨top, htop⟩ := List.exists_mem_of_ne_nil _ htops
  simp only [forest_of_mem_goalCells htop] at hn ⊢
  have hlt := h.root_lt _ h.root
  obtain ⟨u, hu, hcopy⟩ := h.descending.exists_origin h.topped.linked.owned h.tailsInside h.root hlt
    hn
  rw [h.topped.nodes] at hu
  rcases Nat.lt_succ_iff_lt_or_eq.mp hu with hu | rfl
  · obtain ⟨i, j, c, hc, rfl⟩ := h.recorded.known u hu
    exact Or.inr ⟨⟨i, j, c.label⟩, c.level, c, hc, rfl, rfl, hcopy⟩
  · exact Or.inl (h.descending.goal_of_origin h.topped.linked.owned h.tailsInside h.root hlt hcopy)

/-- Parsers whose tables hold the same rule pairs give forests that differ in their numbers only:
nodes with the same names, and edges with the same rules, tails, features and attributes. -/
theorem parse_of_perm {shares shares' : List (List (RulePair V))}
    (h : shares.flatten.Perm shares'.flatten) (o : Options V) (st st' : ForestState V)
    (lattice : Lattice V) (pruner : Pruner) :
    let p := parse ⟨Grammar.ofShares shares, o, st⟩ lattice pruner
    let q := parse ⟨Grammar.ofShares shares', o, st'⟩ lattice pruner
    (lattice.isEmpty = false → ∀ i j,
      ((p.1.state.found.get i j).map fun c => (c.label, c.level)).Perm
        ((q.1.state.found.get i j).map fun c => (c.label, c.level))) ∧
    ∃ nodeOf edgeOf, Hypergraph.PartOf q.2 p.2 nodeOf edgeOf ∧
      Set.BijOn nodeOf {n : Nat | n < p.2.nodes.size} {n : Nat | n < q.2.nodes.size} ∧
      Set.BijOn edgeOf {e : Nat | e < p.2.edges.size} {e : Nat | e < q.2.edges.size} ∧
      ∀ n : Nat, n < p.2.nodes.size →
        (p.2.goal = some n ∨ ∃ place level, p.1.Names lattice.size n place level) ∧
        ∀ place level, p.1.Names lattice.size n place level ↔
          q.1.Names lattice.size (nodeOf n) place level := by
  intro p q
  have hpairs := Grammar.samePairs_ofShares h
  obtain ⟨ledger, hran⟩ := exists_ledger (Grammar.ofShares shares) o lattice pruner
  obtain ⟨ledger', hran'⟩ := exists_ledger (Grammar.ofShares shares') o lattice pruner
  obtain ⟨R, hpaired⟩ := exists_paired hran hpairs hran'
  obtain ⟨nodeOf, edgeOf, hpart, hnodes, hedges, horigin⟩ := hpaired.exists_renaming hran hran'
  have hp : p.2 = forest (Grammar.ofShares shares) o lattice pruner := parse_eq_forest _ _ _
  have hq : q.2 = forest (Grammar.ofShares shares') o lattice pruner := parse_eq_forest _ _ _
  rw [← hp, ← hq] at hpart hnodes hedges
  rw [← hp] at horigin
  have hstates : lattice.isEmpty = false →
      p.1 = ⟨Grammar.ofShares shares, o, run (Grammar.ofShares shares) o lattice pruner⟩ ∧
        q.1 = ⟨Grammar.ofShares shares', o, run (Grammar.ofShares shares') o lattice pruner⟩ :=
    fun hne => ⟨congrArg Prod.fst (parse_of_not_isEmpty _ pruner hne),
      congrArg Prod.fst (parse_of_not_isEmpty _ pruner hne)⟩
  refine ⟨fun hne i j => ?_, nodeOf, edgeOf, hpart, hnodes, hedges, fun n hn =>
    ⟨exists_names _ lattice pruner hn, fun place level => ?_⟩⟩
  · rw [(hstates hne).1, (hstates hne).2]
    exact perm_shapes hpairs i j
  · have hne : lattice.isEmpty = false := not_isEmpty_of_lt_size (hp ▸ hn)
    obtain ⟨u, v, hu, hv, huv⟩ := horigin n hn
    rw [(hstates hne).1, (hstates hne).2]
    constructor
    · rintro ⟨c, hc, hlabel, hlevel, hcopy⟩
      obtain ⟨c', hc', hlabel', hlevel', rfl⟩ := hpaired.exists_cell_of_sameNode hran huv hc
        (Option.some.inj (hu.symm.trans hcopy))
      exact ⟨c', hc', hlabel'.trans hlabel, hlevel'.trans hlevel, hv⟩
    · rintro ⟨c', hc', hlabel, hlevel, hcopy⟩
      obtain ⟨c, hc, hlabel', hlevel', rfl⟩ := hpaired.symm.exists_cell_of_sameNode hran' huv.symm
        hc' (Option.some.inj (hv.symm.trans hcopy))
      exact ⟨c, hc, hlabel'.trans hlabel, hlevel'.trans hlevel, hu⟩

/-- A cycle of unary rules in one table, and the same rules backwards, each in its own table. -/
theorem parse_of_perm_backwards :
    let pairs := (RuleTable.ofText "[S] ||| a\n[S] ||| [X,1]\n[X] ||| [S,1]" :
      RuleTable Float).pairs
    let shares := [pairs]
    let shares' := pairs.reverse.map fun pair => [pair]
    let lattice := Lattice.ofWords [⟨"a"⟩]
    let p := parse (new (Grammar.ofShares shares) Options.standard) lattice .none
    let q := parse (new (Grammar.ofShares shares') Options.standard) lattice .none
    (shares.flatten.Perm shares'.flatten ∧ pairs.length = 3 ∧ p.2.isValid = true) ∧
      q.2.isValid = true ∧ ∃ nodeOf edgeOf, Hypergraph.PartOf q.2 p.2 nodeOf edgeOf ∧
        Set.BijOn nodeOf {n : Nat | n < p.2.nodes.size} {n : Nat | n < q.2.nodes.size} ∧
        Set.BijOn edgeOf {e : Nat | e < p.2.edges.size} {e : Nat | e < q.2.edges.size} := by
  intro pairs shares shares' lattice p q
  have hperm : shares.flatten.Perm shares'.flatten := by
    have hsingle (l : List (RulePair Float)) : (l.map fun pair => [pair]).flatten = l := by
      rw [← List.flatMap_def, List.flatMap_singleton']
    rw [List.flatten_singleton, hsingle]
    exact (List.reverse_perm pairs).symm
  have hsplit : Chart.spansByLength lattice.size = [] ++ [(0, lattice.size)] := rfl
  have hvalid : p.2.isValid = true := isValid_forest_of_built hsplit rfl (by decide +kernel)
  obtain ⟨-, nodeOf, edgeOf, hpart, hnodes, hedges, -⟩ :=
    parse_of_perm hperm Options.standard (ForestState.start [] 0) (ForestState.start [] 0) lattice
      .none
  refine ⟨⟨hperm, by decide +kernel, hvalid⟩, ?_, nodeOf, edgeOf, hpart, hnodes, hedges⟩
  have hgoal : q.2.goal = p.2.goal.map nodeOf := hpart.goal_eq
  rw [Hypergraph.isValid, hgoal, Option.isSome_map]
  exact hvalid

end ForestParser

end ParseForest
