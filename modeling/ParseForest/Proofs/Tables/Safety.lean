import ParseForest.Proofs.Cascade.Levels
import ParseForest.Proofs.Tables.Cascade

/-!
# No access fails

The states of a table of rule pairs lead to states of that table, a lattice keeps its arcs inside,
and the levels of a cascade have one threshold less than there are grammars. That is all it takes:
the parsers and the cascade come to an answer, and so does the work on the graphs they return.
-/

namespace ParseForest

variable {V S : Type}

namespace RuleTable

variable [NumberText V]

theorem fromPairs_read {text : String} {t : RuleTable V} (h : read text = .ok t) :
    t.FromPairs := by
  have hpairs : ∃ pairs : List (RulePair V), t = pairs.foldl insert empty := by
    refine RuleReader.readLines_induction
      (P := fun t => ∃ pairs : List (RulePair V), t = pairs.foldl insert empty)
      (fun t pair _ ht => ?_) h ⟨[], rfl⟩
    obtain ⟨pairs, rfl⟩ := ht
    exact ⟨pairs ++ [pair], by simp⟩
  obtain ⟨pairs, rfl⟩ := hpairs
  exact ⟨pairs, rfl⟩

theorem fromPairs_ofText (text : String) : (ofText text : RuleTable V).FromPairs := by
  unfold ofText
  cases hread : read (V := V) text with
  | error e => exact ⟨[], rfl⟩
  | ok t => exact fromPairs_read hread

end RuleTable

/-- Undoing binarization and summing up inside scores come to their answers on a graph and, where
the binarization of the graph is undone, again. -/
structure Hypergraph.Workable [Scalar V] (g : Hypergraph V) : Prop where
  inside : ∀ {S : Type} [Score S] (w : Weighting V S), g.insideAt? w = some (g.inside w)
  undo : g.unbinarizedAt? = some g.unbinarized
  after : ∀ {S : Type} [Score S] (w : Weighting V S),
    g.unbinarized.insideAt? w = some (g.unbinarized.inside w)

theorem Hypergraph.Compact.workable [Scalar V] {g : Hypergraph V} (h : g.Compact) : g.Workable := by
  obtain ⟨hundo, hafter⟩ := h.compact_unbinarized
  exact ⟨fun _ => insideAt?_eq h, hundo, fun _ => insideAt?_eq hafter⟩

namespace Cascade

variable [Scalar V] [NumberText V]

theorem levels_of_ofGrammars {grammars : List (Grammar V)} {thresholds : List V}
    {w : Weighting V S} {o : Options V} {c : Cascade V S}
    (hc : ofGrammars grammars thresholds w o = .ok c) :
    Levels.of c = ⟨c.grammars, thresholds, w, o⟩ := by
  obtain ⟨finest, hlast, hcount, rfl⟩ := eq_of_ofGrammars hc
  have hthresholds : thresholds.length ≤ (grammars.dropLast.map (shareAll finest)).length := by
    rw [List.length_map, List.length_dropLast]
    omega
  rw [Levels.of, List.map_snd_zip hthresholds]

theorem exists_mem_of_ofGrammars {grammars : List (Grammar V)} {thresholds : List V}
    {w : Weighting V S} {o : Options V} {c : Cascade V S}
    (hc : ofGrammars grammars thresholds w o = .ok c) {g : Grammar V} (hg : g ∈ c.grammars)
    {t : RuleTable V} (ht : t ∈ g) : ∃ h ∈ grammars, t ∈ h := by
  obtain ⟨finest, hlast, -, rfl⟩ := eq_of_ofGrammars hc
  have hfinest : finest ∈ grammars := List.mem_of_getLast? hlast
  rcases List.mem_append.mp hg with hg | hg
  · obtain ⟨⟨shared, threshold⟩, hmem, rfl⟩ := List.mem_map.mp hg
    obtain ⟨given, hgiven, rfl⟩ := List.mem_map.mp (List.of_mem_zip hmem).1
    rcases mem_shareAll.2 ht with ht | ht
    · exact ⟨given, List.mem_of_mem_dropLast hgiven, ht⟩
    · exact ⟨finest, hfinest, ht⟩
  · rw [List.mem_singleton.mp hg] at ht
    exact ⟨finest, hfinest, ht⟩

theorem fit_of_ofGrammars {grammars : List (Grammar V)} {thresholds : List V} {w : Weighting V S}
    {o : Options V} {c : Cascade V S} (hc : ofGrammars grammars thresholds w o = .ok c)
    (hclosed : ∀ g ∈ grammars, ∀ t ∈ g, t.Closed) : (Levels.of c).Fit := by
  constructor
  · simp [Levels.of, Cascade.grammars]
  · intro g hg t ht
    obtain ⟨h, hh, hmem⟩ := exists_mem_of_ofGrammars hc hg ht
    exact hclosed h hh t hmem

end Cascade

/-- With tables of rule pairs, no access of a parser or of a cascade fails, nor does one of the work
on the graphs that they return. What they find is what the parsers and the cascade find without
tables, whatever the tables held before. -/
theorem no_access_fails [Scalar V] [NumberText V] [LogScale V S] {grammars : List (Grammar V)}
    (htables : ∀ g ∈ grammars, ∀ t ∈ g, t.FromPairs) (w : Weighting V S) (o : Options V)
    (lattice : Lattice V) :
    (∀ g ∈ grammars, ∀ pruner : Pruner, pruner.knows lattice.size = true →
      (∀ m, Yields (ForestTables.parse? g o lattice pruner m) fun r =>
        r.2 = forest g o lattice pruner ∧ r.2.Workable) ∧
      ∀ order m, Yields (ScoreMemory.parse? g w o order lattice pruner m)
        (ScoreMemory.Tells g w o order lattice pruner)) ∧
    ∀ thresholds c, Cascade.ofGrammars grammars thresholds w o = .ok c →
      let levels : Levels V S := ⟨c.grammars, thresholds, w, o⟩
      ∀ orders, Yields (levels.parse? orders lattice) (·.graph.Workable) ∧
        (Score.isZero (Score.zero : S) = true →
          Score.isZero (Score.mul Score.zero Score.zero : S) = true →
            levels.parse? orders lattice = some (c.parseIn orders lattice)) := by
  have hclosed (g : Grammar V) (hg : g ∈ grammars) : ∀ t ∈ g, t.Closed :=
    fun t ht => (htables g hg t ht).closed
  constructor
  · intro g hg pruner hknows
    constructor
    · intro m
      refine (ForestTables.yields_parse (hclosed g hg) (.inr hknows) m).mono fun r hr => ⟨hr, ?_⟩
      rw [hr]
      exact (compact_forest g o lattice pruner).workable
    · intro order m
      exact ScoreMemory.yields_parse (hclosed g hg) (.inr hknows) m
  · intro thresholds c hc levels orders
    have hfit := Cascade.fit_of_ofGrammars hc hclosed
    have hlevels : Levels.of c = levels := Cascade.levels_of_ofGrammars hc
    rw [← hlevels]
    exact ⟨hfit.yields_parse.mono fun r hr => hr.workable,
      fun hzero hproduct => Levels.parse?_eq hzero hproduct hfit.closed orders⟩

/-- A word and a label over another one, and a cascade that parses with the same rules twice. -/
theorem no_access_fails_of_word_and_label :
    let g : Grammar ℚ := [RuleTable.ofText "[S] ||| a [B,1]\n[B] ||| b"]
    let w : Weighting ℚ ℚ≥0 := Weighting.uniform
    let o := Options.ofGoal (1 / 10) Options.defaultGoal
    let lattice := Lattice.ofWords [⟨"a"⟩, ⟨"b"⟩]
    ((∀ h ∈ [g, g], ∀ t ∈ h, t.FromPairs) ∧ Pruner.none.knows lattice.size = true ∧
      Score.isZero (Score.zero : ℚ≥0) = true ∧
        Score.isZero (Score.mul Score.zero Score.zero : ℚ≥0) = true) ∧
      Yields (ForestTables.parse? g o lattice .none .blank)
        (fun r => r.2 = forest g o lattice .none ∧ r.2.Workable) ∧
      ∃ c, Cascade.ofGrammars [g, g] [0] w o = .ok c ∧
        let levels : Levels ℚ ℚ≥0 := ⟨c.grammars, [0], w, o⟩
        Yields (levels.parse? (fun _ _ => .arrival) lattice) (·.graph.Workable) ∧
          levels.parse? (fun _ _ => .arrival) lattice =
            some (c.parseIn (fun _ _ => .arrival) lattice) := by
  intro g w o lattice
  have htables : ∀ h ∈ [g, g], ∀ t ∈ h, t.FromPairs := by
    simp only [List.mem_cons, List.not_mem_nil, or_false, or_self]
    rintro h rfl t ht
    rw [List.mem_singleton.mp ht]
    exact RuleTable.fromPairs_ofText _
  have hzero : Score.isZero (Score.zero : ℚ≥0) = true := by decide +kernel
  have hproduct : Score.isZero (Score.mul Score.zero Score.zero : ℚ≥0) = true := by decide +kernel
  obtain ⟨hparsers, hcascades⟩ := no_access_fails htables w o lattice
  let c : Cascade ℚ ℚ≥0 := ⟨[(Cascade.shareAll g g, 0)], g, w, o⟩
  have hc : Cascade.ofGrammars [g, g] [0] w o = .ok c := rfl
  obtain ⟨hworkable, hsame⟩ := hcascades [0] c hc fun _ _ => .arrival
  exact ⟨⟨htables, rfl, hzero, hproduct⟩, (hparsers g List.mem_cons_self .none rfl).1 _, c, hc,
    hworkable, hsame hzero hproduct⟩

end ParseForest
