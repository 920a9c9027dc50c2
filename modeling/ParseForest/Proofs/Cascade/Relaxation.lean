import Mathlib.Order.Bounds.Defs
import ParseForest.Proofs.Cascade.Lossless

/-!
# The outcome of relaxing

A round scores level after level, each pruned by the scores of the one before, and fails at the
first level that does not parse. The first round that succeeds gives the outcome of a cascade.
-/

namespace ParseForest.Cascade

variable {V S : Type} [Scalar V] [LogScale V S]

/-- The scores that the passes of a round leave at a level, when all passes up to it succeed. -/
inductive Scored (c : Cascade V S) (orders : (round level : Nat) → ClosureOrder)
    (lattice : Lattice V) (round : Nat) (factor : V) : Nat → ScoreChart S → Prop
  | coarsest {grammar : Grammar V} {threshold : V} (hat : c.coarse[0]? = some (grammar, threshold))
      -- the pass over the coarsest grammar is made once, for all rounds
      (hparsed : (posteriorsIn (orders 0 0) grammar c.weighting c.options lattice .none).parsed =
        true) :
      Scored c orders lattice round factor 0
        (posteriorsIn (orders 0 0) grammar c.weighting c.options lattice .none).scores
  | next {level : Nat} {scores : ScoreChart S} {before grammar : Grammar V} {threshold next : V}
      (hscored : Scored c orders lattice round factor level scores)
      (hbefore : c.coarse[level]? = some (before, threshold))
      (hat : c.coarse[level + 1]? = some (grammar, next))
      (hparsed : (posteriorsIn (orders round (level + 1)) grammar c.weighting c.options lattice
        (prunerOf scores (threshold * factor) (scoringCoarsening (level + 1)))).parsed = true) :
      Scored c orders lattice round factor (level + 1)
        (posteriorsIn (orders round (level + 1)) grammar c.weighting c.options lattice
          (prunerOf scores (threshold * factor) (scoringCoarsening (level + 1)))).scores

/-- Every pass of a round succeeds, and the last one makes this graph: all coarse grammars are
scored, and a new parser of the finest one makes a valid graph with the pruner of the round. -/
def Succeeds (c : Cascade V S) (orders : (round level : Nat) → ClosureOrder) (lattice : Lattice V)
    (round : Nat) (factor : V) (graph : Hypergraph V) : Prop :=
  ∃ level scores grammar threshold, c.coarse.length = level + 1 ∧
    c.Scored orders lattice round factor level scores ∧ c.coarse[level]? =
      some (grammar, threshold) ∧
    graph = ((ForestParser.new c.finest c.options).parse lattice
      (prunerOf scores (threshold * factor) (finestCoarsening (level + 1)))).2 ∧
    graph.isValid = true

variable {c : Cascade V S} {orders : (round level : Nat) → ClosureOrder} {lattice : Lattice V}
  {number : Nat} {factor : V}

theorem Scored.of_scorePasses {rest : List (Grammar V × V)} {level : Nat} {scores : ScoreChart S}
    {grammar : Grammar V} {threshold : V}
    (hscored : c.Scored orders lattice number factor level scores)
    (hdrop : c.coarse.drop level = (grammar, threshold) :: rest) {last : ScoreChart S × V}
    (h : c.scorePasses (orders number) lattice factor (level + 1) (scores, threshold) rest =
      some last) :
    c.Scored orders lattice number factor (level + rest.length) last.1 ∧
      ∃ grammar, c.coarse[level + rest.length]? = some (grammar, last.2) := by
  have hat : c.coarse[level]? = some (grammar, threshold) := by
    rw [← List.head?_drop, hdrop, List.head?_cons]
  -- the passes that are left are the levels behind this one
  induction rest generalizing level scores grammar threshold with
  | nil =>
    obtain rfl : (scores, threshold) = last := Option.some.inj h
    exact ⟨hscored, grammar, hat⟩
  | cons following rest ih =>
    obtain ⟨following, next⟩ := following
    have hdrop' : c.coarse.drop (level + 1) = (following, next) :: rest := by
      rw [← List.tail_drop, hdrop, List.tail_cons]
    have hat' : c.coarse[level + 1]? = some (following, next) := by
      rw [← List.head?_drop, hdrop', List.head?_cons]
    rw [scorePasses] at h
    split at h
    · rename_i hparsed
      have hlast := ih (hscored.next hat hat' hparsed) hdrop' h hat'
      rwa [Nat.add_assoc, Nat.add_comm 1] at hlast
    · cases h

theorem Scored.scorePasses_eq {coarsest : Grammar V} {t : V} {rest : List (Grammar V × V)}
    (hcoarse : c.coarse = (coarsest, t) :: rest) {level : Nat} {scores : ScoreChart S}
    (hscored : c.Scored orders lattice number factor level scores) {grammar : Grammar V}
    {threshold : V}
    (hat : c.coarse[level]? = some (grammar, threshold)) :
    c.scorePasses (orders number) lattice factor 1
        ((posteriorsIn (orders 0 0) coarsest c.weighting c.options lattice .none).scores, t) rest =
      c.scorePasses (orders number) lattice factor (level + 1) (scores, threshold)
        (c.coarse.drop (level + 1)) := by
  induction hscored generalizing grammar threshold with
  | coarsest hfirst hparsed =>
    have hhead : c.coarse[0]? = some (coarsest, t) := by rw [hcoarse]; rfl
    obtain ⟨rfl, rfl⟩ := Prod.mk.inj (Option.some.inj (hhead.symm.trans hfirst))
    obtain ⟨-, rfl⟩ := Prod.mk.inj (Option.some.inj (hhead.symm.trans hat))
    rw [hcoarse]
    rfl
  | @next level scores before found threshold₀ next₀ hscored hbefore hat' hparsed ih =>
    obtain ⟨rfl, rfl⟩ := Prod.mk.inj (Option.some.inj (hat'.symm.trans hat))
    have hdrop : c.coarse.drop (level + 1) = (found, next₀) :: c.coarse.drop (level + 1 + 1) :=
      (List.getElem?_eq_some_iff.mp hat').elim fun hlt hget => by
        rw [List.drop_eq_getElem_cons hlt, hget]
    rw [ih hbefore, hdrop, scorePasses]
    exact if_pos hparsed

theorem succeeds_iff_round (orders : (round level : Nat) → ClosureOrder) {coarsest : Grammar V}
    {t : V} {rest : List (Grammar V × V)} (hcoarse : c.coarse = (coarsest, t) :: rest)
    (hparsed :
      (posteriorsIn (orders 0 0) coarsest c.weighting c.options lattice .none).parsed = true)
    {graph : Hypergraph V} :
    c.Succeeds orders lattice number factor graph ↔
      c.round (orders number) lattice
        ((posteriorsIn (orders 0 0) coarsest c.weighting c.options lattice .none).scores, t) rest
          factor = some graph := by
  have hlength : c.coarse.length = rest.length + 1 := by rw [hcoarse, List.length_cons]
  constructor
  · rintro ⟨level, scores, grammar, threshold, hlast, hscored, hat, rfl, hvalid⟩
    obtain rfl : rest.length = level := Nat.succ.inj (hlength.symm.trans hlast)
    have hpasses := hscored.scorePasses_eq hcoarse hat
    rw [List.drop_eq_nil_of_le (Nat.le_of_eq hlength)] at hpasses
    exact round_of_passes hpasses hvalid
  · intro hround
    unfold round at hround
    obtain ⟨⟨scores, threshold⟩, hpasses, hfinest⟩ := Option.bind_eq_some_iff.mp hround
    have hfirst : c.Scored orders lattice number factor 0
        (posteriorsIn (orders 0 0) coarsest c.weighting c.options lattice .none).scores :=
      .coarsest (by rw [hcoarse]; rfl) hparsed
    obtain ⟨hscored, grammar, hat⟩ := hfirst.of_scorePasses hcoarse hpasses
    rw [Nat.zero_add] at hscored hat
    obtain ⟨hvalid, hgraph⟩ := Option.ite_none_right_eq_some.mp hfinest
    obtain rfl := Option.some.inj hgraph
    exact ⟨rest.length, scores, grammar, threshold, hlength, hscored, hat, rfl, hvalid⟩

/-- The grammars before the last one are scored, each with its threshold, and the last one makes the
forest. There is nothing to relax when the coarsest grammar fails on its own. Otherwise the first of
the allowed rounds that succeeds gives the forest and its factor, and the number of rounds that have
failed before it; when none succeeds, the forest is empty and all relaxations have been made. -/
theorem parse_outcome [NumberText V] {grammars : List (Grammar V)} {thresholds : List V}
    {w : Weighting V S} {o : Options V} {c : Cascade V S}
    (hc : ofGrammars grammars thresholds w o = .ok c) (hmany : 2 ≤ grammars.length)
    (orders : (round level : Nat) → ClosureOrder) {lattice : Lattice V}
    (hlattice : lattice.isEmpty = false) :
    ∃ finest coarsest threshold rest, grammars.getLast? = some finest ∧
      thresholds.length + 1 = grammars.length ∧
      c = ⟨(grammars.dropLast.map (shareAll finest)).zip thresholds, finest, w, o⟩ ∧
      c.coarse = (coarsest, threshold) :: rest ∧
      let factor := factorAfter o.decay Scalar.one
      ((posteriorsIn (orders 0 0) coarsest w o lattice .none).parsed = false →
        c.parseIn orders lattice = ⟨Hypergraph.empty, 0, Scalar.one⟩) ∧
      ((posteriorsIn (orders 0 0) coarsest w o lattice .none).parsed = true →
        (∀ r, IsLeast {r | r ≤ o.maxRelaxations ∧
            ∃ graph, c.Succeeds orders lattice r (factor r) graph} r →
          ∃ graph, c.Succeeds orders lattice r (factor r) graph ∧
            c.parseIn orders lattice = ⟨graph, r, factor r⟩) ∧
        ((∀ r ≤ o.maxRelaxations, ∀ graph, ¬c.Succeeds orders lattice r (factor r) graph) →
          c.parseIn orders lattice =
            ⟨Hypergraph.empty, o.maxRelaxations, factor o.maxRelaxations⟩)) := by
  obtain ⟨finest, hlast, hcount, hcascade⟩ := eq_of_ofGrammars hc
  have hpos : 0 < c.coarse.length := by
    rw [hcascade, List.length_zip, List.length_map, List.length_dropLast]
    omega
  obtain ⟨⟨coarsest, threshold⟩, rest, hcoarse⟩ := List.exists_cons_of_length_pos hpos
  refine ⟨finest, coarsest, threshold, rest, hlast, hcount, hcascade, hcoarse, ?_⟩
  have hweighting : c.weighting = w := by rw [hcascade]
  have hoptions : c.options = o := by rw [hcascade]
  clear hcascade
  subst hweighting hoptions
  refine ⟨parseIn_of_not_parsed orders hcoarse, fun hparsed => ?_⟩
  let first :=
    ((posteriorsIn (orders 0 0) coarsest c.weighting c.options lattice .none).scores, threshold)
  -- the first round has the number zero
  have hround : ∀ r graph,
      c.Succeeds orders lattice r (factorAfter c.options.decay Scalar.one r) graph ↔
        c.round (orders (0 + r)) lattice first rest
          (factorAfter c.options.decay Scalar.one r) = some graph := fun r _ => by
    rw [Nat.zero_add]
    exact succeeds_iff_round orders hcoarse hparsed
  have hcomposes := c.composes_new
  rw [parseIn_of_parsed orders hlattice hcoarse hparsed]
  constructor
  · rintro r ⟨⟨hle, graph, hgraph⟩, hleast⟩
    have hfailed : ∀ i < r, c.round (orders (0 + i)) lattice first rest
        (factorAfter c.options.decay Scalar.one i) = none := fun i hi =>
      Option.eq_none_iff_forall_ne_some.mpr fun earlier hsome =>
        Nat.not_lt_of_le (hleast ⟨hi.le.trans hle, earlier, (hround i earlier).mpr hsome⟩) hi
    have hfirst := hcomposes.relax_of_first hle hfailed ((hround r graph).mp hgraph)
    rw [Nat.zero_add] at hfirst
    exact ⟨graph, hgraph, hfirst⟩
  · intro hfailed
    have hlast := hcomposes.relax_of_none fun i (hi : i ≤ c.options.maxRelaxations) =>
      Option.eq_none_iff_forall_ne_some.mpr fun graph hsome =>
        hfailed i hi graph ((hround i graph).mpr hsome)
    rwa [Nat.zero_add] at hlast

/-- A threshold above every posterior prunes all labels until it has been relaxed once. -/
theorem parse_outcome_of_high_threshold :
    let g : Grammar ℚ := [RuleTable.ofText "[S] ||| [A,1]\n[A] ||| a"]
    let w : Weighting ℚ ℚ≥0 := Weighting.uniform
    let o := Options.ofGoal (1 / 10) Options.defaultGoal
    let orders : (round level : Nat) → ClosureOrder := fun _ _ => .arrival
    let lattice := Lattice.ofWords [⟨"a"⟩]
    (2 ≤ [g, g].length ∧ lattice.isEmpty = false) ∧
      ∃ c, ofGrammars [g, g] [5] w o = .ok c ∧ ∃ graph,
        c.Succeeds orders lattice 1 (1 / 10) graph ∧
          c.parseIn orders lattice = ⟨graph, 1, 1 / 10⟩ := by
  intro g w o orders lattice
  let c : Cascade ℚ ℚ≥0 := ⟨[(shareAll g g, 5)], g, w, o⟩
  have hc : ofGrammars [g, g] [5] w o = .ok c := rfl
  have hlattice : lattice.isEmpty = false := rfl
  obtain ⟨finest, coarsest, threshold, rest, -, -, -, hcoarse, -, houtcome⟩ :=
    parse_outcome hc (Nat.le_refl 2) orders hlattice
  obtain ⟨hcoarsest, rfl⟩ := List.cons.inj hcoarse
  obtain ⟨rfl, rfl⟩ := Prod.mk.inj hcoarsest
  have hparsed : (posteriorsIn .arrival (shareAll g g) w o lattice .none).parsed = true := by
    decide +kernel
  let first := (posteriorsIn .arrival (shareAll g g) w o lattice .none).scores
  let pruner := prunerOf first (5 * (1 / 10) : ℚ) (finestCoarsening 1)
  have hfactor : factorAfter o.decay Scalar.one 1 = 1 / 10 := by decide +kernel
  have hfailed : (c.round (orders 0) lattice (first, 5) [] Scalar.one).isNone = true := by
    decide +kernel
  have hsplit : Chart.spansByLength lattice.size = [] ++ [(0, lattice.size)] := rfl
  have hvalid : (forest g o lattice pruner).isValid = true :=
    isValid_forest_of_built hsplit (by decide +kernel) (by decide +kernel)
  have hround (r : Nat) (factor : ℚ) (graph : Hypergraph ℚ) :
      c.Succeeds orders lattice r factor graph ↔
        c.round (orders r) lattice (first, 5) [] factor = some graph :=
    succeeds_iff_round orders hcoarse hparsed
  have hsecond : c.Succeeds orders lattice 1 (1 / 10) (forest g o lattice pruner) :=
    (hround _ _ _).mpr (round_of_passes rfl hvalid)
  have hleast : IsLeast {r | r ≤ o.maxRelaxations ∧
      ∃ graph, c.Succeeds orders lattice r (factorAfter o.decay Scalar.one r) graph} 1 := by
    refine ⟨⟨by decide, _, hfactor ▸ hsecond⟩, fun r hr => Nat.one_le_iff_ne_zero.mpr ?_⟩
    rintro rfl
    obtain ⟨-, graph, hgraph⟩ := hr
    rw [hround] at hgraph
    change (c.round (orders 0) lattice (first, 5) [] Scalar.one) = some graph at hgraph
    rw [hgraph] at hfailed
    cases hfailed
  obtain ⟨graph, hgraph, hparse⟩ := (houtcome hparsed).1 1 hleast
  rw [hfactor] at hgraph hparse
  exact ⟨⟨Nat.le_refl 2, hlattice⟩, c, hc, graph, hgraph, hparse⟩

end ParseForest.Cascade
