import Mathlib.Data.Int.Log
import Mathlib.Data.Rat.Floor
import ParseForest.Proofs.Cascade.Rounds
import ParseForest.Proofs.Features
import ParseForest.Proofs.Forest.Pruned

/-!
# Cascades with thresholds of zero

A cutoff of zero is below every score that a pass leaves, unless numbers get out of hand. Then the
pruner of the pass keeps every label that has a score there, or whose coarser form has one.

A cascade of two copies of a grammar makes the forest of the grammar itself: the labels that its
first pass leaves are the useful ones, and sorting drops all others.
-/

namespace ParseForest

variable {V S : Type} [Scalar V] [LogScale V S]

/-- Scores whose products are greater than zero and which a threshold of zero does not reach. -/
structure Weighting.Lossless (w : Weighting V S) : Prop where
  positive : w.Positive
  isZero : Score.isZero (Score.zero : S) = true
  clears : ∀ x, w.Attained x →
    Score.less x (LogScale.ofProbability (Scalar.zero * Scalar.one : V)) = false

namespace Cascade

/-! ## Making and running a cascade -/

section Making

omit [LogScale V S]

variable [NumberText V]

theorem eq_of_ofGrammars {grammars : List (Grammar V)} {thresholds : List V}
    {w : Weighting V S} {o : Options V} {c : Cascade V S}
    (h : ofGrammars grammars thresholds w o = .ok c) :
    ∃ finest, grammars.getLast? = some finest ∧ thresholds.length + 1 = grammars.length ∧
      c = ⟨(grammars.dropLast.map (shareAll finest)).zip thresholds, finest, w, o⟩ := by
  unfold ofGrammars at h
  split at h
  · cases h
  · rename_i finest hlast
    split at h
    · cases h
    · rename_i hcount
      split at h
      · cases h
      · cases h
        exact ⟨finest, hlast, not_not.mp hcount, rfl⟩

omit [Scalar V] [NumberText V] in
theorem share_self (g : Grammar V) (kind : TableKind) : share g g kind = g := by
  unfold share
  split
  · rename_i table hfind
    unfold Grammar.findKind? at hfind
    have hkind := List.find?_some hfind
    have hhas : g.hasKind kind = true :=
      List.any_eq_true.mpr ⟨table, List.mem_of_find?_eq_some hfind, hkind⟩
    rw [if_pos hhas]
  · rfl

omit [Scalar V] [NumberText V] in
theorem shareAll_self (g : Grammar V) : shareAll g g = g := by
  simp only [shareAll, List.foldl_cons, List.foldl_nil, share_self]

end Making

theorem round_of_passes {order : (level : Nat) → ClosureOrder} {c : Cascade V S}
    {lattice : Lattice V} {first : ScoreChart S × V} {rest : List (Grammar V × V)} {factor : V}
    {scores : ScoreChart S} {threshold : V}
    (hpasses : c.scorePasses order lattice factor 1 first rest = some (scores, threshold))
    (hvalid : (forest c.finest c.options lattice (prunerOf scores (threshold * factor)
      (finestCoarsening (rest.length + 1)))).isValid = true) :
    c.round order lattice first rest factor = some (forest c.finest c.options lattice
      (prunerOf scores (threshold * factor) (finestCoarsening (rest.length + 1)))) := by
  rw [round, hpasses]
  exact if_pos hvalid

theorem parseIn_of_parsed (orders : (round level : Nat) → ClosureOrder) {c : Cascade V S}
    {lattice : Lattice V} (hlattice : lattice.isEmpty = false) {coarsest : Grammar V}
    {threshold : V} {rest : List (Grammar V × V)}
    (hcoarse : c.coarse = (coarsest, threshold) :: rest)
    (hparsed :
      (posteriorsIn (orders 0 0) coarsest c.weighting c.options lattice .none).parsed = true) :
    c.parseIn orders lattice =
      c.relax (c.attempt orders lattice
        ((posteriorsIn (orders 0 0) coarsest c.weighting c.options lattice .none).scores, threshold)
          rest) c.options.maxRelaxations 0 (ForestParser.new c.finest c.options) Scalar.one := by
  simp only [parseIn, hlattice, Bool.false_eq_true, if_false, hcoarse, hparsed, if_true]

theorem parseIn_of_round (orders : (round level : Nat) → ClosureOrder) {c : Cascade V S}
    {lattice : Lattice V} {coarsest : Grammar V} {threshold : V} {rest : List (Grammar V × V)}
    (hcoarse : c.coarse = (coarsest, threshold) :: rest)
    (hparsed :
      (posteriorsIn (orders 0 0) coarsest c.weighting c.options lattice .none).parsed = true)
    {graph : Hypergraph V} (hround : c.round (orders 0) lattice
      ((posteriorsIn (orders 0 0) coarsest c.weighting c.options lattice .none).scores, threshold)
        rest Scalar.one = some graph) :
    c.parseIn orders lattice = ⟨graph, 0, Scalar.one⟩ := by
  rw [parseIn_of_parsed orders (ScoreParser.isEmpty_of_parsed_parseIn hparsed) hcoarse hparsed]
  exact (composes_new c).relax_of_some hround _

theorem parseIn_of_not_parsed (orders : (round level : Nat) → ClosureOrder) {c : Cascade V S}
    {lattice : Lattice V} {coarsest : Grammar V} {threshold : V} {rest : List (Grammar V × V)}
    (hcoarse : c.coarse = (coarsest, threshold) :: rest)
    (hparsed :
      (posteriorsIn (orders 0 0) coarsest c.weighting c.options lattice .none).parsed = false) :
    c.parseIn orders lattice = ⟨Hypergraph.empty, 0, Scalar.one⟩ := by
  simp only [parseIn, hcoarse, hparsed, Bool.false_eq_true, if_false, ite_self]

/-- The pruner of a pass keeps a label that the pass has left, and one whose coarser form it has. -/
theorem keeps_prunerOf {w : Weighting V S} (hw : w.Lossless) {scores : ScoreChart S}
    (hattained : ∀ i j label x, LabelMap.get? (scores.get i j) label = some x → w.Attained x)
    {coarsening : Coarsening} {l : SpanLabel} {found : Symbol}
    (hfound : found = l.label ∨ found = coarsening.apply l.label)
    (hsome : (LabelMap.get? (scores.get l.first l.last) found).isSome = true) :
    (prunerOf scores (Scalar.zero * Scalar.one : V) coarsening).Keeps l := by
  obtain ⟨x, hx⟩ := Option.isSome_iff_exists.mp hsome
  refine ⟨?_, ?_⟩
  · change (scores.get l.first l.last).isEmpty = false
    cases hcell : scores.get l.first l.last with
    | nil =>
      rw [hcell] at hx
      cases hx
    | cons _ _ => rfl
  · change Pruner.belowCutoff (scores.get l.first l.last) _ coarsening l.label = false
    rw [Pruner.belowCutoff]
    cases hexact : LabelMap.get? (scores.get l.first l.last) l.label with
    | some y => exact hw.clears y (hattained _ _ _ _ hexact)
    | none =>
      have hcoarse : found = coarsening.apply l.label := hfound.resolve_left fun heq => by
        rw [heq, hexact] at hx
        cases hx
      rw [hcoarse] at hx
      simp only [hx]
      exact hw.clears x (hattained _ _ _ _ hx)

/-! ## Two copies of a grammar -/

section Copies

variable {order : ClosureOrder} {g : Grammar V} {w : Weighting V S} {o : Options V}
  {lattice : Lattice V}

theorem keepsUseful_prunerOf (hw : w.Lossless) (coarsening : Coarsening) :
    ForestState.KeepsUseful g o lattice
      (prunerOf (posteriorsIn order g w o lattice .none).scores (Scalar.zero * Scalar.one : V)
        coarsening) :=
  fun _ hl => keeps_prunerOf hw (fun _ _ _ _ hx => attained_posterior hw.isZero hx) (Or.inl rfl)
    (hl.isSome_posterior order hw.positive hw.isZero).2

theorem exists_made_of_parsed (hfree : ∀ t ∈ g, t.maxSpan = none) (hw : w.Lossless)
    (hstag : 0 < o.forestStagnation) (h : (posteriorsIn order g w o lattice .none).parsed = true) :
    ∃ d : Derivation, d.Made g o lattice .none ∧ d.place = ⟨0, lattice.size, o.goal⟩ := by
  have hhas := ScoreParser.has_of_parsed_parseIn hw.isZero h
  exact exists_made_of_isValid (isValid_forest_iff.mpr
    (exists_constituent_of_has_final hstag hfree lattice.size 0 lattice.size rfl o.goal hhas))

theorem forest_eq_empty_of_not_parsed (hw : w.Lossless) {pruner : Pruner}
    (h : (posteriorsIn order g w o lattice pruner).parsed = false) :
    forest g o lattice pruner = Hypergraph.empty := by
  refine forest_of_nil (List.eq_nil_iff_forall_not_mem.mpr fun e he => ?_)
  obtain ⟨he, hlabel⟩ := ForestState.mem_goalCells.mp he
  have hhas := has_final_of_mem_cells order w e.node 0 lattice.size e he rfl
  rw [hlabel] at hhas
  exact Bool.false_ne_true (h.symm.trans (ScoreParser.parsed_parseIn_of_has hw.positive hhas))

end Copies

/-- A cascade of two copies of a grammar has a forest if the grammar alone has one, without a
relaxation. The two are the same when no chain of unary rules is longer than the closure of a span
may stagnate; otherwise labels that are of no use may prolong the closures of the grammar alone. -/
theorem parse_copies [NumberText V] {g : Grammar V} (hfree : ∀ t ∈ g, t.maxSpan = none)
    {w : Weighting V S} (hw : w.Lossless) {o : Options V} (hstag : 0 < o.forestStagnation)
    {c : Cascade V S} (hc : ofGrammars [g, g] [Scalar.zero] w o = .ok c)
    (orders : (round level : Nat) → ClosureOrder) (lattice : Lattice V) :
    let result := c.parseIn orders lattice
    let direct := forest g o lattice .none
    result.relaxations = 0 ∧ result.factor = Scalar.one ∧ result.graph.isValid = direct.isValid ∧
      (g.ChainsWithin o o.forestStagnation → result.graph.Isomorphic direct) := by
  intro result direct
  obtain ⟨finest, hlast, -, rfl⟩ := eq_of_ofGrammars hc
  obtain rfl : g = finest := Option.some.inj hlast
  let pruner := prunerOf (posteriorsIn (orders 0 0) g w o lattice .none).scores
    (Scalar.zero * Scalar.one : V) (finestCoarsening 1)
  -- the first pass has a score for every useful label, so its pruner keeps them all
  have hkeeps : ForestState.KeepsUseful g o lattice pruner := keepsUseful_prunerOf hw _
  cases hparsed : (posteriorsIn (orders 0 0) g w o lattice .none).parsed with
  | true =>
    obtain ⟨d, hd, hgoal⟩ := exists_made_of_parsed hfree hw hstag hparsed
    have hvalid : direct.isValid = true := isValid_of_made hstag hd hgoal
    have hpruned : (forest g o lattice pruner).isValid = true :=
      isValid_of_made hstag (hd.of_keeps pruner fun l hl => hkeeps l ⟨d, hd, hgoal, hl⟩) hgoal
    have hresult : result = ⟨forest g o lattice pruner, 0, Scalar.one⟩ := by
      refine parseIn_of_round orders rfl (by rwa [shareAll_self]) ?_
      rw [shareAll_self]
      exact round_of_passes rfl hpruned
    rw [hresult]
    exact ⟨rfl, rfl, hpruned.trans hvalid.symm, fun hchains =>
      isomorphic_forest hchains hkeeps fun _ _ => ⟨rfl, rfl⟩⟩
  | false =>
    have hdirect : direct = Hypergraph.empty := forest_eq_empty_of_not_parsed hw hparsed
    have hresult : result = ⟨Hypergraph.empty, 0, Scalar.one⟩ :=
      parseIn_of_not_parsed orders rfl (by rwa [shareAll_self])
    rw [hresult, hdirect]
    exact ⟨rfl, rfl, rfl, fun _ => Hypergraph.isomorphic_refl _⟩

end Cascade

/-! ## Exact numbers -/

instance : NumberText ℚ where
  render := toString
  read cs :=
    match Number.Decimal.read? cs with
    | some d => .ok (d.digits * 10 ^ d.scale)
    | none => .error .malformed

/-- Exact probabilities; their logarithms have the base two and are rounded down. -/
instance : LogScale ℚ ℚ≥0 where
  toScore := inferInstance
  ofLog x := 2 ^ ⌊x⌋
  toLog a := Int.log 2 (a : ℚ)
  ofProbability := Rat.toNNRat

theorem Weighting.Positive.lossless {w : Weighting ℚ ℚ≥0} (h : w.Positive) : w.Lossless where
  positive := h
  isZero := rfl
  clears x _ := by
    have hcutoff : (LogScale.ofProbability (Scalar.zero * Scalar.one : ℚ) : ℚ≥0) = 0 := by
      decide +kernel
    rw [hcutoff]
    exact decide_eq_false (not_lt_of_ge zero_le)

namespace Cascade

/-- A unary rule, and a label that is of no use. -/
theorem parse_copies_of_chain :
    let g : Grammar ℚ := [RuleTable.ofText "[S] ||| [A,1]\n[A] ||| a\n[X] ||| a"]
    let w : Weighting ℚ ℚ≥0 := Weighting.uniform
    let o := Options.ofGoal (1 / 10) Options.defaultGoal
    let lattice := Lattice.ofWords [⟨"a"⟩]
    ((∀ t ∈ g, t.maxSpan = none) ∧ w.Lossless ∧ 0 < o.forestStagnation) ∧
      ∃ c, ofGrammars [g, g] [Scalar.zero] w o = .ok c ∧
        g.ChainsWithin o o.forestStagnation ∧ (c.parse lattice).relaxations = 0 ∧
          (c.parse lattice).graph.Isomorphic (forest g o lattice .none) := by
  intro g w o lattice
  have hfree : ∀ t ∈ g, t.maxSpan = none := by decide +kernel
  have hw : w.Lossless := (Weighting.positive_uniform (by decide +kernel)).lossless
  have hchains : g.ChainsWithin o o.forestStagnation :=
    Grammar.chainsWithin_one (List.forall_mem_map.mpr (by decide +kernel))
  obtain ⟨hrelaxations, -, -, hiso⟩ := parse_copies hfree hw Nat.one_pos
    (c := ⟨[(shareAll g g, Scalar.zero)], g, w, o⟩) rfl (fun _ _ => .arrival) lattice
  exact ⟨⟨hfree, hw, Nat.one_pos⟩, _, rfl, hchains, hrelaxations, hiso hchains⟩

open ForestState in
/-- A unary rule that derives its own label has one more level in the forest of the grammar alone,
where the closure makes a second round for a label that is of no use. -/
theorem not_isomorphic_of_useless :
    let g : Grammar ℚ := [RuleTable.ofText "[S] ||| a\n[S] ||| [S,1]\n[X] ||| a\n[Y] ||| [X,1]"]
    let w : Weighting ℚ ℚ≥0 := Weighting.uniform
    let o := Options.ofGoal (1 / 10) Options.defaultGoal
    let lattice := Lattice.ofWords [⟨"a"⟩]
    (∀ t ∈ g, t.maxSpan = none) ∧ w.Lossless ∧
      ∃ c, ofGrammars [g, g] [Scalar.zero] w o = .ok c ∧
        ¬(c.parse lattice).graph.Isomorphic (forest g o lattice .none) := by
  intro g w o lattice
  have hw : w.Lossless := (Weighting.positive_uniform (by decide +kernel)).lossless
  let coarsest := shareAll g g
  let c : Cascade ℚ ℚ≥0 := ⟨[(coarsest, Scalar.zero)], g, w, o⟩
  have hc : ofGrammars [g, g] [Scalar.zero] w o = .ok c := rfl
  have hfree : ∀ t ∈ g, t.maxSpan = none := by decide +kernel
  refine ⟨hfree, hw, c, hc, fun hiso => ?_⟩
  let pruner := prunerOf (posteriorsIn .arrival coarsest w o lattice .none).scores
    (Scalar.zero * Scalar.one : ℚ) (finestCoarsening 1)
  have hsplit : Chart.spansByLength lattice.size = [] ++ [(0, lattice.size)] := rfl
  have hdirect : (goalCells g o lattice .none).length = 3 :=
    (perm_goalCells hsplit rfl).length_eq.trans (by decide +kernel)
  have hskip : pruner.skipsSpan 0 lattice.size = false := by decide +kernel
  have hpruned : (goalCells g o lattice pruner).length = 2 :=
    (perm_goalCells hsplit hskip).length_eq.trans (by decide +kernel)
  have hnodes : (run g o lattice pruner).graph.nodes.size = 2 := by decide +kernel
  have hne : goalCells g o lattice pruner ≠ [] := fun hnil => by
    rw [hnil] at hpruned
    cases hpruned
  have hne' : goalCells g o lattice .none ≠ [] := fun hnil => by
    rw [hnil] at hdirect
    cases hdirect
  have hvalid : (forest g o lattice pruner).isValid = true := isValid_forest_iff_ne_nil.mpr hne
  have hparsed : (posteriorsIn .arrival coarsest w o lattice .none).parsed = true := by
    decide +kernel
  have hcoarse : c.coarse = [(coarsest, Scalar.zero)] := rfl
  have hround : c.round (fun _ => .arrival) lattice
      ((posteriorsIn .arrival coarsest w o lattice .none).scores, Scalar.zero) [] Scalar.one =
        some (forest g o lattice pruner) := round_of_passes rfl hvalid
  have hparse : c.parse lattice = ⟨forest g o lattice pruner, 0, Scalar.one⟩ :=
    parseIn_of_round (fun _ _ => .arrival) hcoarse hparsed hround
  rw [hparse] at hiso
  have hsmall := (size_forest hne).2
  have hlarge := (size_forest hne').1
  have heq : (forest g o lattice pruner).nodes.size = (forest g o lattice .none).nodes.size :=
    hiso.size_eq
  rw [hdirect, ← heq] at hlarge
  rw [hnodes] at hsmall
  exact absurd (Nat.lt_of_lt_of_le hlarge hsmall) (Nat.lt_irrefl 3)

end Cascade

end ParseForest
