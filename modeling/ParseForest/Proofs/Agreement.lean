import ParseForest.Proofs.Forest.Graph
import ParseForest.Proofs.Posterior.Laws
import ParseForest.Proofs.Posterior.Outside
import ParseForest.Proofs.Posterior.Inside
import ParseForest.Proofs.RuleTable.Read

/-!
# The two parsers agree

The scoring parser has every label that the forest parser has: a constituent is built either by an
application over a shorter span, and then the first tier has its label, or by a unary rule from
another constituent of its span, and then a path of unary rules gets one step longer. Nothing says
the converse when labels are pruned, since a path may lead through a pruned label, or when a table
covers short spans only, since paths are not asked for the span. Without either, both parsers have
the same labels.
-/

namespace ParseForest

variable {V S : Type} [Scalar V] [Score S]

section Labels

variable {order : ClosureOrder} {g : Grammar V} {w : Weighting V S} {o : Options V}
  {lattice : Lattice V} {pruner : Pruner}

variable (order w) in
/-- Every label of the forest parser is in the final tier: constituents below have smaller nodes. -/
theorem has_final_of_mem_cells (n : Nat) : ∀ i j, ∀ c ∈ ForestState.cells g o lattice pruner i j,
    c.node = n →
      ((ScoreState.scored order g w o lattice pruner).final.get i j).has c.label = true := by
  obtain ⟨ledger, hran⟩ := ForestState.exists_ledger g o lattice pruner
  induction n using Nat.strongRecOn with
  | _ n ih =>
    intro i j c hc hn
    obtain ⟨a, hgen, hplace, hbelow⟩ := hran.exists_entry hc
    obtain ⟨pair, hpair, hlabel⟩ := hgen.label
    have hspan := hgen.span
    have hspanLeft := hgen.spanLeft
    have hlabelLeft := hgen.labelLeft
    have hfits := hgen.fits
    rw [hplace] at hspan hspanLeft hlabelLeft hlabel hfits
    rw [ScoreState.has_final_iff order g w o hspan hspanLeft]
    refine ⟨hlabelLeft, ?_⟩
    by_cases hbegins : a.step.parts.Begins (i, j) i j
    · obtain ⟨d, hd, hparts, t, ht, -, hrule⟩ := hfits.exists_unary hbegins hpair
      have hlt : d.node < n := by
        rw [← hn]
        apply hbelow
        rw [hparts]
        exact List.mem_cons_self
      have hbefore := ih d.node hlt i j d hd rfl
      rw [ScoreState.has_final_iff order g w o hspan hspanLeft] at hbefore
      obtain ⟨-, b, m, x, hb, hpath⟩ := hbefore
      have hstep := hpath.step (Grammar.mem_unaryRules ht hrule)
      rw [hlabel] at hstep
      exact ⟨b, m + 1, _, hb, hstep⟩
    · obtain ⟨t, ht, hover, hstate⟩ := hfits
      have hparts := Trail.Along.exists_of_placed
        (fun p q (d : Constituent) l => l ∈ listed (ScoreState.finals order g w o lattice pruner) p q ∧
          d.label = l.label) j a.step.parts fun p q d hd => by
        have hlt := hbelow d (Trail.mem_entries_of_mem_placed hd)
        rw [hn] at hlt
        have hfinal := ih d.node hlt p q d (hover.mem_placed hd).2.2.2 rfl
        exact ⟨⟨p, q, d.label⟩, ScoreState.mem_finals.mpr ⟨rfl, rfl, hfinal⟩, rfl⟩
      obtain ⟨parts, hparts⟩ := hparts
      have hfits := Application.fits_along (fun p q d l hdl => hdl.2) (fun p q d l _ hdl => hdl.1)
        hparts ⟨t, ht, hover, hstate⟩
      rw [hparts.begins_iff] at hbegins
      exact ⟨c.label, 0, Score.one, ⟨hlabelLeft, _, pair, hfits, hbegins, hpair, hlabel⟩,
        UnaryPath.start⟩

theorem exists_constituent_of_fits (hstag : 0 < o.forestStagnation) {i j : Nat}
    (hspan : i < j ∧ j ≤ lattice.size) {a : Application Constituent} {pair : RulePair V}
    (hpair : g.pair? a.rule = some pair)
    (hfits : a.Fits Constituent.label g o lattice
      (listed (ForestState.cells g o lattice .none)) i j) :
    ∃ c ∈ ForestState.cells g o lattice .none i j, c.label = (pair.side o.yieldSource).lhs := by
  obtain ⟨ledger, hran⟩ := ForestState.exists_ledger g o lattice .none
  exact hran.labels hstag ⟨⟨i, j, (pair.side o.yieldSource).lhs⟩, a⟩
    ⟨hspan, rfl, rfl, ⟨pair, hpair, rfl⟩, hfits⟩ (Chart.mem_spansByLength.mpr hspan)

/-- When nothing is pruned and the tables cover all spans, every label of the final tier has a
constituent: a label that is built has one by the shorter spans, and unary rules lead from
constituents to constituents. -/
theorem exists_constituent_of_has_final (hstag : 0 < o.forestStagnation)
    (hfree : ∀ t ∈ g, t.maxSpan = none) (length : Nat) : ∀ i j, j - i = length → ∀ label,
    ((ScoreState.scored order g w o lattice .none).final.get i j).has label = true →
      ∃ c ∈ ForestState.cells g o lattice .none i j, c.label = label := by
  induction length using Nat.strongRecOn with
  | _ length ih =>
    intro i j hlength label hhas
    obtain ⟨hspan, -⟩ := ScoreState.isLeft_of_has_final hhas
    rw [ScoreState.has_final_iff order g w o hspan rfl] at hhas
    obtain ⟨-, b, n, x, hbuilt, hpath⟩ := hhas
    induction hpath with
    | start =>
      obtain ⟨-, a, pair, ⟨t, ht, hover, hstate⟩, hbegins, hpair, hlabel⟩ := hbuilt
      have hparts := Trail.Along.exists_of_placed
        (fun p q (l : SpanLabel) d => d ∈ listed (ForestState.cells g o lattice .none) p q ∧
          l.label = d.label) j a.parts fun p q l hl => by
        have hlt := hover.placed_inside hbegins hl
        obtain ⟨-, -, hmem⟩ := ScoreState.mem_finals.mp (hover.mem_placed hl).2.2.2
        obtain ⟨d, hd, hdl⟩ := ih (q - p) (by omega) p q rfl l.label hmem
        exact ⟨d, hd, hdl.symm⟩
      obtain ⟨parts, hparts⟩ := hparts
      have hfits := Application.fits_along (fun p q l d hld => hld.2) (fun p q l d _ hld => hld.1)
        hparts ⟨t, ht, hover, hstate⟩
      obtain ⟨c, hc, hcl⟩ := exists_constituent_of_fits hstag hspan hpair hfits
      exact ⟨c, hc, hcl.trans hlabel⟩
    | step _ hrule ih' =>
      obtain ⟨d, hd, hdl⟩ := ih'
      obtain ⟨t, ht, hrule⟩ := List.mem_flatMap.mp hrule
      rw [← hdl] at hrule
      have hcov : t.covers (lattice.distanceTable.length i j) = true := by
        rw [RuleTable.covers, hfree t ht]
        rfl
      have hd : d ∈ listed (ForestState.cells g o lattice .none) i j := hd
      obtain ⟨r, hpair, hfits⟩ := Application.exists_fits_of_unary hspan ht hcov hd hrule
      exact exists_constituent_of_fits hstag hspan hpair hfits

end Labels

/-! ## Outcomes -/

inductive Weighting.Product (w : Weighting V S) : S → Prop
  | one : Product w Score.one
  | weight (f : FeatureVector V) : Product w (w f)
  | mul {x y : S} (left : Product w x) (right : Product w y) : Product w (Score.mul x y)

/-- The products of scores are greater than zero. -/
structure Weighting.Positive (w : Weighting V S) : Prop where
  greater : ∀ x, w.Product x → Score.less Score.zero x = true
  nonzero : ∀ x, w.Product x → Score.isZero x = false

section Outcomes

variable {order : ClosureOrder} {g : Grammar V} {w : Weighting V S} {o : Options V}
  {lattice : Lattice V} {pruner : Pruner}

omit [Scalar V] in
theorem Trail.product_arcScore {E : Type} (w : Weighting V S) (lattice : Lattice V)
    (x : Trail E) : w.Product (x.arcScore w lattice) := by
  induction x with
  | start => exact .one
  | entry x p e ih => exact ih
  | arc x p k ih =>
    rw [arcScore]
    cases (lattice.arcsAt p)[k]? with
    | none => exact ih
    | some a => exact ih.mul (.weight a.features)

omit [Scalar V] in
theorem UnaryPath.product {child label : Symbol} {n : Nat} {x : S}
    (h : UnaryPath g w o child n label x) : w.Product x := by
  induction h with
  | start => exact .one
  | step _ _ ih => exact (Weighting.Product.weight _).mul ih

omit [Scalar V] in
theorem Weighting.Product.product {x : S} (h : w.Product x) {xs : List S}
    (hxs : ∀ y ∈ xs, w.Product y) : w.Product (Score.product x xs) := by
  induction xs generalizing x with
  | nil => exact h
  | cons y xs ih =>
    exact ih (h.mul (hxs y List.mem_cons_self)) fun z hz => hxs z (List.mem_cons_of_mem y hz)

namespace ScoreState

omit [Scalar V] in
theorem hereditary_product (hw : w.Positive) :
    Hereditary order g w o lattice pruner fun _ x => w.Product x where
  best _ x y hx hy := by
    rcases hx with rfl | hx
    · rw [Score.best, if_pos (hw.greater y hy)]
      exact hy
    · rcases best_eq x y with h | h
      · rwa [h]
      · rwa [h]
  build _ _ _ _ a _ _ _ _ _ hparts := by
    refine (Weighting.Product.one.product fun y hy => ?_).mul
      ((a.parts.product_arcScore w lattice).mul (.weight _))
    obtain ⟨l, hl, rfl⟩ := List.mem_map.mp hy
    exact hparts l hl
  reach _ _ child label _ y _ _ hx hget := by
    obtain ⟨n, hpath⟩ := (sound_unaryClosureIn g w o child).path label y hget
    exact hx.mul hpath.product

end ScoreState

end Outcomes

/-! ## Parses -/

def ForestParser.labelsAt (p : ForestParser V) (first last : Nat) : Set Symbol :=
  {l | ∃ c ∈ p.state.found.get first last, c.label = l}

def ScoreParser.labelsAt (p : ScoreParser V S) (first last : Nat) : Set Symbol :=
  {l | (p.state.final.get first last).has l = true}

section Parses

variable {order : ClosureOrder} {g : Grammar V} {w : Weighting V S} {o : Options V}
  {lattice : Lattice V} {pruner : Pruner}

omit [Scalar V] in
theorem ScoreParser.parseIn_of_empty (p : ScoreParser V S) (h : lattice.isEmpty = true) :
    p.parseIn order lattice pruner = (p, ⟨false, Chart.new lattice.size⟩) := by
  unfold parseIn
  simp only [h, if_true]

omit [Scalar V] in
theorem ScoreParser.parseIn_eq_of (p : ScoreParser V S) (h : lattice.isEmpty = false) :
    let st := ScoreState.scored order p.grammar p.weighting p.options lattice pruner
    let goalInside := st.insideOf ⟨0, lattice.size, p.options.goal⟩
    p.parseIn order lattice pruner =
      if Score.isZero goalInside then
        (⟨p.grammar, p.weighting, p.options, st⟩, ⟨false, Chart.new lattice.size⟩)
      else (⟨p.grammar, p.weighting, p.options, st.runOutside p.options.goal lattice.size⟩,
        ⟨true, (st.runOutside p.options.goal lattice.size).posteriors goalInside lattice.size⟩) := by
  intro st goalInside
  have hclosure : (closureTable order p.grammar p.weighting p.options).closure order p.grammar
      p.weighting p.options = unaryClosureIn order p.grammar p.weighting p.options :=
    funext (closure_closureTable order p.grammar p.weighting p.options)
  unfold parseIn
  simp only [h, Bool.false_eq_true, if_false, hclosure]
  rfl

omit [Scalar V] in
theorem ScoreParser.parseIn_eq (h : lattice.isEmpty = false) :
    let st := ScoreState.scored order g w o lattice pruner
    let goalInside := st.insideOf ⟨0, lattice.size, o.goal⟩
    (ScoreParser.new g w o).parseIn order lattice pruner =
      if Score.isZero goalInside then (⟨g, w, o, st⟩, ⟨false, Chart.new lattice.size⟩)
      else (⟨g, w, o, st.runOutside o.goal lattice.size⟩,
        ⟨true, (st.runOutside o.goal lattice.size).posteriors goalInside lattice.size⟩) :=
  (ScoreParser.new g w o).parseIn_eq_of h

omit [Scalar V] in
theorem ScoreParser.cell_parseIn (i j : Nat) :
    ((ScoreParser.new g w o).parseIn order lattice pruner).1.state.cell i j =
      (ScoreState.scored order g w o lattice pruner).cell i j := by
  cases hempty : lattice.isEmpty with
  | true =>
    have hnot : ¬(i < j ∧ j ≤ lattice.size) := by
      have hsize := lattice.size_of_isEmpty hempty
      omega
    rw [parseIn_of_empty _ hempty, ScoreState.cell_of_not_span hnot]
    simp only [ScoreParser.new, ScoreState.cell, ScoreState.start, Chart.get_new]
    rfl
  | false =>
    rw [parseIn_eq hempty]
    split
    · rfl
    · obtain ⟨c, hc⟩ := ScoreState.OnlyOutside.runOutside o.goal lattice.size
        (ScoreState.scored order g w o lattice pruner)
      simp only [ScoreState.cell, hc]

omit [Scalar V] in
theorem ScoreParser.labelsAt_parseIn (i j : Nat) :
    ((ScoreParser.new g w o).parseIn order lattice pruner).1.labelsAt i j =
      {l | ((ScoreState.scored order g w o lattice pruner).final.get i j).has l = true} := by
  have hfinal := congrArg ScoreCell.final
    (cell_parseIn i j : ((ScoreParser.new g w o).parseIn order lattice pruner).1.state.cell i j = _)
  exact congrArg (fun m : EdgeMap (UnaryEdge S) => {l | m.has l = true}) hfinal

omit [Scalar V] in
theorem ScoreParser.parsed_parseIn :
    ((ScoreParser.new g w o).parseIn order lattice pruner).2.parsed =
    (!lattice.isEmpty && !Score.isZero ((ScoreState.scored order g w o lattice pruner).insideOf
      ⟨0, lattice.size, o.goal⟩)) := by
  cases hempty : lattice.isEmpty with
  | true =>
    rw [parseIn_of_empty _ hempty]
    rfl
  | false =>
    rw [parseIn_eq hempty]
    split <;> simp [*]

theorem ForestParser.labelsAt_parse (i j : Nat) :
    ((ForestParser.new g o).parse lattice pruner).1.labelsAt i j =
      {l | ∃ c ∈ ForestState.cells g o lattice pruner i j, c.label = l} := by
  cases hempty : lattice.isEmpty with
  | true =>
    rw [ForestState.cells_of_empty hempty]
    simp only [ForestParser.parse, hempty, if_true, ForestParser.labelsAt, ForestParser.new,
      ForestState.start, Chart.get_new]
    rfl
  | false =>
    simp only [ForestParser.parse, hempty, Bool.false_eq_true, if_false]
    rfl

omit [Scalar V] in
theorem ScoreState.isEmpty_of_has_final
    (h : ((scored order g w o lattice pruner).final.get 0 lattice.size).has o.goal = true) :
    lattice.isEmpty = false := by
  have hspan := (isLeft_of_has_final h).1
  rw [← Bool.not_eq_true]
  intro hempty
  have hsize := lattice.size_of_isEmpty hempty
  omega

omit [Scalar V] in
theorem ScoreParser.isEmpty_of_parsed_parseIn
    (h : ((ScoreParser.new g w o).parseIn order lattice pruner).2.parsed = true) :
    lattice.isEmpty = false := by
  rw [parsed_parseIn, Bool.and_eq_true, Bool.not_eq_true'] at h
  exact h.1

omit [Scalar V] in
theorem ScoreParser.parsed_parseIn_of_has (hw : w.Positive)
    (h : ((ScoreState.scored order g w o lattice pruner).final.get 0 lattice.size).has o.goal =
      true) :
    ((ScoreParser.new g w o).parseIn order lattice pruner).2.parsed = true := by
  rw [parsed_parseIn, ScoreState.isEmpty_of_has_final h,
    hw.nonzero _ ((ScoreState.hereditary_product hw).insideOf h)]
  rfl

omit [Scalar V] in
theorem ScoreParser.has_of_parsed_parseIn (hzero : Score.isZero (Score.zero : S) = true)
    (h : ((ScoreParser.new g w o).parseIn order lattice pruner).2.parsed = true) :
    ((ScoreState.scored order g w o lattice pruner).final.get 0 lattice.size).has o.goal = true := by
  rw [parsed_parseIn, Bool.and_eq_true, Bool.not_eq_true', Bool.not_eq_true'] at h
  rw [← ScoreState.isSome_inside_iff, ← Bool.not_eq_false]
  intro hnone
  rw [Option.isSome_eq_false_iff, Option.isNone_iff_eq_none] at hnone
  rw [ScoreState.insideOf, scoreOf, hnone, Option.getD_none, hzero] at h
  cases h.2

end Parses

/-- The forest parser has no labels that the scoring parser does not have, and with a weighting
whose products are greater than zero a valid forest means that the goal is parsed. When nothing is
pruned and all tables cover all spans, both have the same labels and the same outcome. -/
theorem ForestParser.parse_agrees (order : ClosureOrder) (g : Grammar V) (w : Weighting V S)
    (o : Options V) (lattice : Lattice V) (pruner : Pruner) (hstag : 0 < o.forestStagnation) :
    let forest := (ForestParser.new g o).parse lattice pruner
    let scored := (ScoreParser.new g w o).parseIn order lattice pruner
    (∀ i j, forest.1.labelsAt i j ⊆ scored.1.labelsAt i j) ∧
    (w.Positive → forest.2.isValid = true → scored.2.parsed = true) ∧
    (pruner = .none → (∀ t ∈ g, t.maxSpan = none) →
      (∀ i j, forest.1.labelsAt i j = scored.1.labelsAt i j) ∧
      (w.Positive → Score.isZero (Score.zero : S) = true →
        (forest.2.isValid = true ↔ scored.2.parsed = true))) := by
  intro composed scored
  have hsubset : ∀ i j, composed.1.labelsAt i j ⊆ scored.1.labelsAt i j := by
    intro i j label hlabel
    rw [ForestParser.labelsAt_parse] at hlabel
    rw [ScoreParser.labelsAt_parseIn]
    obtain ⟨c, hc, rfl⟩ := hlabel
    exact has_final_of_mem_cells order w c.node i j c hc rfl
  have hvalid : composed.2.isValid = true ↔
      ∃ c ∈ ForestState.cells g o lattice pruner 0 lattice.size, c.label = o.goal :=
    isValid_forest_iff
  have hparsed : w.Positive → composed.2.isValid = true → scored.2.parsed = true := by
    intro hw h
    obtain ⟨c, hc, hlabel⟩ := hvalid.mp h
    have hhas := has_final_of_mem_cells order w c.node 0 lattice.size c hc rfl
    rw [hlabel] at hhas
    exact ScoreParser.parsed_parseIn_of_has hw hhas
  refine ⟨hsubset, hparsed, ?_⟩
  rintro rfl hfree
  refine ⟨fun i j => Set.Subset.antisymm (hsubset i j) fun label hlabel => ?_, fun hw hzero => ?_⟩
  · rw [ScoreParser.labelsAt_parseIn] at hlabel
    rw [ForestParser.labelsAt_parse]
    exact exists_constituent_of_has_final hstag hfree _ i j rfl label hlabel
  · -- the goal label has a constituent because it is in the final tier
    refine ⟨hparsed hw, fun h => hvalid.mpr ?_⟩
    have hhas := ScoreParser.has_of_parsed_parseIn hzero h
    exact exists_constituent_of_has_final hstag hfree _ 0 lattice.size rfl _ hhas

omit [Scalar V] in
theorem Weighting.positive_uniform [LinearOrder S] [LawfulScore S]
    (h : (Score.zero : S) < Score.one) : (Weighting.uniform : Weighting V S).Positive := by
  have hone : ∀ x, (Weighting.uniform : Weighting V S).Product x → x = Score.one := by
    intro x hx
    induction hx with
    | one => rfl
    | weight f => rfl
    | mul _ _ ihl ihr => rw [ihl, ihr, LawfulScore.one_mul]
  refine ⟨fun x hx => ?_, fun x hx => ?_⟩
  · rw [hone x hx, LawfulScore.less_iff]
    exact h
  · rw [hone x hx, LawfulScore.isZero_eq_false_iff]
    exact h.ne'

/-- Two unary rules that lead back to each other, with exact probabilities. -/
theorem ForestParser.parse_agrees_of_cycle :
    let g := [RuleTable.ofText "[S] ||| [A,1]\n[A] ||| [S,1]\n[A] ||| a"]
    let w : Weighting Float ℚ≥0 := Weighting.uniform
    let forest := (ForestParser.new g Options.standard).parse (Lattice.ofWords [⟨"a"⟩]) .none
    let scored := (ScoreParser.new g w Options.standard).parseIn .arrival
      (Lattice.ofWords [⟨"a"⟩]) .none
    (0 < (Options.standard : Options Float).forestStagnation ∧ (∀ t ∈ g, t.maxSpan = none) ∧
      w.Positive ∧ Score.isZero (Score.zero : ℚ≥0) = true) ∧
        (∀ i j, forest.1.labelsAt i j = scored.1.labelsAt i j) ∧
        forest.2.isValid = true ∧ scored.2.parsed = true := by
  intro g w
  have hfree : ∀ t ∈ g, t.maxSpan = none := by
    intro t ht
    rw [List.mem_singleton.mp ht]
    decide +kernel
  have hpositive : w.Positive := Weighting.positive_uniform (by decide +kernel)
  have hzero : Score.isZero (Score.zero : ℚ≥0) = true := by decide +kernel
  have hparsed : ((ScoreParser.new g w Options.standard).parseIn .arrival
      (Lattice.ofWords [⟨"a"⟩]) .none).2.parsed = true := by decide +kernel
  have hagree := ForestParser.parse_agrees .arrival g w Options.standard
    (Lattice.ofWords [⟨"a"⟩]) .none Nat.one_pos
  obtain ⟨hlabels, houtcome⟩ := hagree.2.2 rfl hfree
  have hvalid := (houtcome hpositive hzero).mpr hparsed
  exact ⟨⟨Nat.one_pos, hfree, hpositive, hzero⟩, hlabels, hvalid, hparsed⟩

/-- Scores with one that is not a number: it is not zero, and no product with it is, but it is not
greater than zero either, so the goal is not parsed. -/
theorem ForestParser.not_parsed_of_nan :
    let _ : Score (Option Nat) :=
      { zero := some 0
        one := some 1
        add := fun a _ => a
        mul := fun a b => a.bind fun x => b.map fun y => x * y
        div := fun a _ => a
        less := fun a b => a.any fun x => b.any fun y => x < y
        isZero := fun a => a == some 0 }
    let g := [RuleTable.ofText "[S] ||| a"]
    let w : Weighting Float (Option Nat) := fun _ => none
    let forest := (ForestParser.new g Options.standard).parse (Lattice.ofWords [⟨"a"⟩]) .none
    let scored := (ScoreParser.new g w Options.standard).parse (Lattice.ofWords [⟨"a"⟩]) .none
    ¬((∀ x, w.Product x → Score.isZero x = false) → forest.2.isValid = true →
      scored.2.parsed = true) := by
  intro inst g w forest scored h
  have hnonzero : ∀ x, w.Product x → x = none ∨ x = some 1 := by
    intro x hx
    induction hx with
    | one => exact Or.inr rfl
    | weight f => exact Or.inl rfl
    | mul _ _ ihl ihr =>
      rcases ihl with rfl | rfl
      · exact Or.inl rfl
      · rcases ihr with rfl | rfl
        · exact Or.inl rfl
        · exact Or.inr rfl
  have hvalid : forest.2.isValid = true := by
    refine isValid_forest_iff.mpr ⟨⟨0, ⟨"[S]"⟩, 0⟩, ?_, rfl⟩
    decide +kernel
  have hparsed : scored.2.parsed = false := by decide +kernel
  rw [h (fun x hx => ?_) hvalid] at hparsed
  · cases hparsed
  · rcases hnonzero x hx with rfl | rfl
    · rfl
    · rfl

end ParseForest
