import ParseForest.Proofs.Posterior.Around
import ParseForest.Proofs.Posterior.Chart

/-!
# Exact posteriors

With exact scores, unary rules that score at most one, and closures that may go on for as many
rounds as there are labels, an inside score is the best score of a derivation of its label, and an
outside score is the best score of what stands around it. So the posterior of a label is the best
score of a derivation of the goal that uses it, over the best score of any derivation of the goal.
-/

namespace ParseForest

variable {V S : Type} [Score S] [LinearOrder S] [LawfulScore S]

def Grammar.UnaryAtMostOne (g : Grammar V) (w : Weighting V S) : Prop :=
  ∀ pair ∈ g.pairs, ∀ s ∈ pair.source.rhs, pair.source.rhs = [s] → s.isNonTerminal = true →
    w pair.features ≤ Score.one

section Closures

variable {order : ClosureOrder} {g : Grammar V} {w : Weighting V S} {o : Options V}

omit [LawfulScore S] in
theorem shrinking_of_unaryAtMostOne (hlegible : ∀ t ∈ g, t.Legible) (hunary : g.UnaryAtMostOne w)
    {child : Symbol} (hchild : child ∈ g.leftSides o) : Shrinking g w o child := by
  have hleft : ∀ pair ∈ g.pairs, (pair.side o.yieldSource).lhs.isNonTerminal = true := by
    intro pair hpair
    obtain ⟨t, ht, hpair⟩ := List.mem_flatMap.mp hpair
    obtain ⟨s, hpair⟩ := RuleTable.exists_mem_rulesAt hpair
    have haligned := (hlegible t ht).aligned s pair hpair
    rw [haligned.side]
    exact haligned.2
  intro n label score hpath pair hpair
  have hlabel : label.isNonTerminal = true := by
    cases hpath with
    | start =>
      obtain ⟨pair', hpair', rfl⟩ := List.mem_map.mp hchild
      exact hleft pair' hpair'
    | step _ rule => exact hleft _ (Grammar.mem_pairs_of_mem_unaryRules rule)
  obtain ⟨t, ht, hrule⟩ := List.mem_flatMap.mp hpair
  obtain ⟨s, hrhs, hs⟩ := (hlegible t ht).source_of_mem_unaryRules hrule
  refine hunary pair (Grammar.mem_pairs_of_mem_unaryRules hpair) s (hrhs ▸ List.mem_cons_self)
    hrhs ?_
  rw [← Symbol.isNonTerminal_unindexed, hs, hlabel]

theorem estimates_self (hlegible : ∀ t ∈ g, t.Legible) (hunary : g.UnaryAtMostOne w)
    (hstag : (g.leftSides o).dedup.length ≤ o.scoreStagnation) :
    Estimates order g o w w fun x a => a ≤ x where
  zero := (LawfulScore.isZero_iff _).mpr rfl
  one := le_refl _
  weight _ := le_refl _
  mul hx hy := LawfulScore.mul_le_mul hx hy
  keep hx _ := by
    rw [LawfulScore.best_eq_max]
    exact le_max_of_le_left hx
  take _ hy := by
    rw [LawfulScore.best_eq_max]
    exact le_max_of_le_right hy
  nonzero hx ha := (LawfulScore.isZero_eq_false_iff _).mpr (LawfulScore.nonzero_of_le ha hx)
  closure child hchild _ _ _ hpath := by
    refine dominates_unaryClosureIn (shrinking_of_unaryAtMostOne hlegible hunary hchild) ?_ hpath
    rwa [List.dedup_cons_of_mem hchild]

end Closures

section Sound

open ScoreState

variable {order : ClosureOrder} {g : Grammar V} {w : Weighting V S} {o : Options V}
  {lattice : Lattice V} (hfree : ∀ t ∈ g, t.maxSpan = none)
include hfree

omit [LinearOrder S] [LawfulScore S] in
theorem Derivation.Made.exists_unary {d : Derivation} (hd : d.Made g o lattice .none)
    {pair : RulePair V} (hpair : pair ∈ g.unaryRules d.place.label) :
    ∃ rule, g.pair? rule = some pair ∧
      (Derivation.node ⟨d.place.first, d.place.last, (pair.side o.yieldSource).lhs⟩ rule
        (.entry .start d.place.first d)).Made g o lattice .none := by
  obtain ⟨t, ht, hrule⟩ := List.mem_flatMap.mp hpair
  have hcov : t.covers (lattice.distanceTable.length d.place.first d.place.last) = true := by
    rw [RuleTable.covers, hfree t ht]
    rfl
  have hat : d ∈ Trail.placedAt Derivation.place d.place.first d.place.last := ⟨rfl, rfl⟩
  obtain ⟨rule, hnamed, hfits⟩ : ∃ rule, g.pair? rule = some pair ∧
      Application.Fits (fun d => (Derivation.place d).label) g o lattice
        (Trail.placedAt Derivation.place) d.place.first d.place.last
        ⟨rule, .entry .start d.place.first d⟩ :=
    Application.exists_fits_of_unary hd.span ht hcov hat hrule
  refine ⟨rule, hnamed, .node hd.span rfl rfl hnamed rfl hfits fun e he => ?_⟩
  rw [List.mem_singleton.mp he]
  exact hd

theorem Derivation.Made.exists_path {d : Derivation} (hd : d.Made g o lattice .none) {n : Nat}
    {label : Symbol} {x : S} (hpath : UnaryPath g w o d.place.label n label x) :
    ∃ e : Derivation, e.Made g o lattice .none ∧ e.place = ⟨d.place.first, d.place.last, label⟩ ∧
      e.score g w lattice = Score.mul (d.score g w lattice) x := by
  induction hpath with
  | start => exact ⟨d, hd, rfl, (LawfulScore.mul_one _).symm⟩
  | @step n label x pair _ hrule ih =>
    obtain ⟨e, he, hplace, hscore⟩ := ih
    have hrule' : pair ∈ g.unaryRules e.place.label := by rwa [hplace]
    obtain ⟨rule, hnamed, hmade⟩ := he.exists_unary hfree hrule'
    rw [hplace] at hmade
    refine ⟨_, hmade, rfl, ?_⟩
    rw [Derivation.score_unary hnamed, hscore]
    ac_rfl

theorem Derivation.Made.below_path {d : Derivation} (hd : d.Made g o lattice .none) {n : Nat}
    {label : Symbol} {x : S} (hpath : UnaryPath g w o d.place.label n label x) {y : S}
    (hcontext : Context g w o lattice .none ⟨d.place.first, d.place.last, label⟩ y) :
    Context g w o lattice .none d.place (Score.mul y x) := by
  induction hpath generalizing y with
  | start => rwa [LawfulScore.mul_one]
  | @step n label x pair hbefore hrule ih =>
    obtain ⟨e, he, hplace, -⟩ := hd.exists_path hfree hbefore
    have hrule' : pair ∈ g.unaryRules e.place.label := by rwa [hplace]
    obtain ⟨rule, hnamed, hmade⟩ := he.exists_unary hfree hrule'
    have hplaces : e.place.first = d.place.first ∧ e.place.last = d.place.last := by
      rw [hplace]
      exact ⟨rfl, rfl⟩
    rw [← hplaces.1, ← hplaces.2] at hcontext
    have hpart : (Trail.entry .start e.place.first e).entries = [] ++ e :: [] := rfl
    have hstep := Context.step hcontext hmade hpart
    rw [hplace] at hstep
    have hbelow := ih hstep
    rw [Trail.ownScore_unary hnamed] at hbelow
    change Context g w o lattice .none d.place
      (Score.mul (Score.mul y (Score.mul Score.one (w pair.features))) x) at hbelow
    rwa [LawfulScore.one_mul, LawfulScore.mul_assoc] at hbelow

omit [LinearOrder S] [LawfulScore S] hfree in
theorem made_of_fits {i j : Nat} (hspan : i < j ∧ j ≤ lattice.size)
    {a : Application SpanLabel} {pair : RulePair V}
    (hfits : a.Fits SpanLabel.label g o lattice (listed (finals order g w o lattice .none)) i j)
    (hnamed : g.pair? a.rule = some pair) {f : SpanLabel → Derivation}
    (hf : ∀ l ∈ a.parts.entries, (f l).Made g o lattice .none ∧ (f l).place = l) :
    (Derivation.node ⟨i, j, (pair.side o.yieldSource).lhs⟩ a.rule (a.parts.map f)).Made g o
      lattice .none := by
  refine .node hspan rfl rfl hnamed rfl ?_ fun d hd => ?_
  · obtain ⟨t, ht, hover, hstate⟩ := hfits
    have halong : Trail.Along (fun p q l (d : Derivation) =>
        d ∈ Trail.placedAt Derivation.place p q ∧ l.label = d.place.label) j a.parts
          (a.parts.map f) := by
      refine Trail.Along.of_map j a.parts fun p q l hl => ?_
      have hmem := Trail.mem_entries_of_mem_placed hl
      obtain ⟨hp, hq, -⟩ := mem_finals.mp (hover.mem_placed hl).2.2.2
      rw [Trail.placedAt, Set.mem_ofPred_eq, (hf l hmem).2]
      exact ⟨⟨hp, hq⟩, rfl⟩
    exact Application.fits_along (fun p q l d hld => hld.2) (fun p q l d _ hld => hld.1) halong
      ⟨t, ht, hover, hstate⟩
  · rw [Trail.entries_map] at hd
    obtain ⟨l, hl, rfl⟩ := List.mem_map.mp hd
    exact (hf l hl).1

omit [Score S] [LinearOrder S] [LawfulScore S] hfree in
theorem exists_split_of_getElem? {A : Type} {l : List A} {k : Nat} {t : A} (h : l[k]? = some t) :
    ∃ front back, l = front ++ t :: back ∧ l.eraseIdx k = front ++ back := by
  obtain ⟨hk, ht⟩ := List.getElem?_eq_some_iff.mp h
  refine ⟨l.take k, l.drop (k + 1), ?_, List.eraseIdx_eq_take_drop_succ l k⟩
  rw [← ht, ← List.drop_eq_getElem_cons hk, List.take_append_drop]

omit [LinearOrder S] [LawfulScore S] hfree in
theorem ownScore_map {a : Application SpanLabel} {pair : RulePair V}
    (hnamed : g.pair? a.rule = some pair) (f : SpanLabel → Derivation) :
    (a.parts.map f).ownScore g w lattice a.rule = (a.edge w lattice pair).score := by
  rw [Trail.ownScore, Trail.arcScore_map, Grammar.ruleScore_of_pair? hnamed w]
  rfl

theorem hereditary_score : Hereditary order g w o lattice .none fun l x =>
    ∃ d : Derivation, d.Made g o lattice .none ∧ d.place = l ∧ d.score g w lattice = x where
  best _ x y hx hy := by
    rcases hx with rfl | hx
    · rw [LawfulScore.best_eq_max, max_eq_right (LawfulScore.zero_le y)]
      exact hy
    · rcases best_eq x y with h | h
      · rwa [h]
      · rwa [h]
  build i j hspan _ a pair hfits _ hnamed _ hparts := by
    choose! f hmade hplace hscore using hparts
    refine ⟨_, made_of_fits hspan hfits hnamed fun l hl => ⟨hmade l hl, hplace l hl⟩, rfl, ?_⟩
    rw [Derivation.score_node, ownScore_map hnamed, Trail.entries_map, List.map_map]
    congr 2
    exact List.map_congr_left hscore
  reach i j child label x y _ _ hx hget := by
    obtain ⟨d, hd, hplace, rfl⟩ := hx
    obtain ⟨n, hpath⟩ := (sound_unaryClosureIn g w o child).path label y hget
    have hpath : UnaryPath g w o d.place.label n label y := by rwa [hplace]
    obtain ⟨e, he, heplace, hscore⟩ := hd.exists_path hfree hpath
    rw [hplace] at heplace
    exact ⟨e, he, heplace, hscore⟩

theorem exists_made_of_has {l : SpanLabel}
    (hhas : ((scored order g w o lattice .none).final.get l.first l.last).has l.label = true) :
    ∃ d : Derivation, d.Made g o lattice .none ∧ d.place = l ∧
      d.score g w lattice = (scored order g w o lattice .none).insideOf l :=
  (hereditary_score hfree).insideOf hhas

theorem downward_context :
    Downward order g w o lattice .none (Context g w o lattice .none) fun _ _ => True where
  zero := (LawfulScore.isZero_iff _).mpr rfl
  refl _ := trivial
  trans _ _ := trivial
  raise _ _ := trivial
  unary {i j toFinal label e x} he hx _ := by
    obtain ⟨hspan, hleft⟩ := span_of_edges_unary he
    obtain ⟨hget, -, htail⟩ := (mem_unary_iff order g w o hspan hleft _ _ _).mp he
    obtain ⟨n, hpath⟩ := (sound_unaryClosureIn g w o _).path _ _ hget
    have hhas : ((scored order g w o lattice .none).final.get i j).has e.tail = true := by
      cases toFinal with
      | true => exact htail
      | false =>
        exact (has_final_iff order g w o hspan hleft _).mpr ⟨rfl, e.tail, 0, _, htail, .start⟩
    obtain ⟨d, hd, hplace, -⟩ := exists_made_of_has hfree (l := ⟨i, j, e.tail⟩) hhas
    have hpath : UnaryPath g w o d.place.label n label e.score := by rwa [hplace]
    have hbelow := hd.below_path hfree hpath (y := x) (by rwa [hplace])
    rwa [hplace] at hbelow
  built {i j label e x k t} he hx _ ht := by
    obtain ⟨hspan, hleft⟩ := span_of_edges_built he
    have htails := fun l hl => (tails_of_built he (t := l) hl).2.2.2
    obtain ⟨-, a, pair, hfits, -, hnamed, rfl, rfl⟩ :=
      (mem_built_iff order g w o hspan hleft _ _).mp he
    have hparts := fun l hl => exists_made_of_has hfree (htails l hl)
    choose! f hmade hplace hscore using hparts
    have hmade' := made_of_fits hspan hfits hnamed fun l hl => ⟨hmade l hl, hplace l hl⟩
    change a.parts.entries[k]? = some t at ht
    obtain ⟨front, back, hentries, herase⟩ := exists_split_of_getElem? ht
    have hsplit : (a.parts.map f).entries = front.map f ++ f t :: back.map f := by
      rw [Trail.entries_map, hentries, List.map_append, List.map_cons]
    have hstep := hx.step hmade' hsplit
    have hsiblings : (front.map f ++ back.map f).map (Derivation.score g w lattice) =
        (front ++ back).map (scored order g w o lattice .none).insideOf := by
      rw [← List.map_append, List.map_map]
      refine List.map_congr_left fun l hl => hscore l ?_
      change l ∈ a.parts.entries
      rw [hentries, List.mem_append, List.mem_cons]
      exact (List.mem_append.mp hl).imp_right Or.inr
    rw [hplace t (List.mem_of_getElem? ht), hsiblings, ownScore_map hnamed] at hstep
    change Context g w o lattice .none t (Score.product _
      ((a.parts.entries.eraseIdx k).map (scored order g w o lattice .none).insideOf))
    rw [herase, LawfulScore.product_eq, LawfulScore.mul_assoc,
      LawfulScore.mul_comm (Application.edge w lattice pair a).score]
    exact hstep

end Sound

section Goals

open ScoreState

variable {order : ClosureOrder} {g : Grammar V} {w : Weighting V S} {o : Options V}
  {lattice : Lattice V}

variable (g o lattice) in
def Derivation.goals : Set Derivation :=
  {d | d.Made g o lattice .none ∧ d.place = ⟨0, lattice.size, o.goal⟩}

omit [LinearOrder S] [LawfulScore S] in
theorem has_of_insideOf_ne_zero {l : SpanLabel}
    (h : (scored order g w o lattice .none).insideOf l ≠ Score.zero) :
    ((scored order g w o lattice .none).final.get l.first l.last).has l.label = true := by
  rw [← isSome_inside_iff, Option.isSome_iff_ne_none]
  intro hnone
  rw [insideOf, scoreOf, hnone] at h
  exact h rfl

theorem parsed_posteriors_iff : (posteriorsIn order g w o lattice .none).parsed = true ↔
    (scored order g w o lattice .none).insideOf ⟨0, lattice.size, o.goal⟩ ≠ Score.zero := by
  rw [posteriorsIn, ScoreParser.parsed_parseIn, Bool.and_eq_true, Bool.not_eq_true',
    Bool.not_eq_true', LawfulScore.isZero_eq_false_iff]
  exact and_iff_right_of_imp fun hnonzero => isEmpty_of_has_final (has_of_insideOf_ne_zero hnonzero)

theorem exists_goal_of_inside (hfree : ∀ t ∈ g, t.maxSpan = none) (hnonzero :
    (scored order g w o lattice .none).insideOf ⟨0, lattice.size, o.goal⟩ ≠ Score.zero) :
    ∃ d ∈ Derivation.goals g o lattice, d.score g w lattice =
      (scored order g w o lattice .none).insideOf ⟨0, lattice.size, o.goal⟩ := by
  obtain ⟨d, hd, hplace, hscore⟩ := exists_made_of_has hfree (has_of_insideOf_ne_zero hnonzero)
  exact ⟨d, ⟨hd, hplace⟩, hscore⟩

theorem exists_goal_of_joint (hfree : ∀ t ∈ g, t.maxSpan = none) {l : SpanLabel}
    (hnonzero : joint order g w o lattice .none l ≠ Score.zero) :
    ∃ d ∈ Derivation.goals g o lattice, d.Uses l ∧
      d.score g w lattice = joint order g w o lattice .none l := by
  have hinside : (scored order g w o lattice .none).insideOf l ≠ Score.zero := by
    intro hzero
    rw [joint, hzero, LawfulScore.zero_mul] at hnonzero
    exact hnonzero rfl
  have houtside : ((scored order g w o lattice .none).runOutside o.goal lattice.size).outsideOf l ≠
      Score.zero := by
    intro hzero
    rw [joint, hzero, LawfulScore.mul_zero] at hnonzero
    exact hnonzero rfl
  have hcontext := (((downward_context hfree).within_passed .goal
    (Chart.spansFromLong lattice.size)).each l).resolve_left houtside
  obtain ⟨d, hd, hplace, hscore⟩ := exists_made_of_has hfree (has_of_insideOf_ne_zero hinside)
  obtain ⟨e, he, hgoal, huses, hescore⟩ := hcontext.plug hd hplace
  refine ⟨e, ⟨he, hgoal⟩, huses l (.here hplace), ?_⟩
  rw [hescore, hscore, LawfulScore.mul_comm]
  rfl

variable (hlegible : ∀ t ∈ g, t.Legible) (hunary : g.UnaryAtMostOne w)
  (hstag : (g.leftSides o).dedup.length ≤ o.scoreStagnation)
include hlegible hunary hstag

theorem score_le_insideOf {d : Derivation} (hd : d ∈ Derivation.goals g o lattice) :
    d.score g w lattice ≤ (scored order g w o lattice .none).insideOf ⟨0, lattice.size, o.goal⟩ := by
  rw [← hd.2]
  exact ((estimates_self hlegible hunary hstag).insideOf_of_made hd.1).2

theorem isGreatest_insideOf (hnonzero :
    (scored order g w o lattice .none).insideOf ⟨0, lattice.size, o.goal⟩ ≠ Score.zero) :
    IsGreatest (Derivation.score g w lattice '' Derivation.goals g o lattice)
      ((scored order g w o lattice .none).insideOf ⟨0, lattice.size, o.goal⟩) := by
  refine ⟨?_, fun x hx => ?_⟩
  · exact exists_goal_of_inside (fun t ht => (hlegible t ht).maxSpan) hnonzero
  · obtain ⟨d, hd, rfl⟩ := hx
    exact score_le_insideOf hlegible hunary hstag hd

theorem score_le_joint {d : Derivation} (hd : d ∈ Derivation.goals g o lattice) {l : SpanLabel}
    (huses : d.Uses l) :
    ((scored order g w o lattice .none).final.get l.first l.last).has l.label = true ∧
      d.score g w lattice ≤ joint order g w o lattice .none l := by
  have hself : Estimates order g o w w fun x a => a ≤ x := estimates_self hlegible hunary hstag
  have hgoal : Context g w o lattice .none d.place Score.one := hd.2 ▸ .goal
  obtain ⟨y, e, hcontext, he, hplace, hscore⟩ := hgoal.cut huses hd.1
  rw [LawfulScore.one_mul] at hscore
  obtain ⟨hhas, hinside⟩ := hself.insideOf_of_made he
  rw [hplace] at hhas hinside
  refine ⟨hhas, ?_⟩
  rw [← hscore]
  by_cases hy : y = Score.zero
  · rw [hy, LawfulScore.zero_mul]
    exact LawfulScore.zero_le _
  · rw [LawfulScore.mul_comm y]
    exact LawfulScore.mul_le_mul hinside (hself.outsideOf_of_context hcontext hy he hplace)

/-- The product of the inside and the outside score is the best score of a derivation that uses the
label. -/
theorem isGreatest_joint {l : SpanLabel}
    (hnonzero : joint order g w o lattice .none l ≠ Score.zero) :
    IsGreatest (Derivation.score g w lattice '' {d ∈ Derivation.goals g o lattice | d.Uses l})
      (joint order g w o lattice .none l) := by
  refine ⟨?_, fun x hx => ?_⟩
  · obtain ⟨d, hd, huses, hscore⟩ :=
      exists_goal_of_joint (fun t ht => (hlegible t ht).maxSpan) hnonzero
    exact ⟨d, ⟨hd, huses⟩, hscore⟩
  · obtain ⟨d, ⟨hd, huses⟩, rfl⟩ := hx
    exact (score_le_joint hlegible hunary hstag hd huses).2

theorem parsed_posteriors_iff_exists : (posteriorsIn order g w o lattice .none).parsed = true ↔
    ∃ d ∈ Derivation.goals g o lattice, d.score g w lattice ≠ Score.zero := by
  rw [parsed_posteriors_iff]
  constructor
  · intro hnonzero
    obtain ⟨d, hd, hscore⟩ := exists_goal_of_inside (fun t ht => (hlegible t ht).maxSpan) hnonzero
    exact ⟨d, hd, hscore.symm ▸ hnonzero⟩
  · rintro ⟨d, hd, hnonzero⟩
    exact LawfulScore.nonzero_of_le hnonzero (score_le_insideOf hlegible hunary hstag hd)

theorem isSome_posterior?_iff_exists {l : SpanLabel} :
    (posterior? order g w o lattice .none l).isSome = true ↔
      ∃ d ∈ Derivation.goals g o lattice, d.Uses l ∧ d.score g w lattice ≠ Score.zero := by
  rw [Option.isSome_iff_exists]
  constructor
  · rintro ⟨x, hx⟩
    obtain ⟨-, hnonzero, -⟩ := posterior?_eq_some_iff.mp hx
    rw [LawfulScore.isZero_eq_false_iff] at hnonzero
    obtain ⟨d, hd, huses, hscore⟩ :=
      exists_goal_of_joint (fun t ht => (hlegible t ht).maxSpan) hnonzero
    exact ⟨d, hd, huses, hscore.symm ▸ hnonzero⟩
  · rintro ⟨d, hd, huses, hnonzero⟩
    obtain ⟨hhas, hle⟩ := score_le_joint hlegible hunary hstag hd huses
    have hjoint := LawfulScore.nonzero_of_le hnonzero hle
    exact ⟨_, posterior?_eq_some_iff.mpr
      ⟨hhas, (LawfulScore.isZero_eq_false_iff _).mpr hjoint, rfl⟩⟩

theorem posterior?_eq_div {l : SpanLabel} {x : S}
    (hx : posterior? order g w o lattice .none l = some x)
    (hinside : (scored order g w o lattice .none).insideOf ⟨0, lattice.size, o.goal⟩ ≠ Score.zero) :
    x ≤ Score.one ∧ ∃ a b,
      IsGreatest (Derivation.score g w lattice '' {d ∈ Derivation.goals g o lattice | d.Uses l}) a ∧
      IsGreatest (Derivation.score g w lattice '' Derivation.goals g o lattice) b ∧
      x = Score.div a b := by
  obtain ⟨-, hnonzero, rfl⟩ := posterior?_eq_some_iff.mp hx
  rw [LawfulScore.isZero_eq_false_iff] at hnonzero
  have hjoint := isGreatest_joint hlegible hunary hstag hnonzero
  have hbest := isGreatest_insideOf hlegible hunary hstag hinside
  -- the derivations that use the label are among all of them
  have hle := hbest.2 (Set.image_mono (Set.sep_subset _ _) hjoint.1)
  exact ⟨LawfulScore.div_le_one hle hinside, _, _, hjoint, hbest, rfl⟩

end Goals

namespace ScoreParser

open ScoreState

/-- The goal is parsed when some derivation of it scores more than zero. Then the labels with a
posterior are those that such a derivation uses, and the posterior is the best score of a derivation
that uses the label, over the best score of any derivation of the goal. -/
theorem parse_exact [NumberText V] (order : ClosureOrder) (p : ScoreParser V S)
    (lattice : Lattice V) (hg : p.grammar.IsText) (htree : p.options.treebank = false)
    (hpos : p.options.posMode = false) (hterm : lattice.AllTerminal)
    (hunary : p.grammar.UnaryAtMostOne p.weighting)
    (hstag : (p.grammar.leftSides p.options).dedup.length ≤ p.options.scoreStagnation) :
    let goals := Derivation.ofGoal p.grammar lattice .none Symbol.words p.options.goal
    let score := Derivation.score p.grammar p.weighting lattice
    let result := (p.parseIn order lattice .none).2
    (result.parsed = true ↔ ∃ d ∈ goals, score d ≠ Score.zero) ∧
    (result.parsed = true → ∀ first last label,
      ((LabelMap.get? (result.scores.get first last) label).isSome = true ↔
        ∃ d ∈ goals, d.Uses ⟨first, last, label⟩ ∧ score d ≠ Score.zero) ∧
      ∀ x, LabelMap.get? (result.scores.get first last) label = some x →
        x ≤ Score.one ∧ ∃ a b, IsGreatest (score '' {d ∈ goals | d.Uses ⟨first, last, label⟩}) a ∧
          IsGreatest (score '' goals) b ∧ x = Score.div a b) := by
  intro goals score result
  have hlegible : ∀ t ∈ p.grammar, t.Legible := fun _ => hg.legible
  have hgoals : goals = Derivation.goals p.grammar p.options lattice :=
    Set.ext fun d => and_congr_left' (Derivation.Made.iff_valid hlegible htree hpos hterm).symm
  have hresult : result = posteriorsIn order p.grammar p.weighting p.options lattice .none :=
    p.parseIn_eq_posteriorsIn order lattice .none
  rw [hgoals, hresult]
  refine ⟨parsed_posteriors_iff_exists hlegible hunary hstag, fun h first last label => ?_⟩
  rw [get?_scores_posteriors h]
  exact ⟨isSome_posterior?_iff_exists hlegible hunary hstag, fun x hx =>
    posterior?_eq_div hlegible hunary hstag hx (parsed_posteriors_iff.mp h)⟩

/-- Two unary rules that lead back to each other above a rule for the word, all of score 1/2. -/
theorem parse_exact_of_cycle :
    let p := ScoreParser.new [RuleTable.ofText "[S] ||| [A,1]\n[A] ||| [S,1]\n[A] ||| a"]
      (fun _ => 1 / 2 : Weighting Float ℚ≥0) Options.standard
    let lattice := Lattice.ofWords [⟨"a"⟩]
    let goals := Derivation.ofGoal p.grammar lattice .none Symbol.words p.options.goal
    let score := Derivation.score p.grammar p.weighting lattice
    let used := {d ∈ goals | d.Uses ⟨0, 1, ⟨"[A]"⟩⟩}
    (p.grammar.IsText ∧ p.options.treebank = false ∧ p.options.posMode = false ∧
      lattice.AllTerminal ∧ p.grammar.UnaryAtMostOne p.weighting ∧
      (p.grammar.leftSides p.options).dedup.length ≤ p.options.scoreStagnation) ∧
        (p.parseIn .arrival lattice .none).2.parsed = true ∧ (∃ d ∈ goals, score d ≠ Score.zero) ∧
        ∃ a b, IsGreatest (score '' used) a ∧ IsGreatest (score '' goals) b ∧
          Score.div a b = Score.one := by
  intro p lattice goals score used
  have hterm : lattice.AllTerminal := by decide +kernel
  have hunary : p.grammar.UnaryAtMostOne p.weighting := fun _ _ _ _ _ _ => by
    change (1 / 2 : ℚ≥0) ≤ 1
    decide +kernel
  have hstag : (p.grammar.leftSides p.options).dedup.length ≤ p.options.scoreStagnation := by
    decide +kernel
  have hparsed : (p.parseIn .arrival lattice .none).2.parsed = true := by decide +kernel
  have hposterior : LabelMap.get? ((p.parseIn .arrival lattice .none).2.scores.get 0 1) ⟨"[A]"⟩ =
      some Score.one := by decide +kernel
  obtain ⟨houtcome, hscores⟩ :=
    parse_exact .arrival p lattice (Grammar.isText_ofText _) rfl rfl hterm hunary hstag
  obtain ⟨-, a, b, ha, hb, hdiv⟩ := (hscores hparsed 0 1 ⟨"[A]"⟩).2 _ hposterior
  exact ⟨⟨Grammar.isText_ofText _, rfl, rfl, hterm, hunary, hstag⟩, hparsed, houtcome.mp hparsed,
    a, b, ha, hb, hdiv.symm⟩

end ScoreParser

end ParseForest
