import ParseForest.Proofs.Agreement
import ParseForest.Proofs.Posterior.Around
import ParseForest.Proofs.Posterior.Chart

/-!
# Useful labels

A label over a span is useful when a derivation of the goal uses it there. With scores whose
products are greater than zero, a useful label has a posterior: its inside and its outside score
estimate what they would be if all scores were one, and a product is not zero.
-/

namespace ParseForest

variable {V S : Type}

def Useful (g : Grammar V) (o : Options V) (lattice : Lattice V) (pruner : Pruner)
    (l : SpanLabel) : Prop :=
  ∃ d : Derivation, d.Made g o lattice pruner ∧ d.place = ⟨0, lattice.size, o.goal⟩ ∧ d.Uses l

/-! ## Scores that are all one -/

mutual

theorem Derivation.score_uniform (g : Grammar V) (lattice : Lattice V) (d : Derivation) :
    d.score g (Weighting.uniform : Weighting V ℚ≥0) lattice = Score.one := by
  cases d with
  | node place rule parts =>
    have hrule : g.ruleScore (Weighting.uniform : Weighting V ℚ≥0) rule = Score.one := by
      rw [Grammar.ruleScore]
      cases g.pair? rule <;> rfl
    rw [Derivation.score, Trail.partScore_uniform g lattice parts, hrule, LawfulScore.one_mul]

theorem Trail.partScore_uniform (g : Grammar V) (lattice : Lattice V) (x : Trail Derivation) :
    x.partScore g (Weighting.uniform : Weighting V ℚ≥0) lattice = Score.one := by
  cases x with
  | start => rfl
  | entry x p d =>
    rw [Trail.partScore, Trail.partScore_uniform g lattice x,
      Derivation.score_uniform g lattice d, LawfulScore.one_mul]
  | arc x p k =>
    rw [Trail.partScore, Trail.partScore_uniform g lattice x]
    cases (lattice.arcsAt p)[k]? with
    | none => rfl
    | some a => exact LawfulScore.one_mul _

end

namespace Useful

variable {g : Grammar V} {o : Options V} {lattice : Lattice V} {pruner : Pruner} {l : SpanLabel}

theorem exists_context (h : Useful g o lattice pruner l) :
    ∃ (x : ℚ≥0) (d : Derivation), Context g Weighting.uniform o lattice pruner l x ∧
      x ≠ Score.zero ∧ d.Made g o lattice pruner ∧ d.place = l := by
  obtain ⟨d, hd, hgoal, huses⟩ := h
  have hcontext : Context g (Weighting.uniform : Weighting V ℚ≥0) o lattice pruner d.place
      Score.one := hgoal ▸ .goal
  obtain ⟨x, e, hx, he, hplace, hscore⟩ := hcontext.cut huses hd
  refine ⟨x, e, hx, ?_, he, hplace⟩
  rintro rfl
  rw [LawfulScore.zero_mul, LawfulScore.one_mul, Derivation.score_uniform] at hscore
  exact absurd hscore (by decide +kernel)

theorem of_uses (h : Useful g o lattice pruner l) {d : Derivation}
    (hd : d.Made g o lattice pruner) (hplace : d.place = l) {m : SpanLabel} (hm : d.Uses m) :
    Useful g o lattice pruner m := by
  obtain ⟨x, -, hx, -⟩ := h.exists_context
  obtain ⟨e, he, hgoal, huses, -⟩ := hx.plug hd hplace
  exact ⟨e, he, hgoal, huses m hm⟩

theorem mem_leftSides (h : Useful g o lattice pruner l) : l.label ∈ g.leftSides o := by
  obtain ⟨x, d, -, -, hd, rfl⟩ := h.exists_context
  cases hd with
  | node _ _ _ named label =>
    rw [Derivation.place, ← label]
    exact Grammar.mem_leftSides (Grammar.mem_pairs_of_pair? named)

end Useful

/-! ## Posteriors of useful labels -/

variable [Score S]

/-- The scores that are computed from those of a weighting. -/
inductive Weighting.Attained (w : Weighting V S) : S → Prop
  | zero : Attained w Score.zero
  | one : Attained w Score.one
  | weight (f : FeatureVector V) : Attained w (w f)
  | mul {x y : S} (left : Attained w x) (right : Attained w y) : Attained w (Score.mul x y)
  | div {x y : S} (left : Attained w x) (right : Attained w y) : Attained w (Score.div x y)

variable {order : ClosureOrder} {g : Grammar V} {w : Weighting V S} {o : Options V}
  {lattice : Lattice V} {pruner : Pruner}

theorem Weighting.Product.attained {x : S} (h : w.Product x) : w.Attained x := by
  induction h with
  | one => exact .one
  | weight f => exact .weight f
  | mul _ _ ihl ihr => exact ihl.mul ihr

theorem Weighting.Attained.product {x : S} (h : w.Attained x) {xs : List S}
    (hxs : ∀ y ∈ xs, w.Attained y) : w.Attained (Score.product x xs) := by
  induction xs generalizing x with
  | nil => exact h
  | cons y xs ih =>
    exact ih (h.mul (hxs y List.mem_cons_self)) fun z hz => hxs z (List.mem_cons_of_mem y hz)

open ScoreState

theorem hereditary_attained :
    Hereditary order g w o lattice pruner fun _ x => w.Attained x where
  best _ x y hx hy := by
    rcases best_eq x y with h | h
    · rw [h]
      exact hx.elim (fun hx => hx ▸ .zero) id
    · rwa [h]
  build _ _ _ _ a _ _ _ _ _ hparts := by
    refine (Weighting.Attained.one.product fun y hy => ?_).mul
      ((a.parts.product_arcScore w lattice).attained.mul (.weight _))
    obtain ⟨l, hl, rfl⟩ := List.mem_map.mp hy
    exact hparts l hl
  reach _ _ child label _ y _ _ hx hget := by
    obtain ⟨n, hpath⟩ := (sound_unaryClosureIn g w o child).path label y hget
    exact hx.mul hpath.product.attained

theorem attained_insideOf (l : SpanLabel) :
    w.Attained ((scored order g w o lattice pruner).insideOf l) := by
  by_cases hhas : ((scored order g w o lattice pruner).final.get l.first l.last).has l.label = true
  · exact hereditary_attained.insideOf hhas
  · rw [← isSome_inside_iff, Bool.not_eq_true, Option.isSome_eq_false_iff,
      Option.isNone_iff_eq_none] at hhas
    rw [insideOf, scoreOf, hhas]
    exact .zero

theorem downward_attained (hzero : Score.isZero (Score.zero : S) = true) :
    Downward order g w o lattice pruner (fun _ x => w.Attained x) fun _ _ => True where
  zero := hzero
  refl _ := trivial
  trans _ _ := trivial
  raise _ _ := trivial
  unary {i j _ label e _} he hx _ := by
    obtain ⟨hspan, hleft⟩ := span_of_edges_unary he
    obtain ⟨hget, -⟩ := (mem_unary_iff order g w o hspan hleft _ _ _).mp he
    obtain ⟨n, hpath⟩ := (sound_unaryClosureIn g w o _).path _ _ hget
    exact hx.mul hpath.product.attained
  built {i j label e _ k t} he hx _ _ := by
    obtain ⟨hspan, hleft⟩ := span_of_edges_built he
    obtain ⟨-, a, pair, -, -, -, -, rfl⟩ := (mem_built_iff order g w o hspan hleft _ _).mp he
    refine (hx.mul ((a.parts.product_arcScore w lattice).attained.mul (.weight _))).product
      fun y hy => ?_
    obtain ⟨l, -, rfl⟩ := List.mem_map.mp hy
    exact attained_insideOf l

theorem attained_posterior (hzero : Score.isZero (Score.zero : S) = true) {i j : Nat}
    {label : Symbol} {x : S}
    (hx : LabelMap.get? ((posteriorsIn order g w o lattice pruner).scores.get i j) label = some x) :
    w.Attained x := by
  cases hparsed : (posteriorsIn order g w o lattice pruner).parsed with
  | true =>
    rw [get?_scores_posteriors hparsed] at hx
    obtain ⟨-, -, rfl⟩ := posterior?_eq_some_iff.mp hx
    refine .div ((attained_insideOf _).mul ?_) (attained_insideOf _)
    exact (((downward_attained hzero).within_passed .one (Chart.spansFromLong lattice.size)).each
      _).elim (fun h => h ▸ .zero) id
  | false =>
    have hblank : (posteriorsIn order g w o lattice pruner).scores.get i j = [] := by
      cases hempty : lattice.isEmpty with
      | true =>
        rw [posteriorsIn, ScoreParser.parseIn_of_empty _ hempty]
        exact Chart.get_new _ i j
      | false =>
        rw [posteriorsIn, ScoreParser.parseIn_eq hempty] at hparsed ⊢
        split at hparsed
        · rename_i hgoal
          rw [if_pos hgoal]
          exact Chart.get_new _ i j
        · cases hparsed
    rw [hblank] at hx
    cases hx

theorem UnaryPath.reweighed {T : Type} [Score T] {v : Weighting V T} {child label : Symbol}
    {n : Nat} {a : T} (h : UnaryPath g v o child n label a) :
    ∃ x, UnaryPath g w o child n label x := by
  induction h with
  | start => exact ⟨_, .start⟩
  | step _ rule ih =>
    obtain ⟨x, hx⟩ := ih
    exact ⟨_, hx.step rule⟩

theorem estimates_uniform (hw : w.Positive) (hzero : Score.isZero (Score.zero : S) = true) :
    Estimates order g o w (Weighting.uniform : Weighting V ℚ≥0) fun x _ => w.Product x where
  zero := hzero
  one := .one
  weight := .weight
  mul hx hy := hx.mul hy
  keep {x y _ _} hx hy := by
    rcases best_eq x y with h | h
    · rwa [h]
    · rwa [h]
  take {x y _} hx hy := by
    rcases hx with rfl | ⟨-, hx⟩
    · rw [Score.best, if_pos (hw.greater y hy)]
      exact hy
    · rcases best_eq x y with h | h
      · rwa [h]
      · rwa [h]
  nonzero hx _ := hw.nonzero _ hx
  closure child _ n label _ hpath := by
    obtain ⟨y, hy⟩ := hpath.reweighed (w := w)
    obtain ⟨x, hx⟩ := Option.isSome_iff_exists.mp (isSome_unaryClosureIn_iff.mpr ⟨n, y, hy⟩)
    obtain ⟨_, hpath'⟩ := (sound_unaryClosureIn g w o child).path label x hx
    exact ⟨x, hx, hpath'.product⟩

/-- A pass over a lattice with a derivation of the goal leaves a posterior for each useful label. -/
theorem Useful.isSome_posterior (order : ClosureOrder) (hw : w.Positive)
    (hzero : Score.isZero (Score.zero : S) = true) {l : SpanLabel}
    (h : Useful g o lattice pruner l) :
    (posteriorsIn order g w o lattice pruner).parsed = true ∧
      (LabelMap.get? ((posteriorsIn order g w o lattice pruner).scores.get l.first l.last)
        l.label).isSome = true := by
  have hest : Estimates order g o w (Weighting.uniform : Weighting V ℚ≥0) fun x _ => w.Product x :=
    estimates_uniform hw hzero
  have hparsed : (posteriorsIn order g w o lattice pruner).parsed = true := by
    obtain ⟨d, hd, hgoal, -⟩ := h
    have hhas := (hest.insideOf_of_made hd).1
    rw [hgoal] at hhas
    exact ScoreParser.parsed_parseIn_of_has hw hhas
  obtain ⟨x, d, hcontext, hx, hd, rfl⟩ := h.exists_context
  obtain ⟨hhas, hinside⟩ := hest.insideOf_of_made hd
  have houtside := hest.outsideOf_of_context hcontext hx hd rfl
  refine ⟨hparsed, ?_⟩
  rw [get?_scores_posteriors hparsed]
  exact Option.isSome_iff_exists.mpr ⟨_, posterior?_eq_some_iff.mpr
    ⟨hhas, hw.nonzero _ (hinside.mul houtside), rfl⟩⟩

end ParseForest
