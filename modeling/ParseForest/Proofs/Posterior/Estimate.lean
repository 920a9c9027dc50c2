import ParseForest.Proofs.Context
import ParseForest.Proofs.Posterior.Inside

/-!
# Estimates

The inside pass does not compute with the exact scores of derivations: it multiplies in its own
order, and a score type may round. An estimate relates the scores of a weighting to exact ones that
they do not fall below. When the products, the better of two scores and the closures estimate,
every inside score estimates the scores of all derivations of its label.
-/

namespace ParseForest

variable {V S T : Type} [Score S] [Score T]

/-- The scores of `w` stand for exact ones of `v`: by `R x a`, the score `x` is no worse than
`a`. -/
structure Estimates (order : ClosureOrder) (g : Grammar V) (o : Options V) (w : Weighting V S)
    (v : Weighting V T) (R : S → T → Prop) : Prop where
  zero : Score.isZero (Score.zero : S) = true
  one : R Score.one Score.one
  weight : ∀ f, R (w f) (v f)
  mul : ∀ {x y a b}, R x a → R y b → R (Score.mul x y) (Score.mul a b)
  keep : ∀ {x y a b}, R x a → R y b → R (Score.best x y) a
  take : ∀ {x y b}, (x = Score.zero ∨ ∃ a, R x a) → R y b → R (Score.best x y) b
  nonzero : ∀ {x a}, R x a → a ≠ Score.zero → Score.isZero x = false
  closure : ∀ child ∈ g.leftSides o, ∀ {n label a}, UnaryPath g v o child n label a →
    ∃ x, LabelMap.get? (unaryClosureIn order g w o child) label = some x ∧ R x a

structure Weighting.StandsFor (w : Weighting V S) (v : Weighting V T) (R : S → T → Prop) :
    Prop where
  one : R Score.one Score.one
  weight : ∀ f, R (w f) (v f)
  mul : ∀ {x y a b}, R x a → R y b → R (Score.mul x y) (Score.mul a b)

namespace Weighting.StandsFor

variable {w : Weighting V S} {v : Weighting V T} {R : S → T → Prop} {lattice : Lattice V}

theorem product (h : w.StandsFor v R) {x : S} {a : T} (hx : R x a) {xs : List S} {as : List T}
    (hxs : List.Forall₂ R xs as) : R (Score.product x xs) (Score.product a as) := by
  induction hxs generalizing x a with
  | nil => exact hx
  | cons hy _ ih => exact ih (h.mul hx hy)

theorem arcScore {E : Type} (h : w.StandsFor v R) (x : Trail E) :
    R (x.arcScore w lattice) (x.arcScore v lattice) := by
  induction x with
  | start => exact h.one
  | entry x p e ih => exact ih
  | arc x p k ih =>
    rw [Trail.arcScore, Trail.arcScore]
    cases (lattice.arcsAt p)[k]? with
    | none => exact ih
    | some a => exact h.mul ih (h.weight _)

end Weighting.StandsFor

namespace Estimates

variable {order : ClosureOrder} {g : Grammar V} {o : Options V} {w : Weighting V S}
  {v : Weighting V T} {R : S → T → Prop} {lattice : Lattice V} {pruner : Pruner}

theorem standsFor (h : Estimates order g o w v R) : w.StandsFor v R := ⟨h.one, h.weight, h.mul⟩

theorem exists_estimated (h : Estimates order g o w v R) {child label : Symbol} {n : Nat} {x : S}
    (hpath : UnaryPath g w o child n label x) : ∃ a, R x a := by
  induction hpath with
  | start => exact ⟨_, h.one⟩
  | step _ _ ih =>
    obtain ⟨a, ha⟩ := ih
    exact ⟨_, h.mul (h.weight _) ha⟩

omit [Score S] [Score T] in
theorem exists_forall₂ {A : Type} {f : A → S} {l : List A} (h : ∀ m ∈ l, ∃ a, R (f m) a) :
    ∃ as, List.Forall₂ R (l.map f) as := by
  induction l with
  | nil => exact ⟨[], .nil⟩
  | cons m l ih =>
    obtain ⟨a, ha⟩ := h m List.mem_cons_self
    obtain ⟨as, has⟩ := ih fun k hk => h k (List.mem_cons_of_mem m hk)
    exact ⟨a :: as, .cons ha has⟩

open ScoreState

theorem hereditary (h : Estimates order g o w v R) :
    Hereditary order g w o lattice pruner fun _ x => ∃ a, R x a where
  best _ _ _ hx hy := hy.imp fun _ hy => h.take hx hy
  build _ _ _ _ a pair _ _ _ _ hparts := by
    obtain ⟨as, has⟩ := exists_forall₂ hparts
    exact ⟨_, h.mul (h.standsFor.product h.one has)
      (h.mul (h.standsFor.arcScore a.parts) (h.weight _))⟩
  reach _ _ child label _ y _ _ hx hget := by
    obtain ⟨n, hpath⟩ := (sound_unaryClosureIn g w o child).path label y hget
    obtain ⟨a, ha⟩ := hx
    obtain ⟨b, hb⟩ := h.exists_estimated hpath
    exact ⟨_, h.mul ha hb⟩

theorem scoreAfter (h : Estimates order g o w v R) {steps : List (ScoreStep S)}
    (hsteps : ∀ s ∈ steps, ∃ a, R s.value a) {s : ScoreStep S} (hs : s ∈ steps) {a : T}
    (hR : R s.value a) : R (ScoreCell.scoreAfter steps s.label) a := by
  induction steps using List.reverseRecOn with
  | nil => cases hs
  | append_singleton steps t ih =>
    have hbefore := fun s hs => hsteps s (List.mem_append_left _ hs)
    obtain ⟨b, hb⟩ := hsteps t (List.mem_append_right _ List.mem_cons_self)
    rw [ScoreCell.scoreAfter, ScoreCell.after_append, ScoreCell.inside_take, scoreOf_raise]
    rcases List.mem_append.mp hs with hs | hs
    · split
      · rename_i hl
        rw [← hl]
        exact h.keep (ih hbefore hs) hb
      · exact ih hbefore hs
    · cases List.mem_singleton.mp hs
      rw [if_pos rfl]
      exact h.take ((ScoreCell.scoreAfter_eq_zero_or (P := fun x => ∃ a, R x a)
        (fun x y hx hy => hy.imp fun _ hy => h.take hx hy) fun s hs _ => hbefore s hs).imp
          And.left id) hR

structure Matches (R : S → T → Prop) (order : ClosureOrder) (g : Grammar V) (w : Weighting V S)
    (o : Options V) (lattice : Lattice V) (pruner : Pruner) (i j : Nat) (a : Application SpanLabel)
    (pair : RulePair V) (b : T) : Prop where
  span : i < j ∧ j ≤ lattice.size
  spanLeft : pruner.skipsSpan i j = false
  fits : a.Fits SpanLabel.label g o lattice (listed (finals order g w o lattice pruner)) i j
  begins : ¬a.parts.Begins (i, j) i j
  named : g.pair? a.rule = some pair
  labelLeft : pruner.skipsLabel i j (pair.side o.yieldSource).lhs = false
  score : R (Score.mul
    (Score.product Score.one (a.parts.entries.map (scored order g w o lattice pruner).insideOf))
    (a.edge w lattice pair).score) b

def Climbs (R : S → T → Prop) (order : ClosureOrder) (g : Grammar V) (w : Weighting V S)
    (v : Weighting V T) (o : Options V) (lattice : Lattice V) (pruner : Pruner) : Prop :=
  ∀ (i j : Nat) (a : Application SpanLabel) (pair : RulePair V) (b : T),
    Matches R order g w o lattice pruner i j a pair b → ∀ (n : Nat) (label : Symbol) (c : T),
      UnaryPath g v o (pair.side o.yieldSource).lhs n label c →
      pruner.skipsLabel i j label = false →
      ((scored order g w o lattice pruner).final.get i j).has label = true ∧
        R ((scored order g w o lattice pruner).insideOf ⟨i, j, label⟩) (Score.mul b c)

theorem climbs (h : Estimates order g o w v R) : Climbs R order g w v o lattice pruner := by
  intro i j a pair b hmatch n label c hpath hlabel
  have hsound : Hereditary order g w o lattice pruner fun _ x => ∃ a, R x a := h.hereditary
  obtain ⟨builds, closes, ends, hcell, hbuilds, ⟨⟨children, hchildren, hclose⟩, -⟩, hsteps⟩ :=
    hsound.exists_steps hmatch.span hmatch.spanLeft
  have hbuild := (hbuilds _).mpr
    ⟨a, pair, hmatch.fits, hmatch.begins, hmatch.named, hmatch.labelLeft, rfl⟩
  obtain ⟨x, hget, hx⟩ := h.closure _
    (Grammar.mem_leftSides (Grammar.mem_pairs_of_pair? hmatch.named)) hpath
  obtain ⟨before, hbefore, hmem⟩ := hclose.exists_mem ((hchildren _).mpr ⟨_, _, hbuild⟩)
  have hold : ∀ s ∈ builds ++ before, ∃ a, R s.value a := by
    intro s hs
    refine hsteps s ?_
    rcases List.mem_append.mp hs with hs | hs
    · exact List.mem_append_left _ hs
    · exact List.mem_append_right _ (List.mem_append_left _ (hbefore.subset hs))
  have hchild := h.scoreAfter hold (List.mem_append_left before hbuild) hmatch.score
  have hreach := List.mem_append_right builds
    (List.mem_append_left ends (hmem label x hget hlabel))
  have hinside : (scored order g w o lattice pruner).inside.get i j =
      (ScoreCell.after (builds ++ (closes ++ ends))).inside := congrArg ScoreCell.inside hcell
  refine ⟨isSome_inside_iff.mp ?_, ?_⟩
  · rw [hinside]
    exact ScoreCell.isSome_inside.mpr ⟨_, hreach, rfl⟩
  · rw [ScoreState.insideOf, hinside]
    exact h.scoreAfter hsteps hreach (h.mul hchild hx)

omit [Score T] in
theorem fits_places {i j : Nat} {rule : RuleName} {parts : Trail Derivation}
    (hfits : Application.Fits (fun d => (Derivation.place d).label) g o lattice
      (Trail.placedAt Derivation.place) i j ⟨rule, parts⟩)
    (hparts : ∀ d ∈ parts.entries, ((scored order g w o lattice pruner).final.get d.place.first
      d.place.last).has d.place.label = true) :
    Application.Fits SpanLabel.label g o lattice (listed (finals order g w o lattice pruner)) i j
      ⟨rule, parts.map Derivation.place⟩ := by
  refine Application.fits_along
    (R := fun p q (d : Derivation) l =>
      l ∈ listed (finals order g w o lattice pruner) p q ∧ l = d.place)
    (fun p q d l hdl => by rw [hdl.2]) (fun p q d l _ hdl => hdl.1)
    (Trail.Along.of_map j parts fun p q d hd => ⟨?_, rfl⟩) hfits
  obtain ⟨t, -, hover, -⟩ := hfits
  obtain ⟨rfl, rfl⟩ := (hover.mem_placed hd).2.2.2
  exact mem_finals.mpr ⟨rfl, rfl, hparts d (Trail.mem_entries_of_mem_placed hd)⟩

theorem forall₂_scores {ds : List Derivation}
    (hinside : ∀ d ∈ ds,
      R ((scored order g w o lattice pruner).insideOf d.place) (d.score g v lattice)) :
    List.Forall₂ R ((ds.map Derivation.place).map (scored order g w o lattice pruner).insideOf)
      (ds.map (Derivation.score g v lattice)) := by
  rw [List.map_map, List.forall₂_map_left_iff, List.forall₂_map_right_iff, List.forall₂_same]
  exact hinside

section Derivations

variable [LinearOrder T] [LawfulScore T] (hw : w.StandsFor v R)
  (hclimbs : Climbs R order g w v o lattice pruner)
include hw hclimbs

omit hclimbs in
theorem matches_of_parts {place : SpanLabel} {rule : RuleName} {parts : Trail Derivation}
    {pair : RulePair V} (made : (Derivation.node place rule parts).Made g o lattice pruner)
    (named : g.pair? rule = some pair)
    (hbegins : ¬parts.Begins (place.first, place.last) place.first place.last)
    (hinside : ∀ d ∈ parts.entries,
      ((scored order g w o lattice pruner).final.get d.place.first d.place.last).has d.place.label =
        true ∧ R ((scored order g w o lattice pruner).insideOf d.place) (d.score g v lattice)) :
    Matches R order g w o lattice pruner place.first place.last ⟨rule, parts.map Derivation.place⟩ pair
      ((Derivation.node place rule parts).score g v lattice) := by
  cases made with
  | @node _ _ _ pair' span spanLeft labelLeft named' label fits below =>
    obtain rfl : pair' = pair := Option.some.inj (named'.symm.trans named)
    have hscores : List.Forall₂ R
        ((parts.map Derivation.place).entries.map (scored order g w o lattice pruner).insideOf)
        (parts.entries.map (Derivation.score g v lattice)) := by
      rw [Trail.entries_map]
      exact forall₂_scores fun d hd => (hinside d hd).2
    refine ⟨span, spanLeft, fits_places fits fun d hd => (hinside d hd).1, ?_, named,
      label ▸ labelLeft, ?_⟩
    · rw [Trail.begins_map]
      exact hbegins
    · rw [Derivation.score_node, Trail.ownScore, Grammar.ruleScore_of_pair? named v,
        ← Trail.arcScore_map v lattice Derivation.place]
      exact hw.mul (hw.product hw.one hscores) (hw.mul (hw.arcScore _) (hw.weight _))

theorem exists_match {d : Derivation} (hd : d.Made g o lattice pruner) :
    ∃ a pair n b c, Matches R order g w o lattice pruner d.place.first d.place.last a pair b ∧
      UnaryPath g v o (pair.side o.yieldSource).lhs n d.place.label c ∧
      pruner.skipsLabel d.place.first d.place.last d.place.label = false ∧
      d.score g v lattice = Score.mul b c := by
  induction hd with
  | @node place rule parts pair span spanLeft labelLeft named label fits below ih =>
    by_cases hbegins : parts.Begins (place.first, place.last) place.first place.last
    · obtain ⟨d, rfl, hfirst, hlast, hunary⟩ := fits.exists_below hbegins named
      obtain ⟨a, pair', n, b, c, hmatch, hpath, -, hscore⟩ := ih d List.mem_cons_self
      have hstep := hpath.step hunary
      rw [label] at hstep
      rw [hfirst, hlast] at hmatch
      refine ⟨a, pair', n + 1, b, _, hmatch, hstep, labelLeft, ?_⟩
      rw [Derivation.score_unary named, hscore]
      ac_rfl
    · have made := Derivation.Made.node span spanLeft labelLeft named label fits below
      have hmatch := matches_of_parts hw made named hbegins fun d hd => by
        obtain ⟨a, pair', n, b, c, hmatch, hpath, hskip, hscore⟩ := ih d hd
        rw [hscore]
        exact hclimbs _ _ _ _ _ hmatch _ _ _ hpath hskip
      have hstart : UnaryPath g v o (pair.side o.yieldSource).lhs 0 place.label Score.one := by
        rw [label]
        exact .start
      exact ⟨_, pair, 0, _, _, hmatch, hstart, labelLeft, (LawfulScore.mul_one _).symm⟩

theorem insideOf_of_climbs {d : Derivation} (hd : d.Made g o lattice pruner) :
    ((scored order g w o lattice pruner).final.get d.place.first d.place.last).has
        d.place.label = true ∧
      R ((scored order g w o lattice pruner).insideOf d.place) (d.score g v lattice) := by
  obtain ⟨a, pair, n, b, c, hmatch, hpath, hskip, hscore⟩ := exists_match hw hclimbs hd
  rw [hscore]
  exact hclimbs _ _ _ _ _ hmatch _ _ _ hpath hskip

end Derivations

/-- The inside score of a label estimates the scores of its derivations. -/
theorem insideOf_of_made [LinearOrder T] [LawfulScore T] (h : Estimates order g o w v R)
    {d : Derivation} (hd : d.Made g o lattice pruner) :
    ((scored order g w o lattice pruner).final.get d.place.first d.place.last).has
        d.place.label = true ∧
      R ((scored order g w o lattice pruner).insideOf d.place) (d.score g v lattice) :=
  insideOf_of_climbs h.standsFor h.climbs hd

end Estimates

end ParseForest
