import ParseForest.Proofs.Posterior.SimplePaths
import ParseForest.Proofs.Posterior.Downward
import ParseForest.Proofs.Posterior.Estimate

/-!
# Outside scores estimate contexts

A context is followed down from the goal. What stands around the topmost label of a span has been
passed to it before the pass comes to the span. From there the final tier has an edge to every
label that unary rules lead from to the topmost one, so the labels of a chain of unary rules get
theirs from the topmost one at once, and the first tier hands them on to the parts of a match.
-/

namespace ParseForest.Estimates

open ScoreState

variable {V S T : Type} [Score S] [Score T] {order : ClosureOrder} {g : Grammar V} {o : Options V}
  {w : Weighting V S} {v : Weighting V T} {R : S → T → Prop} {lattice : Lattice V} {pruner : Pruner}

theorem estimated_of_has (h : Estimates order g o w v R) {l : SpanLabel}
    (hhas : ((scored order g w o lattice pruner).final.get l.first l.last).has l.label = true) :
    ∃ a, R ((scored order g w o lattice pruner).insideOf l) a := h.hereditary.insideOf hhas

theorem downward (h : Estimates order g o w v R) :
    Downward order g w o lattice pruner (fun _ x => ∃ a, R x a) fun x y => ∀ a, R x a → R y a where
  zero := h.zero
  refl _ _ ha := ha
  trans hxy hyz a ha := hyz a (hxy a ha)
  raise _ hy a ha := by
    obtain ⟨b, hb⟩ := hy
    exact h.keep ha hb
  unary he hx _ := by
    obtain ⟨hspan, hleft⟩ := span_of_edges_unary he
    obtain ⟨hget, -⟩ := (mem_unary_iff order g w o hspan hleft _ _ _).mp he
    obtain ⟨n, hpath⟩ := (sound_unaryClosureIn g w o _).path _ _ hget
    obtain ⟨a, ha⟩ := hx
    obtain ⟨b, hb⟩ := h.exists_estimated hpath
    exact ⟨_, h.mul ha hb⟩
  built {_ _ _ e _ k _} he hx _ _ := by
    have hinside : ∀ t ∈ e.tails.eraseIdx k,
        ∃ a, R ((scored order g w o lattice pruner).insideOf t) a := fun t ht =>
      h.estimated_of_has (tails_of_built he (List.mem_of_mem_eraseIdx ht)).2.2.2
    obtain ⟨hspan, hleft⟩ := span_of_edges_built he
    obtain ⟨-, a, pair, -, -, -, -, rfl⟩ := (mem_built_iff order g w o hspan hleft _ _).mp he
    obtain ⟨b, hb⟩ := hx
    obtain ⟨cs, hcs⟩ := exists_forall₂ hinside
    exact ⟨_, h.standsFor.product (h.mul hb (h.mul (h.standsFor.arcScore _) (h.weight _))) hcs⟩

section Span

variable {i j : Nat} {st : ScoreState V S}
  (hst : Within order g w o lattice pruner (fun _ x => ∃ a, R x a) st)
include hst

theorem outsideOf_raised (h : Estimates order g o w v R) {l : SpanLabel}
    (hspan : l.first < l.last ∧ l.last ≤ lattice.size) {x : S} {a : T} (hx : R x a) :
    R ((st.raiseOutside l x).outsideOf l) a := by
  have hl : st.outside.IsSpan l.first l.last := ⟨Nat.le_of_lt hspan.1, hst.size ▸ hspan.2⟩
  rw [outsideOf_raiseOutside hl, if_pos rfl]
  exact h.take (hst.each l) hx

theorem outsideOf_tops (h : Estimates order g o w v R) {top label : Symbol} {tops : List Symbol}
    (htops : top ∈ tops) {a : T} (htop : R (st.outsideOf ⟨i, j, top⟩) a) (ha : a ≠ Score.zero)
    {x : S} {c : T} (hedge : ⟨label, x⟩ ∈
      (((scored order g w o lattice pruner).cell i j).unary true).edges top) (hx : R x c) :
    R ((tops.foldl (passUnary (((scored order g w o lattice pruner).cell i j).unary true) i j)
      st).outsideOf ⟨i, j, label⟩) (Score.mul a c) := by
  obtain ⟨mid, hmid, hafter⟩ := h.downward.exists_turn
    (fun label _ _ hst => h.downward.lowered_passUnary label hst) hst htops
  have hat := hmid.keeps _ a htop
  obtain ⟨mid', hmid', hraise⟩ := h.downward.exists_raise_unary hmid.within
    (h.nonzero hat ha) hedge
  exact hafter.keeps _ _ (hraise.keeps _ _ (h.outsideOf_raised hmid'.within
    (span_of_edges_unary hedge).1 (h.mul hat hx)))

theorem outsideOf_bottoms (h : Estimates order g o w v R) {label : Symbol} {bottoms : List Symbol}
    (hbottoms : label ∈ bottoms) {a : T} (hat : R (st.outsideOf ⟨i, j, label⟩) a)
    (ha : a ≠ Score.zero) {e : ScoredEdge S}
    (hedge : e ∈ ((scored order g w o lattice pruner).built.get i j).edges label) {b : T}
    (hb : R e.score b) {k : Nat} {t : SpanLabel} (ht : e.tails[k]? = some t) {cs : List T}
    (hcs : List.Forall₂ R ((e.tails.eraseIdx k).map (scored order g w o lattice pruner).insideOf) cs) :
    R ((bottoms.foldl (passBuilt ((scored order g w o lattice pruner).built.get i j) i j)
      st).outsideOf t) (Score.product (Score.mul a b) cs) := by
  obtain ⟨mid, hmid, hafter⟩ := h.downward.exists_turn
    (fun label _ _ hst => h.downward.lowered_passBuilt label hst) hst hbottoms
  have hat := hmid.keeps _ a hat
  obtain ⟨mid', hmid', hraise⟩ := h.downward.exists_raise_built hedge hmid.within
    (h.nonzero hat ha) ht
  obtain ⟨hlt, hle, -⟩ := tails_of_built hedge (List.mem_of_getElem? ht)
  exact hafter.keeps _ _ (hraise.keeps _ _ (h.outsideOf_raised hmid'.within ⟨hlt, hle⟩
    (h.standsFor.product (h.mul hat hb) hcs)))

end Span

/-! ## The topmost label -/

/-- What stands around a label of a span stands around the topmost one, but for the unary rules
between them. -/
def Topped (R : S → T → Prop) (g : Grammar V) (v : Weighting V T) (o : Options V)
    (pruner : Pruner) (st : ScoreState V S) (l : SpanLabel) (y : T) : Prop :=
  ∃ top a n c, R (st.outsideOf ⟨l.first, l.last, top⟩) a ∧ UnaryPath g v o l.label n top c ∧
    y = Score.mul a c ∧ pruner.skipsLabel l.first l.last top = false

omit [Score T] in
theorem mem_leftSides_of_has {i j : Nat} {label : Symbol}
    (hhas : ((scored order g w o lattice pruner).final.get i j).has label = true) :
    label ∈ g.leftSides o := by
  obtain ⟨hspan, hleft⟩ := isLeft_of_has_final hhas
  obtain ⟨-, b, n, x, ⟨-, a, pair, -, -, hpair, hb⟩, hpath⟩ :=
    (has_final_iff order g w o hspan hleft label).mp hhas
  cases hpath with
  | start => exact hb ▸ Grammar.mem_leftSides (Grammar.mem_pairs_of_pair? hpair)
  | step _ rule => exact Grammar.mem_leftSides (Grammar.mem_pairs_of_mem_unaryRules rule)

theorem places_of_split {parts : Trail Derivation} {front back : List Derivation} {d : Derivation}
    (split : parts.entries = front ++ d :: back) :
    (parts.map Derivation.place).entries[front.length]? = some d.place ∧
      (parts.map Derivation.place).entries.eraseIdx front.length =
        (front ++ back).map Derivation.place := by
  rw [Trail.entries_map, split, List.map_append, List.map_cons]
  constructor
  · simp
  · rw [List.eraseIdx_append_of_length_le (by simp)]
    simp

variable [LinearOrder T] [LawfulScore T]

section Topped

variable {st : ScoreState V S} {l : SpanLabel} {y : T}
  (hst : Within order g w o lattice pruner (fun _ x => ∃ a, R x a) st)
  (htop : Topped R g v o pruner st l y) (hy : y ≠ Score.zero)
include hst htop hy

theorem Topped.outsideOf_tops (h : Estimates order g o w v R)
    (hhas : ((scored order g w o lattice pruner).final.get l.first l.last).has l.label = true)
    {tops : List Symbol} (htops : ∀ label,
      ∀ e ∈ (((scored order g w o lattice pruner).cell l.first l.last).unary true).edges label,
        label ∈ tops) :
    R ((tops.foldl (passUnary (((scored order g w o lattice pruner).cell l.first l.last).unary true)
      l.first l.last) st).outsideOf l) y := by
  obtain ⟨top, a, n, c, hR, hpath, rfl, hskip⟩ := htop
  obtain ⟨hspan, hleft⟩ := isLeft_of_has_final hhas
  obtain ⟨x, hget, hx⟩ := h.closure _ (mem_leftSides_of_has hhas) hpath
  have hedge := (mem_unary_iff order g w o hspan hleft true top ⟨l.label, x⟩).mpr
    ⟨hget, hskip, hhas⟩
  have ha : a ≠ Score.zero := by
    rintro rfl
    exact hy (LawfulScore.zero_mul c)
  exact h.outsideOf_tops hst (htops _ _ hedge) hR ha hedge hx

theorem Topped.outsideOf_span (h : Estimates order g o w v R)
    (hhas : ((scored order g w o lattice pruner).final.get l.first l.last).has l.label = true) :
    R ((st.outsideSpan (l.first, l.last)).outsideOf l) y := by
  obtain ⟨tops, mids, bottoms, htops, -, heq⟩ :=
    Downward.exists_passes hst.only l.first l.last
  have hfinal := htop.outsideOf_tops hst hy h hhas htops
  have hclosed := h.downward.lowered_tier (i := l.first) (j := l.last) false mids
    (h.downward.lowered_tier (i := l.first) (j := l.last) true tops hst).within
  rw [heq]
  exact (h.downward.lowered_built bottoms hclosed.within).keeps _ _ (hclosed.keeps _ _ hfinal)

theorem Topped.outsideOf_part (h : Estimates order g o w v R) {rule : RuleName}
    {parts : Trail Derivation} (made : (Derivation.node l rule parts).Made g o lattice pruner)
    (hbegins : ¬parts.Begins (l.first, l.last) l.first l.last) {front back : List Derivation}
    {d : Derivation} (split : parts.entries = front ++ d :: back) :
    R ((st.outsideSpan (l.first, l.last)).outsideOf d.place) (Score.mul y (Score.mul
      (Score.product Score.one ((front ++ back).map (Derivation.score g v lattice)))
      (parts.ownScore g v lattice rule))) := by
  obtain ⟨tops, mids, bottoms, htops, hbottoms, heq⟩ :=
    Downward.exists_passes hst.only l.first l.last
  have hfinal := htop.outsideOf_tops hst hy h (h.insideOf_of_made made).1 htops
  -- the passes over the unary tiers leave what they have brought to the head of the match
  have hclosed := h.downward.lowered_tier (i := l.first) (j := l.last) false mids
    (h.downward.lowered_tier (i := l.first) (j := l.last) true tops hst).within
  have hat := hclosed.keeps _ _ hfinal
  have hparts := fun d hd => h.insideOf_of_made (made.parts d hd)
  cases made with
  | @node _ _ _ pair span spanLeft labelLeft named label fits below =>
    have hedge := (mem_built_iff order g w o span spanLeft l.label
      (Application.edge w lattice pair ⟨rule, parts.map Derivation.place⟩)).mpr
      ⟨labelLeft, _, pair, fits_places fits fun d hd => (hparts d hd).1,
        by rw [Trail.begins_map]; exact hbegins, named, label, rfl⟩
    have hown : R (Application.edge w lattice pair ⟨rule, parts.map Derivation.place⟩).score
        (parts.ownScore g v lattice rule) := by
      rw [Trail.ownScore, Grammar.ruleScore_of_pair? named v,
        ← Trail.arcScore_map v lattice Derivation.place]
      exact h.mul (h.standsFor.arcScore _) (h.weight _)
    obtain ⟨ht, herase⟩ := places_of_split split
    have hsiblings : List.Forall₂ R
        (((Application.edge w lattice pair ⟨rule, parts.map Derivation.place⟩).tails.eraseIdx
          front.length).map (scored order g w o lattice pruner).insideOf)
        ((front ++ back).map (Derivation.score g v lattice)) := by
      rw [Application.edge, herase]
      refine forall₂_scores fun f hf => (hparts f ?_).2
      rw [split, List.mem_append, List.mem_cons]
      exact (List.mem_append.mp hf).imp_right Or.inr
    have hpart := h.outsideOf_bottoms hclosed.within (hbottoms _ _ hedge) hat hy hedge hown ht
      hsiblings
    rw [heq]
    rw [LawfulScore.product_eq, LawfulScore.mul_assoc] at hpart
    rw [LawfulScore.mul_comm (Score.product Score.one _)]
    exact hpart

end Topped

omit [LinearOrder T] [LawfulScore T] in
theorem keeps_passed (h : Estimates order g o w v R) {done : List (Nat × Nat)} {l : SpanLabel} {a : T}
    (hR : R ((passed order g w o lattice pruner done).outsideOf l) a) (rest : List (Nat × Nat)) :
    R ((passed order g w o lattice pruner (done ++ rest)).outsideOf l) a :=
  (h.downward.lowered_passed ⟨_, h.one⟩ done rest).keeps l a hR

theorem topped_goal (h : Estimates order g o w v R) {d : Derivation}
    (hd : d.Made g o lattice pruner)
    (hplace : d.place = ⟨0, lattice.size, o.goal⟩) (done : List (Nat × Nat)) :
    Topped R g v o pruner (passed order g w o lattice pruner done) ⟨0, lattice.size, o.goal⟩
      Score.one := by
  have hstart : R ((passed order g w o lattice pruner []).outsideOf ⟨0, lattice.size, o.goal⟩)
      Score.one := by
    rw [outsideOf_passed_nil w, if_pos rfl]
    exact h.one
  have hskip := hd.labelLeft
  rw [hplace] at hskip
  exact ⟨o.goal, Score.one, 0, Score.one, h.keeps_passed hstart done, .start,
    (LawfulScore.one_mul _).symm, hskip⟩

theorem Topped.unary {st : ScoreState V S} {place : SpanLabel} {x : T}
    (htop : Topped R g v o pruner st place x) {rule : RuleName} {pair : RulePair V}
    (named : g.pair? rule = some pair) (label : (pair.side o.yieldSource).lhs = place.label)
    {f : Derivation} (hfirst : f.place.first = place.first) (hlast : f.place.last = place.last)
    (hunary : pair ∈ g.unaryRules f.place.label) :
    Topped R g v o pruner st f.place (Score.mul x (Score.mul (Score.product Score.one [])
      ((Trail.entry .start place.first f).ownScore g v lattice rule))) := by
  obtain ⟨top, a, n, c, hR, hpath, rfl, hskip⟩ := htop
  rw [← label] at hpath
  rw [← hfirst, ← hlast] at hR hskip
  refine ⟨top, a, n + 1, _, hR, .cons hunary hpath, ?_, hskip⟩
  rw [Trail.ownScore_unary named]
  change Score.mul _ (Score.mul Score.one _) = _
  rw [LawfulScore.one_mul, LawfulScore.mul_assoc, LawfulScore.mul_comm c]

theorem topped_part (h : Estimates order g o w v R) {place : SpanLabel} {rule : RuleName}
    {parts : Trail Derivation} (made : (Derivation.node place rule parts).Made g o lattice pruner)
    (hbegins : ¬parts.Begins (place.first, place.last) place.first place.last)
    {front back : List Derivation} {f : Derivation} (split : parts.entries = front ++ f :: back)
    {x : T} (hx : x ≠ Score.zero) {before : List (Nat × Nat)}
    (htop : Topped R g v o pruner (passed order g w o lattice pruner before) place x)
    (after : List (Nat × Nat)) :
    Topped R g v o pruner
      (passed order g w o lattice pruner (before ++ (place.first, place.last) :: after)) f.place
      (Score.mul x (Score.mul
        (Score.product Score.one ((front ++ back).map (Derivation.score g v lattice)))
        (parts.ownScore g v lattice rule))) := by
  have hf : f ∈ parts.entries := split ▸ List.mem_append_right front List.mem_cons_self
  have hpart := htop.outsideOf_part (h.downward.within_passed ⟨_, h.one⟩ before) hx h made hbegins
    split
  rw [← passed_append] at hpart
  have hlater := h.keeps_passed hpart after
  rw [List.append_assoc, List.singleton_append] at hlater
  exact ⟨f.place.label, _, 0, Score.one, hlater, .start, (LawfulScore.mul_one _).symm,
    (made.parts f hf).labelLeft⟩

/-- When the pass comes to a span, what stands around each of its labels has been passed to the
topmost one. -/
theorem topped_of_context (h : Estimates order g o w v R) {l : SpanLabel} {y : T}
    (hcontext : Context g v o lattice pruner l y) (hy : y ≠ Score.zero)
    {d : Derivation} (hd : d.Made g o lattice pruner) (hplace : d.place = l)
    {done rest : List (Nat × Nat)}
    (hsplit : Chart.spansFromLong lattice.size = done ++ (l.first, l.last) :: rest) :
    Topped R g v o pruner (passed order g w o lattice pruner done) l y := by
  induction hcontext generalizing d done rest with
  | goal => exact h.topped_goal hd hplace done
  | @step place rule parts x front back f above made split ih =>
    have hx : x ≠ Score.zero := by
      rintro rfl
      exact hy (LawfulScore.zero_mul _)
    have hmade := made
    cases made with
    | @node _ _ _ pair span spanLeft labelLeft named label fits below =>
      by_cases hbegins : parts.Begins (place.first, place.last) place.first place.last
      · obtain ⟨e, rfl, hfirst, hlast, hunary⟩ := fits.exists_below hbegins named
        obtain ⟨rfl, hf⟩ :=
          List.append_eq_singleton_iff.mp split.symm |>.resolve_right (by simp)
        obtain ⟨rfl, rfl⟩ := List.cons_eq_cons.mp hf
        rw [hfirst, hlast] at hsplit
        exact (ih hx hmade rfl hsplit).unary named label hfirst hlast hunary
      · obtain ⟨t, -, hover, -⟩ := fits
        obtain ⟨p, q, hplaced⟩ := Trail.exists_placed (split ▸ List.mem_append_right front
          List.mem_cons_self : f ∈ parts.entries) place.last
        have hinside := hover.placed_inside hbegins hplaced
        obtain ⟨-, -, -, rfl, rfl⟩ := hover.mem_placed hplaced
        -- the span of the head is longer, so it comes before the span of the part
        have hdone : (place.first, place.last) ∈ done :=
          (Chart.mem_passed_iff hsplit).mpr ⟨span.1, span.2, Or.inl hinside⟩
        obtain ⟨before, after, rfl⟩ := List.append_of_mem hdone
        rw [List.append_assoc, List.cons_append] at hsplit
        exact h.topped_part hmade hbegins split hx (ih hx hmade rfl hsplit) after

theorem outsideOf_of_context (h : Estimates order g o w v R) {l : SpanLabel} {y : T}
    (hcontext : Context g v o lattice pruner l y) (hy : y ≠ Score.zero)
    {d : Derivation} (hd : d.Made g o lattice pruner) (hplace : d.place = l) :
    R (((scored order g w o lattice pruner).runOutside o.goal lattice.size).outsideOf l) y := by
  have hgoal : ∃ a, R Score.one a := ⟨_, h.one⟩
  have hhas := (h.insideOf_of_made hd).1
  have hspan := hd.span
  rw [hplace] at hhas hspan
  have hmem : (l.first, l.last) ∈ Chart.spansFromLong lattice.size :=
    Chart.mem_spansFromLong.mpr hspan
  obtain ⟨done, rest, hsplit⟩ := List.append_of_mem hmem
  have htop := h.topped_of_context hcontext hy hd hplace hsplit
  have hat := htop.outsideOf_span (h.downward.within_passed hgoal done) hy h hhas
  rw [← passed_append] at hat
  have hlater := h.keeps_passed hat rest
  rw [List.append_assoc, List.singleton_append, ← hsplit] at hlater
  exact hlater

end ParseForest.Estimates
