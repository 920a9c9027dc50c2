import ParseForest.Proofs.Posterior.Tiers

/-!
# What holds of inside scores

The inside score of a label is the better one of the scores that its label is raised by: those of
matches, made of inside scores of shorter spans, and those of closures, made of inside scores of
the same span. What matches, closures and the choice of the better score pass on holds of all
inside scores.
-/

namespace ParseForest

variable {V S : Type} [Score S]

namespace ScoreCell

variable {P : S → Prop} (hbest : ∀ x y, (x = Score.zero ∨ P x) → P y → P (Score.best x y))
  {steps : List (ScoreStep S)} {label : Symbol}
include hbest

theorem scoreAfter_eq_zero_or (hsteps : ∀ s ∈ steps, s.label = label → P s.value) :
    scoreAfter steps label = Score.zero ∧ (∀ s ∈ steps, s.label ≠ label) ∨
      P (scoreAfter steps label) := by
  induction steps using List.reverseRecOn with
  | nil => exact Or.inl ⟨rfl, fun s hs => by cases hs⟩
  | append_singleton steps s ih =>
    have ih := ih fun t ht => hsteps t (List.mem_append_left _ ht)
    rw [scoreAfter, after_append, inside_take, scoreOf_raise]
    split
    · rename_i hl
      subst hl
      exact Or.inr (hbest _ _ (ih.imp And.left id)
        (hsteps s (List.mem_append_right _ List.mem_cons_self) rfl))
    · rename_i hl
      refine ih.imp_left fun h => ⟨h.1, fun t ht => ?_⟩
      rcases List.mem_append.mp ht with ht | ht
      · exact h.2 t ht
      · rw [List.mem_singleton.mp ht]
        exact Ne.symm hl

theorem of_scoreAfter (hsteps : ∀ s ∈ steps, s.label = label → P s.value)
    (hlabel : ∃ s ∈ steps, s.label = label) : P (scoreAfter steps label) := by
  rcases scoreAfter_eq_zero_or hbest hsteps with ⟨-, hnone⟩ | h
  · obtain ⟨s, hs, hl⟩ := hlabel
    exact absurd hl (hnone s hs)
  · exact h

end ScoreCell

namespace ScoreState

/-- The property `P` of labels over spans and scores is passed on by the inside pass. -/
structure Hereditary (order : ClosureOrder) (g : Grammar V) (w : Weighting V S) (o : Options V)
    (lattice : Lattice V) (pruner : Pruner) (P : SpanLabel → S → Prop) : Prop where
  best : ∀ l x y, (x = Score.zero ∨ P l x) → P l y → P l (Score.best x y)
  build : ∀ i j, (i < j ∧ j ≤ lattice.size) → pruner.skipsSpan i j = false →
    ∀ (a : Application SpanLabel) (pair : RulePair V),
      a.Fits SpanLabel.label g o lattice (listed (finals order g w o lattice pruner)) i j →
      ¬a.parts.Begins (i, j) i j → g.pair? a.rule = some pair →
      pruner.skipsLabel i j (pair.side o.yieldSource).lhs = false →
      (∀ l ∈ a.parts.entries, P l ((scored order g w o lattice pruner).insideOf l)) →
      P ⟨i, j, (pair.side o.yieldSource).lhs⟩ (Score.mul
        (Score.product Score.one (a.parts.entries.map (scored order g w o lattice pruner).insideOf))
        (a.edge w lattice pair).score)
  reach : ∀ i j child label x y, pruner.skipsLabel i j label = false →
    ((scored order g w o lattice pruner).final.get i j).has child = true → P ⟨i, j, child⟩ x →
    LabelMap.get? (unaryClosureIn order g w o child) label = some y → P ⟨i, j, label⟩
      (Score.mul x y)

namespace Hereditary

variable {order : ClosureOrder} {g : Grammar V} {w : Weighting V S} {o : Options V}
  {lattice : Lattice V} {pruner : Pruner} {P : SpanLabel → S → Prop}

theorem passes (h : Hereditary order g w o lattice pruner P) {first last : Nat} {toFinal : Bool}
    {base steps : List (ScoreStep S)} {children : List Symbol}
    (hpass : Passes (unaryClosureIn order g w o) ⟨o, pruner, first, last⟩ toFinal base children steps)
    (hbase : ∀ s ∈ base, P ⟨first, last, s.label⟩ s.value)
    (hchildren : ∀ child ∈ children, ∃ s ∈ base, s.label = child)
    (hfinal : ∀ s ∈ base,
      ((scored order g w o lattice pruner).final.get first last).has s.label = true) :
    ∀ s ∈ steps, P ⟨first, last, s.label⟩ s.value := by
  induction hpass with
  | nil => exact fun s hs => by cases hs
  | @snoc children steps new child _ reached ih =>
    have ih := ih fun c hc => hchildren c (List.mem_append_left _ hc)
    obtain ⟨t, ht, htl⟩ := hchildren child (List.mem_append_right _ List.mem_cons_self)
    have hchild : P ⟨first, last, child⟩ (ScoreCell.scoreAfter (base ++ steps) child) := by
      refine ScoreCell.of_scoreAfter (h.best _) (fun s hs hl => ?_)
        ⟨t, List.mem_append_left _ ht, htl⟩
      rw [← hl]
      rcases List.mem_append.mp hs with hs | hs
      · exact hbase s hs
      · exact ih s hs
    intro s hs
    rcases List.mem_append.mp hs with hs | hs
    · exact ih s hs
    · obtain ⟨label, score, hget, hskip, rfl⟩ := (reached s).mp hs
      exact h.reach _ _ child _ _ _ hskip (htl ▸ hfinal t ht) hchild hget

theorem exists_steps_of (h : Hereditary order g w o lattice pruner P) {first last : Nat}
    (hspan : first < last ∧ last ≤ lattice.size) (hleft : pruner.skipsSpan first last = false)
    (hbelow : ∀ l, l.last - l.first < last - first →
      ((scored order g w o lattice pruner).final.get l.first l.last).has l.label = true →
        P l ((scored order g w o lattice pruner).insideOf l)) :
    ∃ builds closes ends,
      (scored order g w o lattice pruner).cell first last =
        ScoreCell.after (builds ++ (closes ++ ends)) ∧
      Builds g w lattice ⟨o, pruner, first, last⟩ (listed (finals order g w o lattice pruner))
        (scored order g w o lattice pruner).insideOf builds ∧
      Closes (unaryClosureIn order g w o) ⟨o, pruner, first, last⟩ builds closes ends ∧
      ∀ s ∈ builds ++ (closes ++ ends), P ⟨first, last, s.label⟩ s.value := by
  obtain ⟨builds, closes, ends, hcell, hbuilds, hcloses⟩ := exists_steps order g w o hspan hleft
  refine ⟨builds, closes, ends, hcell, hbuilds, hcloses, ?_⟩
  obtain ⟨⟨children, hchildren, hclose⟩, children', hchildren', hend⟩ := hcloses
  have hfinal : ∀ s ∈ builds ++ (closes ++ ends),
      ((scored order g w o lattice pruner).final.get first last).has s.label = true := by
    intro s hs
    have hinside : (scored order g w o lattice pruner).inside.get first last =
        (ScoreCell.after (builds ++ (closes ++ ends))).inside := congrArg ScoreCell.inside hcell
    rw [← isSome_inside_iff, hinside]
    exact ScoreCell.isSome_inside.mpr ⟨s, hs, rfl⟩
  -- the parts of a match lie inside the span; the two passes go over labels that have steps
  have hb : ∀ s ∈ builds, P ⟨first, last, s.label⟩ s.value := by
    intro s hs
    obtain ⟨a, pair, hfits, hbegins, hpair, hskip, rfl⟩ := (hbuilds s).mp hs
    refine h.build first last hspan hleft a pair hfits hbegins hpair hskip fun l hl => ?_
    obtain ⟨t, -, hover, -⟩ := hfits
    obtain ⟨p, q, hplaced⟩ := Trail.exists_placed hl last
    have hlt := hover.placed_inside hbegins hplaced
    obtain ⟨rfl, rfl, hhas⟩ := mem_finals.mp (hover.mem_placed hplaced).2.2.2
    exact hbelow l hlt hhas
  have hc := h.passes hclose hb
    (fun child hchild => by
      obtain ⟨e, x, hs⟩ := (hchildren child).mp hchild
      exact ⟨_, hs, rfl⟩)
    fun s hs => hfinal s (List.mem_append_left _ hs)
  have hbc : ∀ s ∈ builds ++ closes, P ⟨first, last, s.label⟩ s.value := fun s hs =>
    (List.mem_append.mp hs).elim (hb s) (hc s)
  have he := h.passes hend hbc
    (fun child hchild => by
      obtain ⟨e, x, hs⟩ := (hchildren' child).mp hchild
      exact ⟨_, List.mem_append_right _ hs, rfl⟩)
    fun s hs => hfinal s (by
      rw [← List.append_assoc]
      exact List.mem_append_left _ hs)
  intro s hs
  rw [← List.append_assoc] at hs
  exact (List.mem_append.mp hs).elim (hbc s) (he s)

theorem insideOf (h : Hereditary order g w o lattice pruner P) {i j : Nat} {label : Symbol}
    (hhas : ((scored order g w o lattice pruner).final.get i j).has label = true) :
    P ⟨i, j, label⟩ ((scored order g w o lattice pruner).insideOf ⟨i, j, label⟩) := by
  induction hlength : j - i using Nat.strongRecOn generalizing i j label with
  | _ length ih =>
    obtain ⟨hspan, hleft⟩ := isLeft_of_has_final hhas
    obtain ⟨builds, closes, ends, hcell, -, -, hsteps⟩ := h.exists_steps_of hspan hleft
      fun l hl hhas => ih (l.last - l.first) (hlength ▸ hl) hhas rfl
    have hinside : (scored order g w o lattice pruner).inside.get i j =
        (ScoreCell.after (builds ++ (closes ++ ends))).inside := congrArg ScoreCell.inside hcell
    have hsome := isSome_inside_iff.mpr hhas
    rw [hinside, ScoreCell.isSome_inside] at hsome
    rw [ScoreState.insideOf, hinside]
    refine ScoreCell.of_scoreAfter (h.best _) (fun s hs hl => ?_) hsome
    have hs := hsteps s hs
    rw [hl] at hs
    exact hs

theorem exists_steps (h : Hereditary order g w o lattice pruner P) {first last : Nat}
    (hspan : first < last ∧ last ≤ lattice.size) (hleft : pruner.skipsSpan first last = false) :
    ∃ builds closes ends,
      (scored order g w o lattice pruner).cell first last =
        ScoreCell.after (builds ++ (closes ++ ends)) ∧
      Builds g w lattice ⟨o, pruner, first, last⟩ (listed (finals order g w o lattice pruner))
        (scored order g w o lattice pruner).insideOf builds ∧
      Closes (unaryClosureIn order g w o) ⟨o, pruner, first, last⟩ builds closes ends ∧
      ∀ s ∈ builds ++ (closes ++ ends), P ⟨first, last, s.label⟩ s.value :=
  h.exists_steps_of hspan hleft fun _ _ hhas => h.insideOf hhas

end Hereditary

end ScoreState

end ParseForest
