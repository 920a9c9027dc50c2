import ParseForest.Proofs.Posterior.Outside
import ParseForest.Proofs.Posterior.Tiers

/-!
# What the outside pass hands down

The outside pass reads the outside score of a label and raises those of the labels below it. What
is handed down along the edges of the tiers holds of all outside scores that are not zero, and a
relation between the scores before and after one raise holds between those before and after any
part of the pass.
-/

namespace ParseForest.ScoreState

variable {V S : Type} [Score S]

section

variable (order : ClosureOrder) (g : Grammar V) (w : Weighting V S) (o : Options V)
  (lattice : Lattice V) (pruner : Pruner) (Q : SpanLabel → S → Prop) (K : S → S → Prop)

/-- The property `Q` is handed down along the edges, and raising a score is a step of `K`. -/
structure Downward : Prop where
  zero : Score.isZero (Score.zero : S) = true
  refl : ∀ x, K x x
  trans : ∀ {x y z}, K x y → K y z → K x z
  raise : ∀ {l x y}, (x = Score.zero ∨ Q l x) → Q l y → K x (Score.best x y)
  unary : ∀ {i j toFinal label e x},
    e ∈ (((scored order g w o lattice pruner).cell i j).unary toFinal).edges label →
    Q ⟨i, j, label⟩ x → Score.isZero x = false → Q ⟨i, j, e.tail⟩ (Score.mul x e.score)
  built : ∀ {i j label e x k t}, e ∈ ((scored order g w o lattice pruner).built.get i j).edges label →
    Q ⟨i, j, label⟩ x → Score.isZero x = false → e.tails[k]? = some t →
    Q t (Score.product (Score.mul x e.score)
      ((e.tails.eraseIdx k).map (scored order g w o lattice pruner).insideOf))

structure Within (st : ScoreState V S) : Prop where
  only : OnlyOutside (scored order g w o lattice pruner) st
  size : st.outside.size = lattice.size
  each : ∀ l, st.outsideOf l = Score.zero ∨ Q l (st.outsideOf l)

structure Lowered (st st' : ScoreState V S) : Prop where
  within : Within order g w o lattice pruner Q st'
  keeps : ∀ l, K (st.outsideOf l) (st'.outsideOf l)

end

variable {order : ClosureOrder} {g : Grammar V} {w : Weighting V S} {o : Options V}
  {lattice : Lattice V} {pruner : Pruner} {Q : SpanLabel → S → Prop} {K : S → S → Prop}

theorem span_of_edges_unary {i j : Nat} {toFinal : Bool} {label : Symbol} {e : UnaryEdge S}
    (h : e ∈ (((scored order g w o lattice pruner).cell i j).unary toFinal).edges label) :
    (i < j ∧ j ≤ lattice.size) ∧ pruner.skipsSpan i j = false := by
  have hnot : (scored order g w o lattice pruner).cell i j ≠ ScoreCell.blank := by
    intro hblank
    rw [hblank] at h
    cases toFinal <;> simp [ScoreCell.unary, ScoreCell.blank, EdgeMap.edges, LabelMap.get?] at h
  exact isLeft_of_cell hnot

theorem span_of_edges_built {i j : Nat} {label : Symbol} {e : ScoredEdge S}
    (h : e ∈ ((scored order g w o lattice pruner).built.get i j).edges label) :
    (i < j ∧ j ≤ lattice.size) ∧ pruner.skipsSpan i j = false := by
  have hnot : (scored order g w o lattice pruner).cell i j ≠ ScoreCell.blank := by
    intro hblank
    have hbuilt : (scored order g w o lattice pruner).built.get i j = [] :=
      congrArg ScoreCell.built hblank
    rw [hbuilt] at h
    simp [EdgeMap.edges, LabelMap.get?] at h
  exact isLeft_of_cell hnot

theorem tails_of_built {i j : Nat} {label : Symbol} {e : ScoredEdge S}
    (h : e ∈ ((scored order g w o lattice pruner).built.get i j).edges label) {t : SpanLabel}
    (ht : t ∈ e.tails) : t.first < t.last ∧ t.last ≤ lattice.size ∧ t.last - t.first < j - i ∧
      ((scored order g w o lattice pruner).final.get t.first t.last).has t.label = true := by
  obtain ⟨hspan, hleft⟩ := span_of_edges_built h
  obtain ⟨-, a, pair, ⟨table, -, hover, -⟩, hbegins, -, -, rfl⟩ :=
    (mem_built_iff order g w o hspan hleft label e).mp h
  obtain ⟨p, q, hplaced⟩ := Trail.exists_placed ht j
  have hlt := hover.placed_inside hbegins hplaced
  obtain ⟨-, hpq, hq, hmem⟩ := hover.mem_placed hplaced
  obtain ⟨rfl, rfl, hhas⟩ := mem_finals.mp hmem
  exact ⟨hpq, Nat.le_trans hq hspan.2, hlt, hhas⟩

theorem outsideOf_raiseOutside {st : ScoreState V S} {l : SpanLabel}
    (h : st.outside.IsSpan l.first l.last) (x : S) (m : SpanLabel) :
    (st.raiseOutside l x).outsideOf m =
      if m = l then Score.best (st.outsideOf l) x else st.outsideOf m := by
  unfold outsideOf raiseOutside
  simp only [Chart.get_modify _ _ _ _ _ _ h]
  by_cases hspan : m.first = l.first ∧ m.last = l.last
  · rw [if_pos hspan, scoreOf_raise, hspan.1, hspan.2]
    by_cases hlabel : m.label = l.label
    · have heq : m = l := by
        cases m
        cases l
        simp_all
      rw [if_pos hlabel, if_pos heq]
    · rw [if_neg hlabel, if_neg fun heq => hlabel (congrArg SpanLabel.label heq)]
  · rw [if_neg hspan, if_neg fun heq => hspan ⟨congrArg SpanLabel.first heq,
      congrArg SpanLabel.last heq⟩]

namespace Downward

variable (h : Downward order g w o lattice pruner Q K) {st st' : ScoreState V S}
include h

theorem lowered_refl (hst : Within order g w o lattice pruner Q st) :
    Lowered order g w o lattice pruner Q K st st := ⟨hst, fun _ => h.refl _⟩

theorem lowered_trans {st'' : ScoreState V S} (hst : Lowered order g w o lattice pruner Q K st st')
    (hst' : Lowered order g w o lattice pruner Q K st' st'') :
    Lowered order g w o lattice pruner Q K st st'' :=
  ⟨hst'.within, fun l => h.trans (hst.keeps l) (hst'.keeps l)⟩

theorem lowered_raise (hst : Within order g w o lattice pruner Q st) {l : SpanLabel}
    (hspan : l.first < l.last ∧ l.last ≤ lattice.size) {x : S} (hx : Q l x) :
    Lowered order g w o lattice pruner Q K st (st.raiseOutside l x) := by
  have hl : st.outside.IsSpan l.first l.last := ⟨Nat.le_of_lt hspan.1, hst.size ▸ hspan.2⟩
  refine ⟨⟨hst.only.trans ⟨_, rfl⟩, (Chart.size_modify _ _ _ _).trans hst.size, fun m => ?_⟩,
    fun m => ?_⟩
  · rw [outsideOf_raiseOutside hl]
    split
    · rename_i hm
      subst hm
      rcases best_eq (st.outsideOf m) x with heq | heq
      · rw [heq]
        exact hst.each m
      · rw [heq]
        exact Or.inr hx
    · exact hst.each m
  · rw [outsideOf_raiseOutside hl]
    split
    · rename_i hm
      subst hm
      exact h.raise (hst.each m) hx
    · exact h.refl _

section Fold

variable {α : Type} {f : ScoreState V S → α → ScoreState V S} {xs : List α}
  (hf : ∀ a ∈ xs, ∀ st, Within order g w o lattice pruner Q st →
    Lowered order g w o lattice pruner Q K st (f st a))
include hf

theorem lowered_foldl (hst : Within order g w o lattice pruner Q st) :
    Lowered order g w o lattice pruner Q K st (xs.foldl f st) := by
  induction xs generalizing st with
  | nil => exact h.lowered_refl hst
  | cons a xs ih =>
    have hstep := hf a List.mem_cons_self st hst
    exact h.lowered_trans hstep (ih (fun b hb => hf b (List.mem_cons_of_mem a hb)) hstep.within)

theorem exists_turn (hst : Within order g w o lattice pruner Q st) {a : α} (ha : a ∈ xs) :
    ∃ mid, Lowered order g w o lattice pruner Q K st mid ∧
      Lowered order g w o lattice pruner Q K (f mid a) (xs.foldl f st) := by
  obtain ⟨front, back, rfl⟩ := List.append_of_mem ha
  have hfront := h.lowered_foldl (fun b hb => hf b (List.mem_append_left _ hb)) hst
  have hturn := hf a ha _ hfront.within
  refine ⟨_, hfront, ?_⟩
  rw [List.foldl_append, List.foldl_cons]
  exact h.lowered_foldl
    (fun b hb => hf b (List.mem_append_right _ (List.mem_cons_of_mem a hb))) hturn.within

end Fold

/-! ## The passes of a span -/

theorem each_of_nonzero (hst : Within order g w o lattice pruner Q st) {l : SpanLabel}
    (hl : Score.isZero (st.outsideOf l) = false) : Q l (st.outsideOf l) := by
  refine (hst.each l).resolve_left fun hzero => ?_
  rw [hzero, h.zero] at hl
  cases hl

section Unary

variable {i j : Nat} {toFinal : Bool} {label : Symbol}

theorem lowered_edge {x : S} (hx : Q ⟨i, j, label⟩ x) (hzero : Score.isZero x = false) :
    ∀ e ∈ ((((scored order g w o lattice pruner).cell i j).unary toFinal).edges label).toList,
      ∀ st, Within order g w o lattice pruner Q st → Lowered order g w o lattice pruner Q K st
        (st.raiseOutside ⟨i, j, e.tail⟩ (Score.mul x e.score)) := by
  intro e he st hst
  rw [Array.mem_toList_iff] at he
  exact h.lowered_raise hst (span_of_edges_unary he).1 (h.unary he hx hzero)

theorem lowered_passUnary (label : Symbol) (hst : Within order g w o lattice pruner Q st) :
    Lowered order g w o lattice pruner Q K st
      (st.passUnary (((scored order g w o lattice pruner).cell i j).unary toFinal) i j label) := by
  unfold passUnary
  extract_lets head
  split
  · exact h.lowered_refl hst
  · rename_i hzero
    rw [Bool.not_eq_true] at hzero
    rw [← Array.foldl_toList]
    exact h.lowered_foldl (h.lowered_edge (h.each_of_nonzero hst hzero) hzero) hst

theorem exists_raise_unary (hst : Within order g w o lattice pruner Q st)
    (hzero : Score.isZero (st.outsideOf ⟨i, j, label⟩) = false) {e : UnaryEdge S}
    (he : e ∈ (((scored order g w o lattice pruner).cell i j).unary toFinal).edges label) :
    ∃ mid, Lowered order g w o lattice pruner Q K st mid ∧
      Lowered order g w o lattice pruner Q K
        (mid.raiseOutside ⟨i, j, e.tail⟩ (Score.mul (st.outsideOf ⟨i, j, label⟩) e.score))
        (st.passUnary (((scored order g w o lattice pruner).cell i j).unary toFinal) i j label) := by
  unfold passUnary
  extract_lets head
  rw [if_neg (Bool.not_eq_true _ ▸ hzero), ← Array.foldl_toList]
  exact h.exists_turn (h.lowered_edge (h.each_of_nonzero hst hzero) hzero) hst
    (Array.mem_toList_iff.mpr he)

end Unary

section Built

variable {i j : Nat} {label : Symbol} {e : ScoredEdge S}
  (he : e ∈ ((scored order g w o lattice pruner).built.get i j).edges label)

omit h in
theorem siblingScores_eq (hst : OnlyOutside (scored order g w o lattice pruner) st)
    (tails : List SpanLabel) (k : Nat) : st.siblingScores tails k =
      (tails.eraseIdx k).map (scored order g w o lattice pruner).insideOf := by
  obtain ⟨c, rfl⟩ := hst
  rfl

include he

theorem lowered_tail {x : S} (hx : Q ⟨i, j, label⟩ x) (hzero : Score.isZero x = false) :
    ∀ t ∈ e.tails.zipIdx, ∀ st, Within order g w o lattice pruner Q st →
      Lowered order g w o lattice pruner Q K st (st.raiseOutside t.1
        (Score.product (Score.mul x e.score) (st.siblingScores e.tails t.2))) := by
  intro t ht st hst
  have htail := List.mem_zipIdx_iff_getElem?.mp ht
  obtain ⟨hlt, hle, -⟩ := tails_of_built he (List.mem_of_getElem? htail)
  rw [siblingScores_eq hst.only]
  exact h.lowered_raise hst ⟨hlt, hle⟩ (h.built he hx hzero htail)

theorem lowered_passEdge {x : S} (hx : Q ⟨i, j, label⟩ x) (hzero : Score.isZero x = false)
    (hst : Within order g w o lattice pruner Q st) :
    Lowered order g w o lattice pruner Q K st (st.passEdge x e) :=
  h.lowered_foldl (h.lowered_tail he hx hzero) hst

theorem exists_raise_tail {x : S} (hx : Q ⟨i, j, label⟩ x) (hzero : Score.isZero x = false)
    (hst : Within order g w o lattice pruner Q st) {k : Nat} {t : SpanLabel}
    (ht : e.tails[k]? = some t) :
    ∃ mid, Lowered order g w o lattice pruner Q K st mid ∧
      Lowered order g w o lattice pruner Q K
        (mid.raiseOutside t (Score.product (Score.mul x e.score)
          ((e.tails.eraseIdx k).map (scored order g w o lattice pruner).insideOf)))
        (st.passEdge x e) := by
  have hmem : (t, k) ∈ e.tails.zipIdx := List.mem_zipIdx_iff_getElem?.mpr ht
  obtain ⟨mid, hmid, hafter⟩ := h.exists_turn (h.lowered_tail he hx hzero) hst hmem
  rw [siblingScores_eq hmid.within.only] at hafter
  exact ⟨mid, hmid, hafter⟩

omit he in
theorem lowered_passBuilt (label : Symbol) (hst : Within order g w o lattice pruner Q st) :
    Lowered order g w o lattice pruner Q K st
      (st.passBuilt ((scored order g w o lattice pruner).built.get i j) i j label) := by
  unfold passBuilt
  extract_lets head
  split
  · exact h.lowered_refl hst
  · rename_i hzero
    rw [Bool.not_eq_true] at hzero
    rw [← Array.foldl_toList]
    exact h.lowered_foldl (fun e he st hst' => h.lowered_passEdge (Array.mem_toList_iff.mp he)
      (h.each_of_nonzero hst hzero) hzero hst') hst

theorem exists_raise_built (hst : Within order g w o lattice pruner Q st)
    (hzero : Score.isZero (st.outsideOf ⟨i, j, label⟩) = false) {k : Nat} {t : SpanLabel}
    (ht : e.tails[k]? = some t) :
    ∃ mid, Lowered order g w o lattice pruner Q K st mid ∧
      Lowered order g w o lattice pruner Q K
        (mid.raiseOutside t (Score.product (Score.mul (st.outsideOf ⟨i, j, label⟩) e.score)
          ((e.tails.eraseIdx k).map (scored order g w o lattice pruner).insideOf)))
        (st.passBuilt ((scored order g w o lattice pruner).built.get i j) i j label) := by
  have hx := h.each_of_nonzero hst hzero
  unfold passBuilt
  extract_lets head
  rw [if_neg (Bool.not_eq_true _ ▸ hzero), ← Array.foldl_toList]
  obtain ⟨mid, hmid, hafter⟩ := h.exists_turn
    (fun e he st hst' => h.lowered_passEdge (Array.mem_toList_iff.mp he) hx hzero hst') hst
    (Array.mem_toList_iff.mpr he)
  obtain ⟨mid', hmid', hraise⟩ := h.exists_raise_tail he hx hzero hmid.within ht
  exact ⟨mid', h.lowered_trans hmid hmid', h.lowered_trans hraise hafter⟩

end Built

section Span

variable {i j : Nat}

theorem lowered_tier (toFinal : Bool) (labels : List Symbol)
    (hst : Within order g w o lattice pruner Q st) :
    Lowered order g w o lattice pruner Q K st
      (labels.foldl
        (passUnary (((scored order g w o lattice pruner).cell i j).unary toFinal) i j) st) :=
  h.lowered_foldl (fun label _ _ hst => h.lowered_passUnary label hst) hst

theorem lowered_built (labels : List Symbol) (hst : Within order g w o lattice pruner Q st) :
    Lowered order g w o lattice pruner Q K st
      (labels.foldl (passBuilt ((scored order g w o lattice pruner).built.get i j) i j) st) :=
  h.lowered_foldl (fun label _ _ hst => h.lowered_passBuilt label hst) hst

omit h in
theorem exists_passes (hst : OnlyOutside (scored order g w o lattice pruner) st) (i j : Nat) :
    ∃ tops mids bottoms : List Symbol,
      (∀ label, ∀ e ∈ (((scored order g w o lattice pruner).cell i j).unary true).edges label,
        label ∈ tops) ∧
      (∀ label, ∀ e ∈ ((scored order g w o lattice pruner).built.get i j).edges label,
        label ∈ bottoms) ∧
      st.outsideSpan (i, j) = bottoms.foldl
        (passBuilt ((scored order g w o lattice pruner).built.get i j) i j)
        (mids.foldl (passUnary (((scored order g w o lattice pruner).cell i j).unary false) i j)
          (tops.foldl
            (passUnary (((scored order g w o lattice pruner).cell i j).unary true) i j) st)) := by
  have hpass : ∀ tier labels st', OnlyOutside (scored order g w o lattice pruner) st' →
      OnlyOutside (scored order g w o lattice pruner)
        ((labels : List Symbol).foldl (passUnary tier i j) st') := fun tier labels st' h =>
    h.trans (OnlyOutside.foldl (OnlyOutside.passUnary tier i j) labels st')
  have hknown : ∀ st' : ScoreState V S, OnlyOutside (scored order g w o lattice pruner) st' →
      ∀ label, ((scored order g w o lattice pruner).final.get i j).has label = true →
        label ∈ st'.labels := by
    rintro _ ⟨c, rfl⟩ label hhas
    exact (tidy_scored order g w o lattice pruner).known i j label hhas
  obtain ⟨hfinal, hclosed, hbuilt⟩ : st.final = (scored order g w o lattice pruner).final ∧
      st.closed = (scored order g w o lattice pruner).closed ∧
      st.built = (scored order g w o lattice pruner).built := by
    obtain ⟨c, rfl⟩ := hst
    exact ⟨rfl, rfl, rfl⟩
  unfold outsideSpan
  simp only [hfinal, hclosed, hbuilt]
  refine ⟨_, _, _, fun label e he => ?_, fun label e he => ?_, rfl⟩
  · have hhas : ((scored order g w o lattice pruner).final.get i j).has label = true :=
      EdgeMap.has_of_mem_edges he
    exact List.mem_filter.mpr ⟨hknown _ hst label hhas, hhas⟩
  · obtain ⟨hspan, hleft⟩ := span_of_edges_built he
    obtain ⟨hskip, a, pair, hfits, hbegins, hpair, hlabel, -⟩ :=
      (mem_built_iff order g w o hspan hleft label e).mp he
    have hhas := (has_final_iff order g w o hspan hleft label).mpr
      ⟨hskip, label, 0, _, ⟨hskip, a, pair, hfits, hbegins, hpair, hlabel⟩, .start⟩
    refine List.mem_filter.mpr ⟨hknown _ ?_ label hhas, EdgeMap.has_of_mem_edges he⟩
    exact hpass _ _ _ (hpass _ _ _ hst)

theorem lowered_outsideSpan (hst : Within order g w o lattice pruner Q st) (s : Nat × Nat) :
    Lowered order g w o lattice pruner Q K st (st.outsideSpan s) := by
  obtain ⟨tops, mids, bottoms, -, -, heq⟩ := exists_passes hst.only s.1 s.2
  have hfinal := h.lowered_tier (i := s.1) (j := s.2) true tops hst
  have hclosed := h.lowered_tier (i := s.1) (j := s.2) false mids hfinal.within
  rw [show s = (s.1, s.2) from rfl, heq]
  exact h.lowered_trans (h.lowered_trans hfinal hclosed) (h.lowered_built bottoms hclosed.within)

end Span

end Downward

/-! ## The whole pass -/

variable (order g w o lattice pruner) in
def passed (done : List (Nat × Nat)) : ScoreState V S :=
  done.foldl outsideSpan { scored order g w o lattice pruner with
    outside := (scored order g w o lattice pruner).outside.modify 0 lattice.size fun m =>
      LabelMap.insert m o.goal Score.one }

theorem passed_append (done : List (Nat × Nat)) (s : Nat × Nat) :
    passed order g w o lattice pruner (done ++ [s]) =
      (passed order g w o lattice pruner done).outsideSpan s := List.foldl_append

variable (w) in
theorem outsideOf_passed_nil (l : SpanLabel) : (passed order g w o lattice pruner []).outsideOf l =
    if l = ⟨0, lattice.size, o.goal⟩ then Score.one else Score.zero := by
  have hspan : (Chart.new lattice.size : Chart (LabelMap S)).IsSpan 0 lattice.size :=
    ⟨Nat.zero_le _, Nat.le_refl _⟩
  obtain ⟨first, last, label⟩ := l
  rw [outsideOf, passed, List.foldl_nil, (tidy_scored order g w o lattice pruner).outside]
  simp only [Chart.get_modify _ _ _ _ _ _ hspan, Chart.get_new, SpanLabel.mk.injEq]
  by_cases hat : first = 0 ∧ last = lattice.size
  · simp only [hat, and_self, true_and, if_true]
    rw [scoreOf, LabelMap.insert, LabelMap.get?_upsert]
    split <;> rfl
  · rw [if_neg hat, if_neg fun h => hat ⟨h.1, h.2.1⟩]
    rfl

theorem Downward.within_passed (h : Downward order g w o lattice pruner Q K)
    (hgoal : Q ⟨0, lattice.size, o.goal⟩ Score.one) (done : List (Nat × Nat)) :
    Within order g w o lattice pruner Q (passed order g w o lattice pruner done) := by
  have hstart : Within order g w o lattice pruner Q (passed order g w o lattice pruner []) := by
    refine ⟨⟨_, rfl⟩, ?_, fun l => ?_⟩
    · exact (Chart.size_modify _ _ _ _).trans (congrArg Chart.size
        (tidy_scored order g w o lattice pruner).outside)
    · rw [outsideOf_passed_nil w l]
      split
      · rename_i hl
        rw [hl]
        exact Or.inr hgoal
      · exact Or.inl rfl
  exact (h.lowered_foldl (fun s _ _ hst => h.lowered_outsideSpan hst s) hstart).within

theorem Downward.lowered_passed (h : Downward order g w o lattice pruner Q K)
    (hgoal : Q ⟨0, lattice.size, o.goal⟩ Score.one) (done rest : List (Nat × Nat)) :
    Lowered order g w o lattice pruner Q K (passed order g w o lattice pruner done)
      (passed order g w o lattice pruner (done ++ rest)) := by
  rw [passed, passed, List.foldl_append]
  exact h.lowered_foldl (fun s _ _ hst => h.lowered_outsideSpan hst s)
    (h.within_passed hgoal done)

end ParseForest.ScoreState
