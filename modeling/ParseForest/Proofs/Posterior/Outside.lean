import ParseForest.Posterior.Parser

/-!
# The outside pass

The outside pass changes outside scores and nothing else.
-/

namespace ParseForest.ScoreState

variable {V S : Type} [Score S]

def OnlyOutside (st st' : ScoreState V S) : Prop := ∃ outside, st' = { st with outside }

namespace OnlyOutside

variable {st st' st'' : ScoreState V S}

omit [Score S] in
theorem refl (st : ScoreState V S) : OnlyOutside st st := ⟨st.outside, rfl⟩

omit [Score S] in
theorem trans (h : OnlyOutside st st') (k : OnlyOutside st' st'') : OnlyOutside st st'' := by
  obtain ⟨c, rfl⟩ := h
  obtain ⟨c', rfl⟩ := k
  exact ⟨c', rfl⟩

omit [Score S] in
theorem foldl {α : Type} {f : ScoreState V S → α → ScoreState V S}
    (h : ∀ st a, OnlyOutside st (f st a)) (l : List α) (st : ScoreState V S) :
    OnlyOutside st (l.foldl f st) := by
  induction l generalizing st with
  | nil => exact refl st
  | cons a l ih => exact (h st a).trans (ih (f st a))

theorem passUnary (tier : EdgeMap (UnaryEdge S)) (first last : Nat) (st : ScoreState V S)
    (label : Symbol) : OnlyOutside st (st.passUnary tier first last label) := by
  unfold ScoreState.passUnary
  extract_lets head
  split
  · exact refl st
  · rw [← Array.foldl_toList]
    exact foldl (fun _ _ => ⟨_, rfl⟩) _ st

theorem passEdge (head : S) (st : ScoreState V S) (e : ScoredEdge S) :
    OnlyOutside st (st.passEdge head e) := foldl (fun _ _ => ⟨_, rfl⟩) _ st

theorem passBuilt (tier : EdgeMap (ScoredEdge S)) (first last : Nat) (st : ScoreState V S)
    (label : Symbol) : OnlyOutside st (st.passBuilt tier first last label) := by
  unfold ScoreState.passBuilt
  extract_lets head
  split
  · exact refl st
  · rw [← Array.foldl_toList]
    exact foldl (fun st e => passEdge head st e) _ st

theorem outsideSpan (st : ScoreState V S) (span : Nat × Nat) :
    OnlyOutside st (st.outsideSpan span) := by
  obtain ⟨first, last⟩ := span
  have hfinal := foldl (passUnary (st.final.get first last) first last)
    ((st.final.get first last).among st.labels) st
  have hclosed := fun l (st' : ScoreState V S) =>
    foldl (passUnary (st.closed.get first last) first last) l st'
  exact (hfinal.trans (hclosed _ _)).trans (foldl (passBuilt (st.built.get first last) first last) _ _)

theorem runOutside (goal : Symbol) (size : Nat) (st : ScoreState V S) :
    OnlyOutside st (st.runOutside goal size) := by
  refine trans ?_ (foldl outsideSpan _ _)
  exact ⟨_, rfl⟩

end OnlyOutside

end ParseForest.ScoreState
