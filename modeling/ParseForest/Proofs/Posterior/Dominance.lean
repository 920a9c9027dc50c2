import ParseForest.Proofs.Posterior.Closure
import ParseForest.Proofs.Posterior.Laws

/-!
# Scores that a closure dominates

An application of a rule makes no score of a closure worse, and leaves the label that it leads to
with a score that is no worse than the one it offers. So a round dominates what the closure before
it dominated, and what its rules make of that.
-/

namespace ParseForest

variable {V S : Type} [Score S] [LinearOrder S]

namespace LabelMap

def Dominates (m : LabelMap S) (label : Symbol) (x : S) : Prop :=
  ∃ y, get? m label = some y ∧ x ≤ y

omit [Score S] in
theorem Dominates.trans {m : LabelMap S} {label : Symbol} {x y : S} (h : m.Dominates label y)
    (hxy : x ≤ y) : m.Dominates label x := by
  obtain ⟨z, hz, hyz⟩ := h
  exact ⟨z, hz, hxy.trans hyz⟩

end LabelMap

namespace Closure

variable [MonotoneScore S]

theorem dominates_improve (closure : LabelMap S) (label : Symbol) (score : S) :
    (improve closure label score).1.Dominates label score := by
  unfold improve
  cases hold : LabelMap.get? closure label with
  | none => exact ⟨score, by simp [LabelMap.insert, LabelMap.get?_upsert], le_refl _⟩
  | some old =>
    simp only
    split
    · exact ⟨score, by simp [LabelMap.insert, LabelMap.get?_upsert], le_refl _⟩
    · rename_i hless
      rw [MonotoneScore.less_iff, not_lt] at hless
      exact ⟨old, hold, hless⟩

theorem dominates_improve_of {closure : LabelMap S} {l : Symbol} {x : S}
    (h : closure.Dominates l x) (label : Symbol) (score : S) :
    (improve closure label score).1.Dominates l x := by
  obtain ⟨y, hy, hxy⟩ := h
  by_cases hl : l = label
  · subst hl
    unfold improve
    rw [hy]
    simp only
    split
    · rename_i hless
      rw [MonotoneScore.less_iff] at hless
      exact ⟨score, by simp [LabelMap.insert, LabelMap.get?_upsert], hxy.trans hless.le⟩
    · exact ⟨y, hy, hxy⟩
  · refine ⟨y, ?_, hxy⟩
    rcases improve_eq closure label score with heq | heq
    · rw [heq]
      exact hy
    · rw [heq, LabelMap.insert, LabelMap.get?_upsert, if_neg hl]
      exact hy

variable {w : Weighting V S} {o : Options V} {child : Symbol}

theorem dominates_applyPair_of {st : LabelMap S × Bool} {l : Symbol} {x : S}
    (h : st.1.Dominates l x) (t : S × RulePair V) :
    (applyPair w o child t.1 st t.2).1.Dominates l x := by
  unfold applyPair
  simp only
  split
  · exact h
  · exact dominates_improve_of h _ _

theorem dominates_foldl_of {st : LabelMap S × Bool} {l : Symbol} {x : S}
    (h : st.1.Dominates l x) (ts : List (S × RulePair V)) :
    (ts.foldl (fun st t => applyPair w o child t.1 st t.2) st).1.Dominates l x := by
  induction ts generalizing st with
  | nil => exact h
  | cons t ts ih => exact ih (dominates_applyPair_of h t)

theorem dominates_foldl_of_mem (st : LabelMap S × Bool) {ts : List (S × RulePair V)}
    {t : S × RulePair V} (ht : t ∈ ts) (hlabel : (t.2.side o.yieldSource).lhs ≠ child) :
    (ts.foldl (fun st t => applyPair w o child t.1 st t.2) st).1.Dominates
      (t.2.side o.yieldSource).lhs (Score.mul (w t.2.features) t.1) := by
  obtain ⟨before, after, rfl⟩ := List.append_of_mem ht
  rw [List.foldl_append, List.foldl_cons]
  refine dominates_foldl_of ?_ after
  unfold applyPair
  simp only [if_neg hlabel]
  exact dominates_improve _ _ _

variable {g : Grammar V} {labels : List Symbol} {closure : LabelMap S}

theorem dominates_roundIn_of {label : Symbol} {x : S} (h : closure.Dominates label x) :
    (roundIn labels g w o child closure).1.Dominates label x := by
  rw [roundIn_eq]
  exact dominates_foldl_of h _

theorem dominates_roundIn (hlabels : labels.Perm (LabelMap.keys closure)) {label : Symbol} {x : S}
    (h : closure.Dominates label x) {pair : RulePair V} (hpair : pair ∈ g.unaryRules label)
    (haway : (pair.side o.yieldSource).lhs ≠ child) :
    (roundIn labels g w o child closure).1.Dominates (pair.side o.yieldSource).lhs
      (Score.mul (w pair.features) x) := by
  obtain ⟨y, hy, hle⟩ := h
  have hlabel : label ∈ labels := by
    rw [hlabels.mem_iff, LabelMap.mem_keys_iff, hy]
    rfl
  have htask : (y, pair) ∈ tasks g (closure.inOrder labels) :=
    mem_tasks_inOrder.mpr ⟨label, hlabel, hy, hpair⟩
  rw [roundIn_eq]
  exact (dominates_foldl_of_mem _ htask haway).trans (MonotoneScore.mul_mono _ hle)

end Closure

end ParseForest
