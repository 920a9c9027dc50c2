import Mathlib.Data.List.Dedup
import Mathlib.Data.List.Perm.Subperm
import ParseForest.Proofs.Posterior.OutwardPaths

/-!
# Simple paths of unary rules

When unary rules score at most one, coming back to a label never pays, so the best path to a label
is one without repetitions. Such a path has no more rules than there are labels. So a closure has
the best score of every label when the options allow as many rounds without a new label.
-/

namespace ParseForest

variable {V S : Type} [Score S] [LinearOrder S] [LawfulScore S]

theorem UnaryPath.cons {g : Grammar V} {w : Weighting V S} {o : Options V} {child label : Symbol}
    {n : Nat} {x : S} {pair : RulePair V} (hrule : pair ∈ g.unaryRules child)
    (hpath : UnaryPath g w o (pair.side o.yieldSource).lhs n label x) :
    UnaryPath g w o child (n + 1) label (Score.mul (w pair.features) x) := by
  induction hpath with
  | start => exact start.step hrule
  | step _ rule ih =>
    have hstep := ih.step rule
    rwa [← LawfulScore.mul_assoc, LawfulScore.mul_comm (w _), LawfulScore.mul_assoc] at hstep

section Paths

variable {order : ClosureOrder} {g : Grammar V} {w : Weighting V S} {o : Options V}
  {child : Symbol}

variable (g w o child) in
def Shrinking : Prop :=
  ∀ n label score, UnaryPath g w o child n label score → ∀ pair ∈ g.unaryRules label,
    w pair.features ≤ Score.one

variable (hshrink : Shrinking g w o child)
include hshrink

theorem Shrinking.mul_le {n : Nat} {label : Symbol} {score : S}
    (h : UnaryPath g w o child n label score) {pair : RulePair V}
    (hpair : pair ∈ g.unaryRules label) (x : S) : Score.mul (w pair.features) x ≤ x := by
  have hmul := LawfulScore.mul_le_mul (hshrink n label score h pair hpair) (le_refl x)
  rwa [LawfulScore.one_mul] at hmul

theorem UnaryPath.le_one {n : Nat} {label : Symbol} {score : S}
    (h : UnaryPath g w o child n label score) : score ≤ Score.one := by
  induction h with
  | start => exact le_refl _
  | step before rule ih => exact (hshrink.mul_le before rule _).trans ih

inductive SimplePath (g : Grammar V) (w : Weighting V S) (o : Options V) (child : Symbol) :
    List Symbol → Symbol → S → Prop
  | start : SimplePath g w o child [child] child Score.one
  | step {visited : List Symbol} {label : Symbol} {score : S} {pair : RulePair V}
    (before : SimplePath g w o child visited label score) (rule : pair ∈ g.unaryRules label)
    (new : (pair.side o.yieldSource).lhs ∉ visited) :
    SimplePath g w o child ((pair.side o.yieldSource).lhs :: visited)
      (pair.side o.yieldSource).lhs (Score.mul (w pair.features) score)

namespace SimplePath

variable {visited : List Symbol} {label : Symbol} {score : S}

omit [LinearOrder S] [LawfulScore S] hshrink in
theorem exists_path (h : SimplePath g w o child visited label score) :
    ∃ n, visited.length = n + 1 ∧ UnaryPath g w o child n label score := by
  induction h with
  | start => exact ⟨0, rfl, UnaryPath.start⟩
  | step _ rule _ ih =>
    obtain ⟨n, hlength, hpath⟩ := ih
    exact ⟨n + 1, by rw [List.length_cons, hlength], hpath.step rule⟩

omit [LinearOrder S] [LawfulScore S] hshrink in
theorem nodup (h : SimplePath g w o child visited label score) : visited.Nodup := by
  induction h with
  | start => exact List.nodup_singleton _
  | step _ _ new ih => exact List.nodup_cons.mpr ⟨new, ih⟩

omit [LinearOrder S] [LawfulScore S] hshrink in
theorem subset (h : SimplePath g w o child visited label score) :
    visited ⊆ child :: g.leftSides o := by
  induction h with
  | start => exact List.cons_subset_cons _ (List.nil_subset _)
  | step _ rule _ ih =>
    refine List.cons_subset.mpr ⟨List.mem_cons_of_mem _ ?_, ih⟩
    exact Grammar.mem_leftSides (Grammar.mem_pairs_of_mem_unaryRules rule)

theorem of_mem (h : SimplePath g w o child visited label score) {l : Symbol} (hl : l ∈ visited) :
    ∃ visited' x, SimplePath g w o child visited' l x ∧ score ≤ x := by
  induction h with
  | start =>
    rw [List.mem_singleton.mp hl]
    exact ⟨_, _, SimplePath.start, le_refl _⟩
  | step before rule new ih =>
    rcases List.mem_cons.mp hl with rfl | hl
    · exact ⟨_, _, before.step rule new, le_refl _⟩
    · obtain ⟨visited', x, hpath, hle⟩ := ih hl
      obtain ⟨n, -, hbefore⟩ := before.exists_path
      exact ⟨visited', x, hpath, (hshrink.mul_le hbefore rule _).trans hle⟩

end SimplePath

theorem UnaryPath.exists_simple {n : Nat} {label : Symbol} {score : S}
    (h : UnaryPath g w o child n label score) :
    ∃ visited x, SimplePath g w o child visited label x ∧ score ≤ x := by
  induction h with
  | start => exact ⟨_, _, SimplePath.start, le_refl _⟩
  | @step n label score pair before rule ih =>
    obtain ⟨visited, x, hpath, hle⟩ := ih
    -- a label that was visited has a path of its own, and going on from it made nothing better
    by_cases hmem : (pair.side o.yieldSource).lhs ∈ visited
    · obtain ⟨visited', y, hpath', hle'⟩ := hpath.of_mem hshrink hmem
      exact ⟨visited', y, hpath', (hshrink.mul_le before rule _).trans (hle.trans hle')⟩
    · exact ⟨_, _, hpath.step rule hmem, LawfulScore.mul_mono _ hle⟩

theorem UnaryPath.exists_outward {n : Nat} {label : Symbol} {score : S}
    (h : UnaryPath g w o child n label score) :
    ∃ m ≤ n, ∃ y, OutwardPath g w o child m label y ∧ score ≤ y := by
  induction h with
  | start => exact ⟨0, le_refl _, _, .start, le_refl _⟩
  | @step n label score pair before rule ih =>
    by_cases hlabel : (pair.side o.yieldSource).lhs = child
    · have hle := (before.step rule).le_one hshrink
      rw [hlabel]
      exact ⟨0, Nat.zero_le _, _, .start, hle⟩
    · obtain ⟨m, hm, y, hy, hle⟩ := ih
      exact ⟨m + 1, Nat.succ_le_succ hm, _, hy.step rule hlabel, LawfulScore.mul_mono _ hle⟩

/-- The closure has the best score of a path that is no longer than the rounds that bring no new
label may be, and one rule more: the first round brings a label. -/
theorem dominates_unaryClosureIn_of_le {n : Nat} (hn : n ≤ max o.scoreStagnation 1 + 1)
    {label : Symbol} {score : S} (h : UnaryPath g w o child n label score) :
    (unaryClosureIn order g w o child).Dominates label score := by
  obtain ⟨d, hd⟩ := exists_farthest g w o child
  obtain ⟨m, hm, y, hy, hle⟩ := h.exists_outward hshrink
  refine ((best_unaryClosureIn hd).dominates label y ?_).trans hle
  by_cases hlabel : label = child
  · rw [hy.eq_one hlabel, hlabel]
    exact ⟨0, Nat.zero_le _, .start⟩
  · obtain ⟨j, -, hdist⟩ := h.exists_distance
    have hpos : j ≠ 0 := by
      rintro rfl
      obtain ⟨x, hpath⟩ := hdist.1
      cases hpath
      exact hlabel rfl
    have hfar : j ≤ d := hd.2 ⟨label, hdist⟩
    exact ⟨m, by omega, hy⟩

omit [LinearOrder S] [LawfulScore S] hshrink in
theorem SimplePath.length_le {visited : List Symbol} {label : Symbol} {score : S}
    (h : SimplePath g w o child visited label score) :
    visited.length ≤ (child :: g.leftSides o).dedup.length := by
  apply List.Subperm.length_le
  apply h.nodup.subperm
  intro l hl
  exact List.mem_dedup.mpr (h.subset hl)

theorem dominates_unaryClosureIn
    (hstag : (child :: g.leftSides o).dedup.length ≤ o.scoreStagnation) {n : Nat} {label : Symbol}
    {score : S} (h : UnaryPath g w o child n label score) :
    (unaryClosureIn order g w o child).Dominates label score := by
  obtain ⟨visited, x, hsimple, hle⟩ := h.exists_simple hshrink
  obtain ⟨m, hlength, hpath⟩ := hsimple.exists_path
  have hcard := hsimple.length_le
  exact (dominates_unaryClosureIn_of_le hshrink (by omega) hpath).trans hle

end Paths

end ParseForest
