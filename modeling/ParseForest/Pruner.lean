import ParseForest.Chart
import ParseForest.LabelMap
import ParseForest.Score

/-!
# Pruners

A pruner names the spans and the labels that a parser skips. The one that matters compares the
scores of a coarser pass with a cutoff: a label stays when its own score reaches the cutoff or,
if the coarser pass has no such label, when the score of its coarser form does.
-/

namespace ParseForest

/-- Which spans and labels to skip. A pruner that reads a chart knows spans up to the position
`reach` only; one without a `reach` knows them all. -/
structure Pruner where
  skipsSpan : (first last : Nat) → Bool
  skipsLabel : (first last : Nat) → Symbol → Bool
  reach : Option Nat

abbrev ScoreChart (S : Type) := Chart (LabelMap S)

/-- How a label is made coarser: to a single category that keeps only whether binarization made
it, or to the lowest bits of its latent annotation. -/
inductive Coarsening
  | category
  | latent (bits : Nat)
  deriving DecidableEq, Repr

namespace Coarsening

def apply : Coarsening → Symbol → Symbol
  | category, s =>
    if s.isNonTerminal then if s.isBinarized then ⟨"[x^]"⟩ else ⟨"[x]"⟩ else s
  | latent bits, s => s.coarse bits

end Coarsening

namespace Pruner

def none : Pruner := ⟨fun _ _ => false, fun _ _ _ => false, .none⟩

def ofLists (spans : List (Nat × Nat)) (labels : List Symbol) : Pruner where
  skipsSpan first last := spans.contains (first, last)
  skipsLabel _ _ label := labels.contains label
  reach := .none

/-- Whether a label is to be skipped where the coarser pass left the scores `scores`. -/
def belowCutoff {S : Type} [Score S] (scores : LabelMap S) (cutoff : S) (coarsening : Coarsening)
    (label : Symbol) : Bool :=
  match LabelMap.get? scores label with
  | some score => Score.less score cutoff
  | .none =>
    match LabelMap.get? scores (coarsening.apply label) with
    | some score => Score.less score cutoff
    | .none => true

def ofScores {S : Type} [Score S] (scores : ScoreChart S) (cutoff : S)
    (coarsening : Coarsening) : Pruner where
  skipsSpan first last := (scores.get first last).isEmpty
  skipsLabel first last label := belowCutoff (scores.get first last) cutoff coarsening label
  reach := some scores.size

def knows (p : Pruner) (position : Nat) : Bool := p.reach.all (position ≤ ·)

end Pruner

end ParseForest
