import Mathlib.Data.List.Induction
import ParseForest.Posterior.Parser

/-!
# The cell of a span

What the scoring parser does at a span is a list of steps: each puts an edge into one of the three
tiers and raises the inside score of the label. `ScoreCell.after` is what the cell holds after
such steps. The edges of a label are those that were put in, and the inside score of a label is
one of the scores it was raised by, or zero when one of these was not better than zero.
-/

namespace ParseForest

variable {S : Type}

namespace EdgeMap

variable {E : Type}

theorem edges_add (m : EdgeMap E) (label l : Symbol) (e : E) :
    (m.add label e).edges l = if l = label then (m.edges label).push e else m.edges l := by
  unfold edges add
  rw [LabelMap.get?_upsert]
  split <;> rfl

theorem has_add (m : EdgeMap E) (label l : Symbol) (e : E) :
    (m.add label e).has l = true ↔ l = label ∨ m.has l = true := by
  unfold has add
  rw [LabelMap.get?_upsert]
  split
  · simp [*]
  · simp [*]

theorem has_of_mem_edges {m : EdgeMap E} {label : Symbol} {e : E} (h : e ∈ m.edges label) :
    m.has label = true := by
  unfold edges at h
  unfold has
  cases hget : LabelMap.get? m label with
  | none => simp [hget] at h
  | some es => rfl

theorem mem_edges_add {m : EdgeMap E} {label l : Symbol} {e e' : E} :
    e' ∈ (m.add label e).edges l ↔ e' ∈ m.edges l ∨ l = label ∧ e' = e := by
  rw [edges_add]
  split
  · rename_i h
    subst h
    simp [Array.mem_push]
  · simp [*]

end EdgeMap

section Raise

variable [Score S]

theorem get?_raise (m : LabelMap S) (label l : Symbol) (x : S) :
    LabelMap.get? (raise m label x) l =
      if l = label then some (Score.best (scoreOf m label) x) else LabelMap.get? m l := by
  unfold raise
  rw [LabelMap.get?_upsert]
  rfl

theorem scoreOf_raise (m : LabelMap S) (label l : Symbol) (x : S) :
    scoreOf (raise m label x) l =
      if l = label then Score.best (scoreOf m label) x else scoreOf m l := by
  unfold scoreOf
  rw [get?_raise]
  split <;> rfl

theorem best_eq (a b : S) : Score.best a b = a ∨ Score.best a b = b := by
  unfold Score.best
  split
  · exact Or.inr rfl
  · exact Or.inl rfl

end Raise

inductive ScoreStep (S : Type)
  | build (label : Symbol) (e : ScoredEdge S) (value : S)
  | reach (toFinal : Bool) (label : Symbol) (e : UnaryEdge S) (value : S)

namespace ScoreStep

def label : ScoreStep S → Symbol
  | build label _ _ => label
  | reach _ label _ _ => label

def value : ScoreStep S → S
  | build _ _ value => value
  | reach _ _ _ value => value

end ScoreStep

structure ScoreCell (S : Type) where
  built : EdgeMap (ScoredEdge S)
  closed : EdgeMap (UnaryEdge S)
  final : EdgeMap (UnaryEdge S)
  inside : LabelMap S

namespace ScoreCell

variable [Score S]

def blank : ScoreCell S := ⟨[], [], [], []⟩

def take (c : ScoreCell S) : ScoreStep S → ScoreCell S
  | .build label e value =>
    { c with built := c.built.add label e, inside := raise c.inside label value }
  | .reach false label e value =>
    { c with closed := c.closed.add label e, inside := raise c.inside label value }
  | .reach true label e value =>
    { c with final := c.final.add label e, inside := raise c.inside label value }

def after (steps : List (ScoreStep S)) : ScoreCell S := steps.foldl take blank

def scoreAfter (steps : List (ScoreStep S)) (label : Symbol) : S :=
  scoreOf (after steps).inside label

theorem after_append (steps : List (ScoreStep S)) (s : ScoreStep S) :
    after (steps ++ [s]) = (after steps).take s := List.foldl_append

theorem inside_take (c : ScoreCell S) (s : ScoreStep S) :
    (c.take s).inside = raise c.inside s.label s.value := by
  cases s with
  | build => rfl
  | reach toFinal => cases toFinal <;> rfl

def unary (c : ScoreCell S) : (toFinal : Bool) → EdgeMap (UnaryEdge S)
  | false => c.closed
  | true => c.final

theorem built_take (c : ScoreCell S) (s : ScoreStep S) :
    (c.take s).built = match s with
      | .build label e _ => c.built.add label e
      | .reach .. => c.built := by
  cases s with
  | build => rfl
  | reach toFinal => cases toFinal <;> rfl

theorem unary_take (c : ScoreCell S) (s : ScoreStep S) (toFinal : Bool) :
    (c.take s).unary toFinal = match s with
      | .build .. => c.unary toFinal
      | .reach toFinal' label e _ =>
        if toFinal' = toFinal then (c.unary toFinal).add label e else c.unary toFinal := by
  cases s with
  | build => cases toFinal <;> rfl
  | reach toFinal' => cases toFinal <;> cases toFinal' <;> rfl

theorem mem_built {steps : List (ScoreStep S)} {label : Symbol} {e : ScoredEdge S} :
    e ∈ (after steps).built.edges label ↔ ∃ x, ScoreStep.build label e x ∈ steps := by
  induction steps using List.reverseRecOn with
  | nil => simp [after, blank, EdgeMap.edges, LabelMap.get?]
  | append_singleton steps s ih =>
    rw [after_append, built_take]
    cases s with
    | build l e' x =>
      simp only [EdgeMap.mem_edges_add, ih, List.mem_append, List.mem_singleton,
        ScoreStep.build.injEq, exists_or]
      simp
    | reach => simp [ih]

theorem has_built {steps : List (ScoreStep S)} {label : Symbol} :
    (after steps).built.has label = true ↔ ∃ e x, ScoreStep.build label e x ∈ steps := by
  induction steps using List.reverseRecOn with
  | nil => simp [after, blank, EdgeMap.has, LabelMap.get?]
  | append_singleton steps s ih =>
    rw [after_append, built_take]
    cases s with
    | build l e' x =>
      simp only [EdgeMap.has_add, ih, List.mem_append, List.mem_singleton,
        ScoreStep.build.injEq, exists_or]
      simp [or_comm]
    | reach => simp [ih]

theorem mem_unary {steps : List (ScoreStep S)} {toFinal : Bool} {label : Symbol}
    {e : UnaryEdge S} : e ∈ ((after steps).unary toFinal).edges label ↔
      ∃ x, ScoreStep.reach toFinal label e x ∈ steps := by
  induction steps using List.reverseRecOn with
  | nil => cases toFinal <;> simp [after, blank, unary, EdgeMap.edges, LabelMap.get?]
  | append_singleton steps s ih =>
    rw [after_append, unary_take]
    cases s with
    | build => simp [ih]
    | reach toFinal' l e' x =>
      simp only [List.mem_append, List.mem_singleton, ScoreStep.reach.injEq, exists_or]
      split
      · rename_i h
        rw [EdgeMap.mem_edges_add, ih]
        simp [h]
      · rename_i h
        simp [ih, Ne.symm h]

theorem has_unary {steps : List (ScoreStep S)} {toFinal : Bool} {label : Symbol} :
    ((after steps).unary toFinal).has label = true ↔
      ∃ e x, ScoreStep.reach toFinal label e x ∈ steps := by
  induction steps using List.reverseRecOn with
  | nil => cases toFinal <;> simp [after, blank, unary, EdgeMap.has, LabelMap.get?]
  | append_singleton steps s ih =>
    rw [after_append, unary_take]
    cases s with
    | build => simp [ih]
    | reach toFinal' l e' x =>
      simp only [List.mem_append, List.mem_singleton, ScoreStep.reach.injEq, exists_or]
      split
      · rename_i h
        rw [EdgeMap.has_add, ih]
        simp [h, or_comm]
      · rename_i h
        simp [ih, Ne.symm h]

theorem isSome_inside {steps : List (ScoreStep S)} {label : Symbol} :
    (LabelMap.get? (after steps).inside label).isSome = true ↔ ∃ s ∈ steps, s.label = label := by
  induction steps using List.reverseRecOn with
  | nil => simp [after, blank, LabelMap.get?]
  | append_singleton steps s ih =>
    rw [after_append, inside_take, get?_raise]
    split
    · simp [*]
    · rename_i h
      rw [ih]
      simp [Ne.symm h]

end ScoreCell

end ParseForest
