import Mathlib.Data.List.Basic
import ParseForest.Proofs.Matched

/-!
# Left-hand sides

Both parsers close labels under unary rules in rounds, and a round that brings a new label brings
a left-hand side of the grammar. So the left-hand sides that are not known yet bound the number of
such rounds.
-/

namespace ParseForest

variable {V : Type}

theorem RuleTable.mem_pairs_of_mem_rulesAt {t : RuleTable V} {s : StateId} {pair : RulePair V}
    (h : pair ∈ t.rulesAt s) : pair ∈ t.pairs := by
  rw [rulesAt, state, Array.getD_eq_getD_getElem?] at h
  cases hs : t.states[s]? with
  | none =>
    rw [hs] at h
    cases h
  | some st =>
    rw [hs, Option.getD_some] at h
    exact List.mem_flatMap.mpr ⟨st, Array.mem_toList_iff.mpr (Array.mem_of_getElem? hs), h⟩

theorem RuleTable.exists_mem_rulesAt {t : RuleTable V} {pair : RulePair V} (h : pair ∈ t.pairs) :
    ∃ s, pair ∈ t.rulesAt s := by
  obtain ⟨st, hst, hpair⟩ := List.mem_flatMap.mp h
  obtain ⟨s, hs⟩ := List.getElem?_of_mem hst
  refine ⟨s, ?_⟩
  rw [Array.getElem?_toList] at hs
  rw [rulesAt, state, Array.getD_eq_getD_getElem?, hs]
  exact hpair

section Unknown

variable {known known' : Symbol → Bool}

theorem filter_unknown_eq (sides : List Symbol) (h : ∀ l, known l = true → known' l = true) :
    sides.filter (fun label => !known' label) =
      (sides.filter fun label => !known label).filter fun label => !known' label := by
  rw [List.filter_filter]
  refine List.filter_congr fun l _ => ?_
  cases hl : known l with
  | false => rw [Bool.not_false, Bool.and_true]
  | true => rw [h l hl, Bool.not_true, Bool.false_and]

theorem length_filter_unknown_le (sides : List Symbol)
    (h : ∀ l, known l = true → known' l = true) :
    (sides.filter fun label => !known' label).length ≤
      (sides.filter fun label => !known label).length := by
  rw [filter_unknown_eq sides h]
  exact List.length_filter_le _ _

theorem length_filter_unknown_lt {sides : List Symbol}
    (h : ∀ l, known l = true → known' l = true) {label : Symbol} (hlabel : label ∈ sides)
    (hold : known label = false) (hnew : known' label = true) :
    (sides.filter fun label => !known' label).length <
      (sides.filter fun label => !known label).length := by
  rw [filter_unknown_eq sides h, List.length_filter_lt_length_iff_exists]
  refine ⟨label, List.mem_filter.mpr ⟨hlabel, by rw [hold]; rfl⟩, ?_⟩
  rw [hnew]
  exact Bool.false_ne_true

end Unknown

namespace Grammar

def pairs (g : Grammar V) : List (RulePair V) := g.flatMap RuleTable.pairs

def leftSides (g : Grammar V) (o : Options V) : List Symbol :=
  g.pairs.map fun pair => (pair.side o.yieldSource).lhs

def unknown (g : Grammar V) (o : Options V) (known : Symbol → Bool) : List Symbol :=
  (g.leftSides o).filter fun label => !known label

variable {g : Grammar V} {o : Options V} {known known' : Symbol → Bool}

theorem mem_pairs_of_pair? {r : RuleName} {pair : RulePair V} (h : g.pair? r = some pair) :
    pair ∈ g.pairs := by
  rw [pair?, Option.bind_eq_some_iff] at h
  obtain ⟨t, ht, hpair⟩ := h
  exact List.mem_flatMap.mpr ⟨t, List.mem_of_getElem? ht,
    RuleTable.mem_pairs_of_mem_rulesAt (List.mem_of_getElem? hpair)⟩

theorem mem_leftSides {pair : RulePair V} (h : pair ∈ g.pairs) :
    (pair.side o.yieldSource).lhs ∈ g.leftSides o := List.mem_map.mpr ⟨pair, h, rfl⟩

theorem mem_unaryRules {t : RuleTable V} (ht : t ∈ g) {label : Symbol} {pair : RulePair V}
    (h : pair ∈ t.unaryRules label) : pair ∈ g.unaryRules label :=
  List.mem_flatMap.mpr ⟨t, ht, h⟩

theorem mem_pairs_of_mem_unaryRules {label : Symbol} {pair : RulePair V}
    (h : pair ∈ g.unaryRules label) : pair ∈ g.pairs := by
  obtain ⟨t, ht, hpair⟩ := List.mem_flatMap.mp h
  unfold RuleTable.unaryRules at hpair
  simp only at hpair
  split at hpair
  · cases hpair
  · exact List.mem_flatMap.mpr ⟨t, ht, RuleTable.mem_pairs_of_mem_rulesAt hpair⟩

theorem length_unknown_le (g : Grammar V) (o : Options V) (known : Symbol → Bool) :
    (g.unknown o known).length ≤ g.ruleCount := by
  refine Nat.le_trans (List.length_filter_le _ _) ?_
  rw [leftSides, List.length_map]
  exact Nat.le_refl _

theorem length_unknown_mono (h : ∀ l, known l = true → known' l = true) :
    (g.unknown o known').length ≤ (g.unknown o known).length :=
  length_filter_unknown_le (g.leftSides o) h

theorem length_unknown_lt (h : ∀ l, known l = true → known' l = true) {label : Symbol}
    (hlabel : label ∈ g.leftSides o) (hold : known label = false) (hnew : known' label = true) :
    (g.unknown o known').length < (g.unknown o known).length :=
  length_filter_unknown_lt h hlabel hold hnew

end Grammar

end ParseForest
