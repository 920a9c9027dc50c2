import ParseForest.Posterior.Parser
import ParseForest.Proofs.Matched
import ParseForest.Proofs.RuleTable.Read

/-!
# Derivations

A derivation of a label over a span takes a rule pair with this label on its left-hand side and
matches the symbols of the source side one after another: a symbol is matched by an arc that
carries it as its word, or by a derivation of the symbol without its index. Between them, epsilon
arcs may be passed over. The parts follow one another from the first position of the span to the
last. No part of a derivation stands over a pruned span or has a pruned label.

For grammars that were read from text, a trail over derivations fits a rule pair in its table
exactly when it spells the source side.
-/

namespace ParseForest

variable {V E : Type}

inductive Derivation
  | node (place : SpanLabel) (rule : RuleName) (parts : Trail Derivation)

namespace Derivation

def place : Derivation → SpanLabel
  | node place _ _ => place

def rule : Derivation → RuleName
  | node _ rule _ => rule

def parts : Derivation → Trail Derivation
  | node _ _ parts => parts

end Derivation

def Symbol.words : Set Symbol := {s | s.isEpsilon = false}

/-- The parts match the symbols from `first` to a position. A symbol is matched by an entry that
has the symbol without its index as its label, or by an arc that carries the symbol, if that is
one of the `words`; epsilon arcs may be passed over. -/
def Trail.Spells (lattice : Lattice V) (words : Set Symbol) (place : E → SpanLabel) (first : Nat) :
    Trail E → List Symbol → Nat → Prop
  | start, symbols, last => symbols = [] ∧ last = first
  | entry x p e, symbols, last => ∃ front s, symbols = front ++ [s] ∧
      x.Spells lattice words place first front p ∧ place e = ⟨p, last, s.unindexed⟩
  | arc x p k, symbols, last => ∃ a, (lattice.arcsAt p)[k]? = some a ∧ last = p + a.distance ∧
      (a.label.isEpsilon = true ∧ x.Spells lattice words place first symbols p ∨
        a.label ∈ words ∧ ∃ front, symbols = front ++ [a.label] ∧
          x.Spells lattice words place first front p)

inductive Derivation.Valid (g : Grammar V) (lattice : Lattice V) (pruner : Pruner)
    (words : Set Symbol) : Derivation → Prop
  | node {place : SpanLabel} {rule : RuleName} {parts : Trail Derivation} {pair : RulePair V}
    (span : place.first < place.last)
    (spanLeft : pruner.skipsSpan place.first place.last = false)
    (labelLeft : pruner.skipsLabel place.first place.last place.label = false)
    (named : g.pair? rule = some pair)
    (label : pair.source.lhs = place.label)
    (spells : parts.Spells lattice words Derivation.place place.first pair.source.rhs place.last)
    (below : ∀ d ∈ parts.entries, Valid g lattice pruner words d) :
    Valid g lattice pruner words (.node place rule parts)

def Derivation.ofGoal (g : Grammar V) (lattice : Lattice V) (pruner : Pruner) (words : Set Symbol)
    (goal : Symbol) : Set Derivation :=
  {d | d.Valid g lattice pruner words ∧ d.place = ⟨0, lattice.size, goal⟩}

def Lattice.AllTerminal (lattice : Lattice V) : Prop :=
  ∀ row ∈ lattice.arcs, ∀ a ∈ row, a.label.isTerminal = true

instance (lattice : Lattice V) : Decidable lattice.AllTerminal :=
  inferInstanceAs (Decidable (∀ row ∈ lattice.arcs, ∀ a ∈ row, a.label.isTerminal = true))

theorem Lattice.AllTerminal.arc {lattice : Lattice V} (h : lattice.AllTerminal) {p k : Nat}
    {a : Arc V} (ha : (lattice.arcsAt p)[k]? = some a) : a.label.isTerminal = true := by
  have hmem := List.mem_of_getElem? ha
  unfold arcsAt at hmem
  cases hrow : lattice.arcs[p]? with
  | none =>
    rw [hrow] at hmem
    cases hmem
  | some row =>
    rw [hrow, Option.getD_some] at hmem
    exact h row (List.mem_of_getElem? hrow) a hmem

namespace Derivation.Valid

variable {g : Grammar V} {lattice : Lattice V} {pruner : Pruner} {words : Set Symbol}

theorem last_le {d : Derivation} (h : d.Valid g lattice pruner words) :
    d.place.last ≤ lattice.size := by
  induction h with
  | @node place rule parts pair span _ _ _ _ spells below ih =>
    cases parts with
    | start => exact absurd spells.2 (Nat.ne_of_gt span)
    | entry x p d =>
      obtain ⟨front, s, -, -, hplace⟩ := spells
      have hd := ih d (List.mem_append_right _ List.mem_cons_self)
      rw [hplace] at hd
      exact hd
    | arc x p k =>
      obtain ⟨a, ha, hlast, -⟩ := spells
      have hb := Lattice.arc_bounds_of_getElem? ha
      simp only [Derivation.place, hlast]
      exact hb.2

theorem first_lt_last {d : Derivation} (h : d.Valid g lattice pruner words) :
    d.place.first < d.place.last := by
  cases h with
  | node span => exact span

end Derivation.Valid

/-! ## Trails through a table -/

namespace Trail

def word? (label : E → Symbol) (lattice : Lattice V) : Trail E → Option (List Symbol)
  | start => some []
  | entry x _ e => (x.word? label lattice).map fun w => w ++ [label e]
  | arc x p k => ((lattice.arcsAt p)[k]?).bind fun a =>
      if a.label.isEpsilon then x.word? label lattice
      else (x.word? label lattice).map fun w => w ++ [a.label]

variable {t : RuleTable V} {o : Options V} {lattice : Lattice V} {label : E → Symbol}

theorem state?_eq_walk {path : StateId → List Symbol} (ht : t.Paths path)
    (hpos : o.posMode = false) (x : Trail E) :
    x.state? label t o lattice =
      (x.word? label lattice).bind (RuleTable.Paths.walk t RuleTable.root) := by
  have hword : ∀ s, t.wordFor o s = s := fun s => by simp [RuleTable.wordFor, hpos]
  have hgo : ∀ (w : Option (List Symbol)) (l : Symbol),
      ((w.bind (RuleTable.Paths.walk t RuleTable.root)).bind fun s =>
        if t.next s l = RuleTable.root then none else some (t.next s l)) =
        (w.map fun w => w ++ [l]).bind (RuleTable.Paths.walk t RuleTable.root) := by
    intro w l
    cases w with
    | none => rfl
    | some w =>
      simp only [Option.bind_some, Option.map_some, RuleTable.Paths.walk_append]
      congr 1
      funext s
      exact ht.step_eq s l
  induction x with
  | start => rfl
  | entry x p e ih => rw [state?, word?, ih, hgo]
  | arc x p k ih =>
    rw [state?, word?, ih]
    cases (lattice.arcsAt p)[k]? with
    | none =>
      cases x.word? label lattice with
      | none => rfl
      | some w =>
        simp only [Option.bind_some, Option.bind_none]
        exact Option.bind_eq_none_iff.mpr fun s _ => rfl
    | some a =>
      simp only [Option.bind_some, hword]
      split
      · exact Option.bind_fun_some _
      · exact hgo _ _

theorem state?_eq_some_iff {path : StateId → List Symbol} (ht : t.Paths path)
    (hpos : o.posMode = false) {x : Trail E} {s : StateId} {pair : RulePair V}
    (hpair : pair ∈ t.rulesAt s) :
    x.state? label t o lattice = some s ↔
      x.word? label lattice = some (pair.source.rhs.map Symbol.unindexed) := by
  have hs : (show Nat from s) < t.states.size := RuleTable.lt_of_mem_rulesAt hpair
  rw [state?_eq_walk ht hpos, Option.bind_eq_some_iff]
  have hpath : RuleTable.path pair = path s := ht.rules s pair hpair
  constructor
  · rintro ⟨w, hw, hwalk⟩
    rw [hw, ← (ht.walk_eq_some_iff.mp hwalk).2, ← hpath]
    rfl
  · intro hw
    exact ⟨_, hw, ht.walk_eq_some_iff.mpr ⟨hs, hpath.symm⟩⟩

def placedAt (place : E → SpanLabel) (first last : Nat) : Set E :=
  {e | (place e).first = first ∧ (place e).last = last}

theorem map_unindexed_eq_append_iff {symbols w : List Symbol} {l : Symbol} :
    w ++ [l] = symbols.map Symbol.unindexed ↔
      ∃ front s, symbols = front ++ [s] ∧ s.unindexed = l ∧ w = front.map Symbol.unindexed := by
  constructor
  · intro h
    rcases List.eq_nil_or_concat symbols with rfl | ⟨front, s, rfl⟩
    · exact absurd h (by simp)
    · rw [List.concat_eq_append, List.map_append, List.map_singleton] at h
      obtain ⟨hw, hl⟩ := List.append_inj' h rfl
      cases hl
      exact ⟨front, s, List.concat_eq_append, rfl, hw⟩
  · rintro ⟨front, s, rfl, rfl, rfl⟩
    rw [List.map_append, List.map_singleton]

theorem eq_of_unindexed_eq {s l : Symbol} (hl : l.isTerminal = true) (h : s.unindexed = l) :
    s = l := by
  have hs : s.isTerminal = true := by
    rw [Symbol.isTerminal, ← Symbol.isNonTerminal_unindexed, h]
    exact hl
  rw [← Symbol.unindexed_eq_of_isTerminal hs, h]

theorem spells_arc_iff (hlegible : t.Legible) (htree : o.treebank = false)
    (hterm : lattice.AllTerminal) {place : E → SpanLabel} {first p k last : Nat} {x : Trail E}
    (hx : ∀ symbols, x.Spells lattice Symbol.words place first symbols p ↔
      x.Over t o lattice (placedAt place) first p ∧
        x.word? (fun e => (place e).label) lattice = some (symbols.map Symbol.unindexed))
    {symbols : List Symbol} :
    (arc x p k).Spells lattice Symbol.words place first symbols last ↔
      (arc x p k).Over t o lattice (placedAt place) first last ∧
        (arc x p k).word? (fun e => (place e).label) lattice =
          some (symbols.map Symbol.unindexed) := by
  -- an epsilon arc adds nothing to the word, any other arc its label
  have hstep : ∀ a, (lattice.arcsAt p)[k]? = some a →
      ((a.label.isEpsilon = true ∧ x.Spells lattice Symbol.words place first symbols p ∨
        a.label ∈ Symbol.words ∧ ∃ front, symbols = front ++ [a.label] ∧
          x.Spells lattice Symbol.words place first front p) ↔
      x.Over t o lattice (placedAt place) first p ∧
        (if a.label.isEpsilon then x.word? (fun e => (place e).label) lattice
          else (x.word? (fun e => (place e).label) lattice).map fun w => w ++ [a.label]) =
            some (symbols.map Symbol.unindexed)) := by
    intro a ha
    have hterm := hterm.arc ha
    cases heps : a.label.isEpsilon with
    | true =>
      have hnot : a.label ∉ Symbol.words := fun hw => by
        have hw : a.label.isEpsilon = false := hw
        rw [heps] at hw
        cases hw
      rw [if_pos rfl, ← hx]
      simp only [true_and, hnot, false_and, or_false]
    | false =>
      rw [if_neg Bool.false_ne_true, Option.map_eq_some_iff]
      constructor
      · rintro (⟨h, -⟩ | ⟨-, front, rfl, hspells⟩)
        · cases h
        · obtain ⟨hover, hword⟩ := (hx front).mp hspells
          refine ⟨hover, _, hword, ?_⟩
          rw [List.map_append, List.map_singleton, Symbol.unindexed_eq_of_isTerminal hterm]
      · rintro ⟨hover, w, hw, heq⟩
        obtain ⟨front, s, rfl, hs, rfl⟩ := map_unindexed_eq_append_iff.mp heq
        refine Or.inr ⟨heps, front, ?_, (hx front).mpr ⟨hover, hw⟩⟩
        rw [eq_of_unindexed_eq hterm hs]
  rw [Spells, Over, word?]
  constructor
  · rintro ⟨a, ha, rfl, hspells⟩
    obtain ⟨hover, hword⟩ := (hstep a ha).mp hspells
    refine ⟨⟨hover, hlegible.covers _, fun h => ?_, a, ha, rfl⟩, ?_⟩
    · rw [htree] at h
      cases h
    · rw [ha]
      exact hword
  · rintro ⟨⟨hover, -, -, a, ha, rfl⟩, hword⟩
    rw [ha] at hword
    exact ⟨a, ha, rfl, (hstep a ha).mpr ⟨hover, hword⟩⟩

theorem spells_iff (hlegible : t.Legible) (htree : o.treebank = false)
    (hterm : lattice.AllTerminal) {place : E → SpanLabel} {first last : Nat}
    (hfirst : first < lattice.size) {x : Trail E}
    (hplace : ∀ e ∈ x.entries, (place e).first < (place e).last ∧
      (place e).last ≤ lattice.size) {symbols : List Symbol} :
    x.Spells lattice Symbol.words place first symbols last ↔
      x.Over t o lattice (placedAt place) first last ∧
        x.word? (fun e => (place e).label) lattice = some (symbols.map Symbol.unindexed) := by
  induction x generalizing symbols last with
  | start =>
    rw [Spells, Over, word?, Option.some.injEq, eq_comm (a := []), List.map_eq_nil_iff]
    constructor
    · rintro ⟨hs, hl⟩
      exact ⟨⟨hl, hfirst, hlegible.covers 0⟩, hs⟩
    · rintro ⟨⟨hl, -⟩, hs⟩
      exact ⟨hs, hl⟩
  | entry x p e ih =>
    have ih := @ih p fun e he => hplace e (List.mem_append_left _ he)
    have he := hplace e (List.mem_append_right _ List.mem_cons_self)
    rw [Spells, Over, word?, Option.map_eq_some_iff]
    constructor
    · rintro ⟨front, s, rfl, hx, hs⟩
      obtain ⟨hover, hword⟩ := ih.mp hx
      rw [hs] at he
      refine ⟨⟨hover, he.1, he.2, ?_, hlegible.covers _⟩, _, hword, ?_⟩
      · exact ⟨by rw [hs], by rw [hs]⟩
      · rw [hs, List.map_append, List.map_singleton]
    · rintro ⟨⟨hover, -, -, ⟨hp, hl⟩, -⟩, w, hw, heq⟩
      obtain ⟨front, s, rfl, hs, rfl⟩ := map_unindexed_eq_append_iff.mp heq
      refine ⟨front, s, rfl, ih.mpr ⟨hover, hw⟩, ?_⟩
      rw [hs, ← hp, ← hl]
  | arc x p k ih => exact spells_arc_iff hlegible htree hterm fun symbols => ih hplace

theorem Over.of_legible {t u : RuleTable V} {entries : (first last : Nat) → Set E}
    {first last : Nat} {x : Trail E} (hu : u.Legible) (h : x.Over t o lattice entries first last) :
    x.Over u o lattice entries first last := by
  induction x generalizing last with
  | start => exact ⟨h.1, h.2.1, hu.covers 0⟩
  | entry x p e ih =>
    obtain ⟨hx, hp, hlast, he, -⟩ := h
    exact ⟨ih hx, hp, hlast, he, hu.covers _⟩
  | arc x p k ih =>
    obtain ⟨hx, -, htree, ha⟩ := h
    exact ⟨ih hx, hu.covers _, htree, ha⟩

end Trail

theorem Grammar.aligned_of_pair? {g : Grammar V} (hlegible : ∀ t ∈ g, t.Legible) {rule : RuleName}
    {pair : RulePair V} (h : g.pair? rule = some pair) : pair.Aligned := by
  rw [pair?, Option.bind_eq_some_iff] at h
  obtain ⟨t, ht, hslot⟩ := h
  exact (hlegible t (List.mem_of_getElem? ht)).aligned _ pair (List.mem_of_getElem? hslot)

theorem Application.fits_iff_word? {g : Grammar V} (hlegible : ∀ t ∈ g, t.Legible) {o : Options V}
    (hpos : o.posMode = false) {lattice : Lattice V} {label : E → Symbol}
    {entries : (first last : Nat) → Set E} {first last : Nat} {rule : RuleName} {pair : RulePair V}
    (hpair : g.pair? rule = some pair) {x : Trail E} :
    Application.Fits label g o lattice entries first last ⟨rule, x⟩ ↔
      (∃ t : RuleTable V, x.Over t o lattice entries first last) ∧
        x.word? label lattice = some (RuleTable.path pair) := by
  rw [Grammar.pair?, Option.bind_eq_some_iff] at hpair
  obtain ⟨t, ht, hslot⟩ := hpair
  have hmem := List.mem_of_getElem? ht
  obtain ⟨path, hpath⟩ := (hlegible t hmem).paths
  have hstate : x.state? label t o lattice = some rule.state ↔
      x.word? label lattice = some (RuleTable.path pair) :=
    Trail.state?_eq_some_iff hpath hpos (List.mem_of_getElem? hslot)
  constructor
  · rintro ⟨t', ht', hover, hx⟩
    obtain rfl := Option.some.inj (ht.symm.trans ht')
    exact ⟨⟨t, hover⟩, hstate.mp hx⟩
  · rintro ⟨⟨_, hover⟩, hx⟩
    exact ⟨t, ht, hover.of_legible (hlegible t hmem), hstate.mpr hx⟩

/-- In a grammar that was read from text, an application fits when it spells the source side. -/
theorem Application.fits_iff_spells {g : Grammar V} (hlegible : ∀ t ∈ g, t.Legible)
    {o : Options V} (htree : o.treebank = false) (hpos : o.posMode = false)
    {lattice : Lattice V} (hterm : lattice.AllTerminal) {place : E → SpanLabel}
    {first last : Nat} (hfirst : first < lattice.size) {rule : RuleName} {pair : RulePair V}
    (hpair : g.pair? rule = some pair) {x : Trail E}
    (hplace : ∀ e ∈ x.entries, (place e).first < (place e).last ∧
      (place e).last ≤ lattice.size) :
    Application.Fits (fun e => (place e).label) g o lattice (Trail.placedAt place) first last
        ⟨rule, x⟩ ↔
      x.Spells lattice Symbol.words place first pair.source.rhs last := by
  obtain ⟨t, ht, -⟩ := Option.bind_eq_some_iff.mp hpair
  have ht := hlegible t (List.mem_of_getElem? ht)
  rw [Application.fits_iff_word? hlegible hpos hpair,
    Trail.spells_iff ht htree hterm hfirst hplace]
  exact and_congr_left' ⟨fun ⟨_, hover⟩ => hover.of_legible ht, fun hover => ⟨t, hover⟩⟩

end ParseForest
