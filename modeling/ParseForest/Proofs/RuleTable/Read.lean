import ParseForest.Grammar
import ParseForest.Proofs.RuleTable.Paths
import ParseForest.Proofs.Symbol.Index
import ParseForest.RuleTable.Reader

/-!
# Rule tables read from text

The tables that the reader makes have a path for each state and no longest span, and the two sides
of each of their rule pairs rewrite the same non-terminal.
-/

namespace ParseForest

variable {V : Type}

def RulePair.Aligned (p : RulePair V) : Prop :=
  p.target.lhs = p.source.lhs ∧ p.source.lhs.isNonTerminal = true

theorem RulePair.Aligned.side {p : RulePair V} (h : p.Aligned) (yieldSource : Bool) :
    (p.side yieldSource).lhs = p.source.lhs := by
  cases yieldSource with
  | true => rfl
  | false => exact h.1

namespace RuleReader

theorem ok_of_bind {ε α β : Type} {x : Except ε α} {f : α → Except ε β} {b : β}
    (h : (x >>= f) = .ok b) : ∃ a, x = .ok a ∧ f a = .ok b := by
  cases x with
  | error e => cases h
  | ok a => exact ⟨a, rfl, h⟩

theorem isNonTerminal_of_readLabel {cs rest : List Char} {label : Symbol}
    (h : readLabel cs = .ok (label, rest)) : label.isNonTerminal = true := by
  unfold readLabel at h
  split at h
  · split at h
    · cases h
      exact Symbol.isNonTerminal_bracket _
    · cases h
  · cases h

variable [NumberText V]

theorem lhs_of_readPair {cs : List Char} {pair : RulePair V} (h : readPair cs = .ok pair) :
    pair.target.lhs = pair.source.lhs ∧
      ∃ rest, readLabel (Text.skipBlanks cs) = .ok (pair.source.lhs, rest) := by
  unfold readPair at h
  obtain ⟨⟨lhs, rest⟩, hlabel, h⟩ := ok_of_bind h
  simp only at h
  split at h
  · obtain ⟨source, -, h⟩ := ok_of_bind h
    -- a field that is left out and one that is read go on alike
    split at h
    all_goals obtain ⟨target, -, h⟩ := ok_of_bind h
    all_goals split at h
    all_goals obtain ⟨features, -, h⟩ := ok_of_bind h
    all_goals split at h
    all_goals obtain ⟨attributes, -, h⟩ := ok_of_bind h
    all_goals obtain ⟨-, -, h⟩ := ok_of_bind h
    all_goals cases h
    all_goals exact ⟨rfl, rest, hlabel⟩
  · cases h

theorem aligned_of_readPair {cs : List Char} {pair : RulePair V} (h : readPair cs = .ok pair) :
    pair.Aligned := by
  obtain ⟨hsame, rest, hlabel⟩ := lhs_of_readPair h
  exact ⟨hsame, isNonTerminal_of_readLabel hlabel⟩

theorem readLines_induction {P : RuleTable V → Prop}
    (hinsert : ∀ t (pair : RulePair V), pair.Aligned → P t → P (t.insert pair))
    {lines : List (List Char × Nat)} {t u : RuleTable V} (h : readLines t lines = .ok u)
    (ht : P t) : P u := by
  induction lines generalizing t with
  | nil =>
    cases h
    exact ht
  | cons line rest ih =>
    rw [readLines] at h
    split at h
    · exact ih h ht
    · split at h
      · cases h
      · rename_i pair hpair
        exact ih h (hinsert t pair (aligned_of_readPair hpair) ht)

end RuleReader

namespace RuleTable

/-- A table as the reader makes them: every rule pair stands at its path, no span is too long, and
all rule pairs are aligned. -/
structure Legible (t : RuleTable V) : Prop where
  paths : ∃ path, t.Paths path
  maxSpan : t.maxSpan = none
  aligned : ∀ s, ∀ pair ∈ t.rulesAt s, pair.Aligned

theorem legible_empty : (empty : RuleTable V).Legible := by
  refine ⟨⟨_, paths_empty⟩, rfl, fun s pair hpair => ?_⟩
  rw [rulesAt_empty] at hpair
  cases hpair

theorem Legible.insert {t : RuleTable V} (h : t.Legible) {pair : RulePair V}
    (hpair : pair.Aligned) : (t.insert pair).Legible := by
  obtain ⟨path, hpath⟩ := h.paths
  obtain ⟨path', hpath', hmax, hrules⟩ := hpath.insert pair
  refine ⟨⟨path', hpath'⟩, hmax.trans h.maxSpan, fun s p hp => ?_⟩
  rcases hrules s p hp with hp | rfl
  · exact h.aligned s p hp
  · exact hpair

theorem legible_read [NumberText V] {text : String} {t : RuleTable V} (h : read text = .ok t) :
    t.Legible :=
  RuleReader.readLines_induction (fun _ _ hpair ht => ht.insert hpair) h legible_empty

theorem Legible.ofKind {t : RuleTable V} (h : t.Legible) (kind : TableKind) :
    (t.ofKind kind).Legible := by
  obtain ⟨path, hp⟩ := h.paths
  exact ⟨⟨path, ⟨hp.size, hp.atRoot, hp.child, hp.parent, hp.inj, hp.rules⟩⟩, h.maxSpan, h.aligned⟩

theorem Legible.source_of_mem_unaryRules {t : RuleTable V} (h : t.Legible) {label : Symbol}
    {pair : RulePair V} (hpair : pair ∈ t.unaryRules label) :
    ∃ s, pair.source.rhs = [s] ∧ s.unindexed = label := by
  obtain ⟨path, hpath⟩ := h.paths
  unfold unaryRules at hpair
  by_cases hroot : t.next root label = root
  · simp only [if_pos hroot] at hpair
    cases hpair
  · simp only [if_neg hroot] at hpair
    have hchild := hpath.step_eq root label
    rw [if_neg hroot] at hchild
    have hlabels := hpath.rules _ pair hpair
    rw [(hpath.child root hpath.size label _ hchild.symm).2, hpath.atRoot, List.nil_append] at hlabels
    exact List.map_eq_singleton_iff.mp hlabels

theorem Legible.covers {t : RuleTable V} (h : t.Legible) (distance : Nat) :
    t.covers distance = true := by
  rw [RuleTable.covers, h.maxSpan]
  rfl

end RuleTable

/-- A grammar of tables that were read from text, each of any kind and without a longest span. -/
def Grammar.IsText [NumberText V] (g : Grammar V) : Prop :=
  ∀ t ∈ g, ∃ text u kind, RuleTable.read text = .ok u ∧ t = u.ofKind kind

theorem Grammar.IsText.legible [NumberText V] {g : Grammar V} (h : g.IsText) {t : RuleTable V}
    (ht : t ∈ g) : t.Legible := by
  obtain ⟨text, u, kind, hread, rfl⟩ := h t ht
  exact (RuleTable.legible_read hread).ofKind kind

def RuleTable.ofText [NumberText V] (text : String) : RuleTable V :=
  (read text).toOption.getD empty

theorem RuleTable.read_empty [NumberText V] : read "" = .ok (empty : RuleTable V) := by
  have hlines : Text.lines "".toList = [[]] := by decide
  rw [read, hlines]
  rfl

theorem Grammar.isText_ofText [NumberText V] (text : String) :
    Grammar.IsText (V := V) [RuleTable.ofText text] := by
  intro t ht
  rw [List.mem_singleton.mp ht, RuleTable.ofText]
  cases hread : RuleTable.read (V := V) text with
  | error e => exact ⟨"", _, .rules, RuleTable.read_empty, rfl⟩
  | ok u => exact ⟨text, u, u.kind, hread, rfl⟩

theorem RuleReader.readLines_eq [NumberText V] {lines : List String} {pairs : List (RulePair V)}
    (hlines : ∀ line ∈ lines, '\n' ∉ line.toList)
    (h : List.Forall₂ (fun line pair => readPair (content line.toList) = .ok pair) lines pairs)
    (t : RuleTable V) (number : Nat) :
    readLines t ((Text.lines (lines.flatMap fun line => line.toList ++ ['\n'])).zipIdx number) =
      .ok (pairs.foldl RuleTable.insert t) := by
  induction h generalizing t number with
  | nil => rfl
  | @cons line pair lines pairs hpair _ ih =>
    have hfirst : Text.lines ((line :: lines).flatMap fun line => line.toList ++ ['\n']) =
        line.toList :: Text.lines (lines.flatMap fun line => line.toList ++ ['\n']) := by
      rw [List.flatMap_cons, List.append_assoc, List.singleton_append, Text.lines, Text.lines]
      refine List.splitOnP_append_cons_of_forall_mem (fun c hc => ?_) _ rfl _
      exact beq_eq_false_iff_ne.mpr fun heq => hlines line List.mem_cons_self (heq ▸ hc)
    have hcontent : (content line.toList).isEmpty = false := by
      rw [List.isEmpty_eq_false_iff]
      intro hnil
      rw [hnil] at hpair
      cases hpair
    rw [hfirst, List.zipIdx_cons, readLines, hcontent, hpair]
    exact ih (fun line hline => hlines line (List.mem_cons_of_mem _ hline)) _ _

theorem RuleTable.ofText_join [NumberText V] {lines : List String} {pairs : List (RulePair V)}
    (hlines : ∀ line ∈ lines, '\n' ∉ line.toList)
    (h : List.Forall₂ (fun line pair => RuleReader.readPair (RuleReader.content line.toList) =
      .ok pair) lines pairs) :
    ofText (String.join (lines.map fun line => line ++ "\n")) = pairs.foldl insert empty := by
  have htext : (String.join (lines.map fun line => line ++ "\n")).toList =
      lines.flatMap fun line => line.toList ++ ['\n'] := by
    rw [String.toList_join, List.flatMap_map]
    simp only [String.toList_append]
    rfl
  rw [ofText, read, htext, RuleReader.readLines_eq hlines h]
  rfl

end ParseForest
