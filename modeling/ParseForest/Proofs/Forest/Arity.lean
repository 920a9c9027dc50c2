import ParseForest.Proofs.Exactness
import ParseForest.Proofs.Forest.Edges

/-!
# Tails and non-terminals

An entry on a trail is matched by a non-terminal of the source side and becomes a tail. An arc is
matched by its word and becomes none, and nothing keeps the word of an arc from being a
non-terminal. So an edge has a tail for each non-terminal of its source side that was not matched
by an arc.
-/

namespace ParseForest

variable {V E : Type}

namespace RuleTable.Paths

variable {t : RuleTable V} {path : StateId → List Symbol}

theorem next_eq (h : t.Paths path) {s : StateId} {label : Symbol}
    (hne : t.next s label ≠ root) : path (t.next s label) = path s ++ [label] := by
  have hstep := h.step_eq s label
  rw [if_neg hne] at hstep
  by_cases hs : s < t.states.size
  · exact (h.child s hs label _ hstep.symm).2
  · rw [child?_of_le (Nat.not_lt.mp hs)] at hstep
    cases hstep

theorem count_path (h : t.Paths path) {s : StateId} {pair : RulePair V}
    (hpair : pair ∈ t.rulesAt s) : (path s).countP Symbol.isNonTerminal = pair.source.arity := by
  rw [← h.rules s pair hpair, RuleTable.path, List.countP_map, Rule.arity, Rule.nonTerminals,
    List.countP_eq_length_filter]
  simp only [Function.comp_def, Symbol.isNonTerminal_unindexed]

end RuleTable.Paths

namespace Trail

def words (t : RuleTable V) (o : Options V) (lattice : Lattice V) : Trail E → List Symbol
  | start => []
  | entry x _ _ => x.words t o lattice
  | arc x p k =>
    match (lattice.arcsAt p)[k]? with
    | some a =>
      if (t.wordFor o a.label).isEpsilon then x.words t o lattice
      else x.words t o lattice ++ [t.wordFor o a.label]
    | none => x.words t o lattice

theorem count_path_of_state? {label : E → Symbol} {t : RuleTable V} {o : Options V}
    {lattice : Lattice V} {path : StateId → List Symbol} (ht : t.Paths path) {x : Trail E}
    (hlabel : ∀ e ∈ x.entries, (label e).isNonTerminal = true) {s : StateId}
    (h : x.state? label t o lattice = some s) :
    (path s).countP Symbol.isNonTerminal =
      x.entries.length + (x.words t o lattice).countP Symbol.isNonTerminal := by
  induction x generalizing s with
  | start =>
    cases h
    rw [ht.atRoot]
    rfl
  | entry x p e ih =>
    -- the label of a constituent is a non-terminal, so the step counts once on either side
    obtain ⟨before, hbefore, h⟩ := Option.bind_eq_some_iff.mp h
    have hx := ih (fun e he => hlabel e (List.mem_append_left _ he)) hbefore
    have he := hlabel e (List.mem_append_right _ List.mem_cons_self)
    split at h
    · cases h
    · rename_i hne
      cases h
      rw [ht.next_eq hne, List.countP_append, hx, List.countP_singleton, if_pos he, entries, words,
        List.length_append, List.length_singleton]
      omega
  | arc x p k ih =>
    obtain ⟨before, hbefore, h⟩ := Option.bind_eq_some_iff.mp h
    obtain ⟨a, ha, h⟩ := Option.bind_eq_some_iff.mp h
    have hx := ih hlabel hbefore
    simp only [words, ha]
    split at h
    · rename_i heps
      cases h
      rw [if_pos heps]
      exact hx
    · rename_i heps
      rw [if_neg heps]
      split at h
      · cases h
      · rename_i hne
        cases h
        rw [ht.next_eq hne, List.countP_append, List.countP_append, hx, entries, Nat.add_assoc]

end Trail

variable [Scalar V] {g : Grammar V} {o : Options V} {lattice : Lattice V} {pruner : Pruner}

open ForestState

theorem ForestState.Genuine.length_entries_add (hlegible : ∀ t ∈ g, t.Legible) {a : Entry}
    (ha : Genuine g o lattice pruner (listed (cells g o lattice pruner)) a) {pair : RulePair V}
    (hpair : g.pair? a.step.rule = some pair) :
    ∃ t, g[a.step.rule.table]? = some t ∧ a.step.parts.entries.length +
      (a.step.parts.words t o lattice).countP Symbol.isNonTerminal = pair.source.arity := by
  obtain ⟨ledger, hran⟩ := exists_ledger g o lattice pruner
  obtain ⟨t, ht, hover, hstate⟩ := ha.fits
  obtain ⟨path, hpath⟩ := (hlegible t (List.mem_of_getElem? ht)).paths
  have hlabel : ∀ c ∈ a.step.parts.entries, c.label.isNonTerminal = true := by
    intro c hc
    obtain ⟨p, q, hplaced⟩ := Trail.exists_placed hc a.place.last
    exact isNonTerminal_of_mem_cells hlegible hran (hover.mem_placed hplaced).2.2.2
  have hslot := hpair
  rw [Grammar.pair?, ht, Option.bind_some] at hslot
  have hcount := Trail.count_path_of_state? hpath hlabel hstate
  rw [hpath.count_path (List.mem_of_getElem? hslot)] at hcount
  exact ⟨t, ht, hcount.symm⟩

theorem Edge.MadeBy.length_tails_add (hlegible : ∀ t ∈ g, t.Legible) {edge : Edge V} {a : Entry}
    {pair : RulePair V} (h : edge.MadeBy g o lattice pruner a pair) :
    ∃ t, g[a.step.rule.table]? = some t ∧
      edge.tails.length + (a.step.parts.words t o lattice).countP Symbol.isNonTerminal =
        pair.source.arity := by
  obtain ⟨t, ht, hcount⟩ := h.genuine.length_entries_add hlegible h.named
  have htails := h.tails.trans (perm_orderTails (by omega)).length_eq
  exact ⟨t, ht, by omega⟩

namespace ForestParser

variable [NumberText V]

/-- Every edge that does not lead to the goal has as many tails as its source side has
non-terminals, less those that were read off arcs. -/
theorem length_tails_add_words (p : ForestParser V) (lattice : Lattice V) (pruner : Pruner)
    (hg : p.grammar.IsText) {e : Nat} (he : e < (p.parse lattice pruner).2.edges.size)
    (hgoal : ((p.parse lattice pruner).2.edge e).head ≠ (p.parse lattice pruner).2.goal) :
    ∃ a pair t,
      ((p.parse lattice pruner).2.edge e).MadeBy p.grammar p.options lattice pruner a pair ∧
        p.grammar[a.step.rule.table]? = some t ∧
        ((p.parse lattice pruner).2.edge e).tails.length +
          (a.step.parts.words t p.options lattice).countP Symbol.isNonTerminal =
            pair.source.arity := by
  rw [parse_eq_forest] at he hgoal ⊢
  obtain ⟨a, pair, hmade⟩ := exists_madeBy he hgoal
  obtain ⟨t, ht, hcount⟩ := hmade.length_tails_add fun _ => hg.legible
  exact ⟨a, pair, t, hmade, ht, hcount⟩

/-- The word before a non-terminal is no tail. -/
theorem length_tails_add_words_of_mixed :
    let p := ForestParser.new [RuleTable.ofText "[S] ||| a [B,1]\n[B] ||| b"] Options.standard
    let lattice := Lattice.ofWords [⟨"a"⟩, ⟨"b"⟩]
    let graph := (p.parse lattice .none).2
    p.grammar.IsText ∧ ∃ e : Nat, (e < graph.edges.size ∧ (graph.edge e).head ≠ graph.goal) ∧
      (graph.edge e).tails.length = 1 ∧
      ∃ a pair t, (graph.edge e).MadeBy p.grammar p.options lattice .none a pair ∧
        p.grammar[a.step.rule.table]? = some t ∧
        (graph.edge e).tails.length +
          (a.step.parts.words t p.options lattice).countP Symbol.isNonTerminal =
            pair.source.arity := by
  intro p lattice graph
  have hgraph : graph = forest p.grammar p.options lattice .none := parse_eq_forest p lattice .none
  have hgoal : ⟨1, ⟨"[S]"⟩, 0⟩ ∈ goalCells p.grammar p.options lattice .none := by decide +kernel
  have hedge : 1 ∈ ((run p.grammar p.options lattice .none).graph.node 1).edges := by
    decide +kernel
  have hone : ((run p.grammar p.options lattice .none).graph.edge 1).tails.length = 1 := by
    decide +kernel
  obtain ⟨e, he, hhead, htails, -⟩ := exists_copy hgoal hedge
  rw [← hgraph] at he hhead htails
  exact ⟨Grammar.isText_ofText _, e, ⟨he, hhead⟩, htails.trans hone,
    length_tails_add_words p lattice .none (Grammar.isText_ofText _) he hhead⟩

/-- A unary rule is matched by an arc that carries the non-terminal: its edge has no tail. -/
theorem not_length_tails_eq_arity :
    let p := ForestParser.new [RuleTable.ofText "[S] ||| [A,1]"] Options.standard
    let lattice := Lattice.ofWords [⟨"[A]"⟩]
    let graph := (p.parse lattice .none).2
    p.grammar.IsText ∧
      ¬∀ e : Nat, e < graph.edges.size → (graph.edge e).head ≠ graph.goal →
        ∃ pair ∈ p.grammar.pairs, (graph.edge e).rule = some (pair.side p.options.yieldSource) ∧
          (graph.edge e).tails.length = pair.source.arity := by
  intro p lattice graph
  refine ⟨Grammar.isText_ofText _, fun h => ?_⟩
  have hgraph : graph = forest p.grammar p.options lattice .none := parse_eq_forest p lattice .none
  have hgoal : ⟨0, ⟨"[S]"⟩, 0⟩ ∈ goalCells p.grammar p.options lattice .none := by decide +kernel
  have hedge : 0 ∈ ((run p.grammar p.options lattice .none).graph.node 0).edges := by
    decide +kernel
  have hnone : ((run p.grammar p.options lattice .none).graph.edge 0).tails.length = 0 := by
    decide +kernel
  have harity : ∀ pair ∈ p.grammar.pairs, pair.source.arity = 1 := by decide +kernel
  obtain ⟨e, he, hhead, htails, -⟩ := exists_copy hgoal hedge
  rw [← hgraph] at he hhead htails
  obtain ⟨pair, hpair, -, hlength⟩ := h e he hhead
  rw [htails, hnone, harity pair hpair] at hlength
  exact Nat.zero_ne_one hlength

end ForestParser

end ParseForest
