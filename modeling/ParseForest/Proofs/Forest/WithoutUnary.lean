import ParseForest.Proofs.Exactness
import ParseForest.Proofs.Forest.Shapes

/-!
# Forests without unary rules

A table stores words and non-terminals as edges of one tree, so the label of a constituent could
lead to a state with rules. In a table read from text, whatever its kind and its limit, the rules at
such a state have a source of one symbol with the label of the constituent, which is a
non-terminal. A grammar without such rules leaves a round of the unary loop nothing to apply, so
the number of rounds that the options allow makes no difference.
-/

namespace ParseForest

variable {V : Type}

def Grammar.IsLimitedText [NumberText V] (g : Grammar V) : Prop :=
  ∀ t ∈ g, ∃ text u kind limit, RuleTable.read text = .ok u ∧ t = ⟨u.states, kind, limit⟩

namespace Grammar.IsLimitedText

variable [NumberText V] {g : Grammar V} (hg : g.IsLimitedText)
include hg

theorem isNonTerminal_lhs {t : RuleTable V} (ht : t ∈ g) {s : StateId} {pair : RulePair V}
    (hpair : pair ∈ t.rulesAt s) (yieldSource : Bool) :
    (pair.side yieldSource).lhs.isNonTerminal = true := by
  obtain ⟨text, u, kind, limit, hread, rfl⟩ := hg t ht
  have haligned : pair.Aligned := (RuleTable.legible_read hread).aligned s pair hpair
  rw [haligned.side]
  exact haligned.2

theorem unaryRules_eq_nil (hnone : g.NoUnary) {t : RuleTable V} (ht : t ∈ g) {label : Symbol}
    (hlabel : label.isNonTerminal = true) : t.unaryRules label = [] := by
  refine List.eq_nil_iff_forall_not_mem.mpr fun pair hpair => ?_
  have hmem : pair ∈ g.pairs := mem_pairs_of_mem_unaryRules (mem_unaryRules ht hpair)
  obtain ⟨text, u, kind, limit, hread, rfl⟩ := hg t ht
  obtain ⟨s, hsource, hs⟩ : ∃ s, pair.source.rhs = [s] ∧ s.unindexed = label :=
    (RuleTable.legible_read hread).source_of_mem_unaryRules hpair
  have hterminal := hnone pair hmem s (hsource ▸ List.mem_singleton_self s) hsource
  rw [Symbol.isTerminal, ← Symbol.isNonTerminal_unindexed, hs, hlabel] at hterminal
  cases hterminal

end Grammar.IsLimitedText

variable [Scalar V]

namespace SpanBuild

variable {site : Site V} {g : Grammar V} {b : SpanBuild V}

variable (site) in
theorem round_eq_self (distance : Nat) {frontier : List Constituent}
    (h : ∀ c ∈ frontier, ∀ t ∈ g, t.unaryRules c.label = []) :
    b.round site g distance frontier = b := by
  have hsteps : roundSteps g distance frontier = [] := by
    refine List.eq_nil_iff_forall_not_mem.mpr fun s hs => ?_
    obtain ⟨t, ht, c, hc, pair, hpair, -⟩ := of_mem_roundSteps hs
    rw [h c hc t ht] at hpair
    exact List.not_mem_nil hpair
  rw [← foldl_roundSteps, hsteps, List.foldl_nil]

variable (site) in
theorem close_eq_self (distance : Nat) (h : ∀ c ∈ b.found, ∀ t ∈ g, t.unaryRules c.label = []) :
    b.close site g distance = b := by
  have hfrom : ∀ fuel stagnant done, b.closeFrom site g distance fuel stagnant done = b := by
    intro fuel
    induction fuel with
    | zero => exact fun _ _ => rfl
    | succ fuel ih =>
      intro stagnant done
      have hround : b.round site g distance (b.found.drop done) = b :=
        round_eq_self site distance fun c hc => h c (List.mem_of_mem_drop hc)
      simp only [closeFrom, hround, ih, ite_self]
  unfold close
  split
  · rfl
  · exact hfrom _ _ _

end SpanBuild

namespace ForestState

variable [NumberText V] {g : Grammar V} {o : Options V} {lattice : Lattice V} {pruner : Pruner}

theorem isNonTerminal_of_applied (hg : g.IsLimitedText) {st : ForestState V}
    (hst : ∀ tr ∈ st.tracks, tr.table ∈ g) {first last : Nat} :
    ∀ c ∈ (applied o lattice pruner st first last).found, c.label.isNonTerminal = true := by
  intro c hc
  rw [applied, applyAll_eq] at hc
  obtain ⟨new, hfound, hnew⟩ := SpanBuild.exists_found_foldl ⟨o, pruner, first, last⟩
    (((advanced o lattice st first last).flatMap (Track.completed first last)).map
      RuleStep.ofMatched) ⟨st.graph, []⟩
  rw [hfound, List.nil_append] at hc
  obtain ⟨s, hs, hlabel, -⟩ := hnew c hc
  obtain ⟨⟨pair, used⟩, hmatched, rfl⟩ := List.mem_map.mp hs
  obtain ⟨tr, htr, hcompleted⟩ := List.mem_flatMap.mp hmatched
  obtain ⟨before, hbefore, rfl⟩ := List.mem_map.mp htr
  obtain ⟨item, -, hrules⟩ := List.mem_flatMap.mp hcompleted
  obtain ⟨pair, hpair, heq⟩ := List.mem_map.mp hrules
  cases heq
  rw [Track.table_advance] at hpair
  rw [hlabel]
  exact hg.isNonTerminal_lhs (hst before hbefore) hpair o.yieldSource

theorem built_eq_applied (hg : g.IsLimitedText) (hnone : g.NoUnary) {st : ForestState V}
    (hst : ∀ tr ∈ st.tracks, tr.table ∈ g) (first last : Nat) :
    built g o lattice pruner st first last = applied o lattice pruner st first last :=
  SpanBuild.close_eq_self _ _ fun c hc _ ht =>
    hg.unaryRules_eq_nil hnone ht (isNonTerminal_of_applied hg hst c hc)

omit [NumberText V] in
theorem table_start (g : Grammar V) (size : Nat) :
    ∀ tr ∈ (start g size).tracks, tr.table ∈ g := by
  intro tr htr
  obtain ⟨t, ht, rfl⟩ := List.mem_map.mp htr
  exact ht

omit [NumberText V] in
theorem table_fill {st : ForestState V} (hst : ∀ tr ∈ st.tracks, tr.table ∈ g) (s : Nat × Nat) :
    ∀ tr ∈ (fill g o lattice pruner st s).tracks, tr.table ∈ g := by
  obtain ⟨first, last⟩ := s
  have hadvanced : ∀ tr ∈ advanced o lattice st first last, tr.table ∈ g :=
    Track.table_mem_map (fun tr => tr.table_advance _ _ _) hst
  cases hskip : pruner.skipsSpan first last with
  | true =>
    rw [fill_of_skipped hskip]
    exact hadvanced
  | false =>
    rw [fill_of_not_skipped hskip]
    exact Track.table_mem_map (fun tr => tr.table_beginWith _ _ _ _) hadvanced

theorem fill_forestStagnation (hg : g.IsLimitedText) (hnone : g.NoUnary) {st : ForestState V}
    (hst : ∀ tr ∈ st.tracks, tr.table ∈ g) (k : Nat) (s : Nat × Nat) :
    fill g { o with forestStagnation := k } lattice pruner st s = fill g o lattice pruner st s := by
  obtain ⟨first, last⟩ := s
  cases hskip : pruner.skipsSpan first last with
  | true =>
    rw [fill_of_skipped hskip, fill_of_skipped hskip]
    rfl
  | false =>
    rw [fill_of_not_skipped hskip, fill_of_not_skipped hskip, built_eq_applied hg hnone hst,
      built_eq_applied hg hnone hst]
    rfl

theorem run_forestStagnation (hg : g.IsLimitedText) (hnone : g.NoUnary) (k : Nat) :
    run g { o with forestStagnation := k } lattice pruner = run g o lattice pruner := by
  rw [run_eq_upTo, run_eq_upTo]
  refine (List.foldl_rel (r := fun st st' : ForestState V =>
    st = st' ∧ ∀ tr ∈ st.tracks, tr.table ∈ g) ⟨rfl, table_start g lattice.size⟩ ?_).1
  intro s _ st st' hsame
  obtain ⟨rfl, hst⟩ := hsame
  exact ⟨fill_forestStagnation hg hnone hst k s, table_fill hst s⟩

end ForestState

namespace ForestParser

variable [NumberText V]

/-- When no source side is a single non-terminal, the parse does not depend on the number of rounds
that the unary loop may go on without a new label: the graph is the same, number for number. -/
theorem parse_forestStagnation (p : ForestParser V) (lattice : Lattice V) (pruner : Pruner)
    (hg : p.grammar.IsLimitedText) (hnone : p.grammar.NoUnary) (k k' : Nat) :
    ({ p with options := { p.options with forestStagnation := k } }.parse lattice pruner).2 =
      ({ p with options := { p.options with forestStagnation := k' } }.parse lattice pruner).2 := by
  have hparse : ∀ n,
      ({ p with options := { p.options with forestStagnation := n } }.parse lattice pruner).2 =
        (p.parse lattice pruner).2 := by
    intro n
    unfold parse
    split
    · rfl
    · simp only [ForestState.run_forestStagnation hg hnone]
      rfl
  rw [hparse k, hparse k']

/-- A word and a non-terminal begin sources of one table; over three words no round of the unary
loop, one and five of them give the same graph. -/
theorem parse_forestStagnation_of_nested :
    let p := ForestParser.new
      [(RuleTable.ofText "[S] ||| a [S,1] a\n[S] ||| [S,1] b\n[S] ||| a").withMaxSpan 3]
      Options.standard
    let lattice := Lattice.ofWords [⟨"a"⟩, ⟨"a"⟩, ⟨"a"⟩]
    let graph (k : Nat) :=
      ({ p with options := { p.options with forestStagnation := k } }.parse lattice .none).2
    (p.grammar.IsLimitedText ∧ p.grammar.NoUnary) ∧
      ForestState.goalCells p.grammar p.options lattice .none ≠ [] ∧
      graph 0 = graph 1 ∧ graph 5 = graph 1 := by
  intro p lattice graph
  have htext : p.grammar.IsLimitedText := by
    intro t ht
    obtain ⟨text, u, kind, hread, heq⟩ := Grammar.isText_ofText (V := Float)
      "[S] ||| a [S,1] a\n[S] ||| [S,1] b\n[S] ||| a" _ (List.mem_singleton_self _)
    rw [List.mem_singleton.mp ht, heq]
    exact ⟨text, u, kind, some 3, hread, rfl⟩
  have hnone : p.grammar.NoUnary := by decide +kernel
  have hparsed : ForestState.goalCells p.grammar p.options lattice .none ≠ [] := by decide +kernel
  exact ⟨⟨htext, hnone⟩, hparsed, parse_forestStagnation p lattice .none htext hnone 0 1,
    parse_forestStagnation p lattice .none htext hnone 5 1⟩

end ForestParser

end ParseForest
