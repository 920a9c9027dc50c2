import ParseForest.Proofs.Posterior.Exact

/-!
# Posteriors and the length of chains

A closure that ends before it has found the best score of a label leaves inside scores that fall
short of the best derivation. A posterior is still the score of a derivation over the score of
another one, but the one below need not be the better of the two, and then the posterior is more
than one.

The labels of a span are closed twice. One closure follows a chain of unary rules for the rounds
that may bring no new label and one more, since its first round brings a label; what the second
closures start from is what the first ones have reached. So when no chain without repetitions is
longer than both together, all inside scores are those of best derivations, and no posterior is
more than one. The bound is exact: one rule more, and there are posteriors above one.
-/

namespace ParseForest

variable {V S : Type} [Score S]

/-- No chain of unary rules over a label that a rule derives visits more than `n` labels after it
without coming back to one. -/
def Grammar.SimpleChainsWithin (g : Grammar V) (w : Weighting V S) (o : Options V) (n : Nat) :
    Prop :=
  ∀ child ∈ g.leftSides o, ∀ visited label x,
    SimplePath g w o child visited label x → visited.length ≤ n + 1

theorem Grammar.simpleChainsWithin_of_length {g : Grammar V} (w : Weighting V S) {o : Options V}
    {n : Nat} (h : (g.leftSides o).dedup.length ≤ n + 1) : g.SimpleChainsWithin w o n := by
  intro child hchild visited label x hpath
  have hlength := hpath.length_le
  rw [List.dedup_cons_of_mem hchild] at hlength
  exact hlength.trans h

variable [LinearOrder S] [LawfulScore S]

theorem UnaryPath.cut {g : Grammar V} {w : Weighting V S} {o : Options V} {child label : Symbol}
    {n : Nat} {x : S} (h : UnaryPath g w o child n label x) {k : Nat} (hk : k ≤ n) :
    ∃ mid y z, UnaryPath g w o child k mid y ∧ UnaryPath g w o mid (n - k) label z ∧
      Score.mul y z = x := by
  induction h with
  | start =>
    obtain rfl := Nat.le_zero.mp hk
    exact ⟨child, _, _, .start, .start, LawfulScore.mul_one _⟩
  | @step n label x pair before rule ih =>
    rcases Nat.lt_or_eq_of_le hk with hlt | rfl
    · obtain ⟨mid, y, z, hy, hz, hx⟩ := ih (Nat.le_of_lt_succ hlt)
      refine ⟨mid, y, Score.mul (w pair.features) z, hy, ?_, ?_⟩
      · rw [Nat.succ_sub (Nat.le_of_lt_succ hlt)]
        exact hz.step rule
      · rw [← hx]
        ac_rfl
    · refine ⟨_, _, _, before.step rule, ?_, LawfulScore.mul_one _⟩
      rw [Nat.sub_self]
      exact .start

theorem ScoreCell.le_scoreAfter {steps : List (ScoreStep S)} {s : ScoreStep S} (hs : s ∈ steps) :
    s.value ≤ scoreAfter steps s.label := by
  induction steps using List.reverseRecOn with
  | nil => cases hs
  | append_singleton steps t ih =>
    rw [scoreAfter, after_append, inside_take, scoreOf_raise]
    rcases List.mem_append.mp hs with hs | hs
    · split
      · rename_i hl
        rw [LawfulScore.best_eq_max, ← hl]
        exact le_max_of_le_left (ih hs)
      · exact ih hs
    · rw [List.mem_singleton.mp hs, if_pos rfl, LawfulScore.best_eq_max]
      exact le_max_right _ _

section Climb

open ScoreState

variable {order : ClosureOrder} {g : Grammar V} {w : Weighting V S} {o : Options V}
  {lattice : Lattice V} (hunary : ∀ label, ∀ pair ∈ g.unaryRules label, w pair.features ≤ Score.one)
include hunary

theorem Passes.exists_reach {i j : Nat} {toFinal : Bool} {base steps : List (ScoreStep S)}
    {children : List Symbol}
    (h : Passes (unaryClosureIn order g w o) (⟨o, .none, i, j⟩ : Site V) toFinal base children steps)
    {s : ScoreStep S} (hs : s ∈ base) (hchild : s.label ∈ children) {n : Nat}
    (hn : n ≤ max o.scoreStagnation 1 + 1) {label : Symbol} {y : S}
    (hpath : UnaryPath g w o s.label n label y) :
    ∃ e x, .reach toFinal label e x ∈ steps ∧ Score.mul s.value y ≤ x := by
  obtain ⟨z, hget, hyz⟩ := dominates_unaryClosureIn_of_le
    (fun _ label _ _ pair hpair => hunary label pair hpair) hn hpath
  obtain ⟨before, -, hmem⟩ := h.exists_mem hchild
  have hraised := ScoreCell.le_scoreAfter (List.mem_append_left before hs)
  exact ⟨_, _, hmem label z hget rfl, LawfulScore.mul_le_mul hraised hyz⟩

/-- The two passes of a span follow chains that are no longer than two closures do. -/
theorem climbs_of_simpleChainsWithin
    (hchains : g.SimpleChainsWithin w o (2 * (max o.scoreStagnation 1 + 1))) :
    Estimates.Climbs (fun x a => a ≤ x) order g w w o lattice .none := by
  intro i j a pair b hmatch n label c hpath _
  obtain ⟨builds, closes, ends, hcell, hbuilds, ⟨children, hchildren, hclose⟩, children',
    hchildren', hend⟩ := exists_steps order g w o hmatch.span hmatch.spanLeft
  have hbuild := (hbuilds _).mpr
    ⟨a, pair, hmatch.fits, hmatch.begins, hmatch.named, hmatch.labelLeft, rfl⟩
  have hchild := Grammar.mem_leftSides (o := o) (Grammar.mem_pairs_of_pair? hmatch.named)
  obtain ⟨visited, x, hsimple, hcx⟩ :=
    hpath.exists_simple fun _ label _ _ pair hpair => hunary label pair hpair
  obtain ⟨m, hlength, hsimplePath⟩ := hsimple.exists_path
  have hm : m ≤ 2 * (max o.scoreStagnation 1 + 1) := by
    have hle := hchains _ hchild _ _ _ hsimple
    omega
  -- the first pass follows the chain as far as one closure does, the second one the rest
  obtain ⟨mid, y, z, hy, hz, hyz⟩ :=
    hsimplePath.cut (Nat.min_le_left m (max o.scoreStagnation 1 + 1))
  obtain ⟨e, u, hu, hle⟩ := hclose.exists_reach hunary hbuild ((hchildren _).mpr ⟨_, _, hbuild⟩)
    (Nat.min_le_right _ _) hy
  obtain ⟨e', u', hu', hle'⟩ := hend.exists_reach hunary (List.mem_append_right builds hu)
    ((hchildren' mid).mpr ⟨_, _, hu⟩) (by omega) hz
  have hmem : .reach true label e' u' ∈ builds ++ (closes ++ ends) :=
    List.mem_append_right _ (List.mem_append_right _ hu')
  have hinside : (scored order g w o lattice .none).inside.get i j =
      (ScoreCell.after (builds ++ (closes ++ ends))).inside := congrArg ScoreCell.inside hcell
  refine ⟨isSome_inside_iff.mp ?_, ?_⟩
  · rw [hinside]
    exact ScoreCell.isSome_inside.mpr ⟨_, hmem, rfl⟩
  · rw [insideOf, hinside]
    calc Score.mul b c ≤ Score.mul b x := LawfulScore.mul_mono b hcx
      _ = Score.mul (Score.mul b y) z := by rw [← hyz, LawfulScore.mul_assoc]
      _ ≤ Score.mul u z := LawfulScore.mul_le_mul
          ((LawfulScore.mul_le_mul hmatch.score le_rfl).trans hle) le_rfl
      _ ≤ u' := hle'
      _ ≤ _ := ScoreCell.le_scoreAfter hmem

theorem score_le_insideOf_goal
    (hchains : g.SimpleChainsWithin w o (2 * (max o.scoreStagnation 1 + 1)))
    {d : Derivation} (hd : d ∈ Derivation.goals g o lattice) :
    d.score g w lattice ≤ (scored order g w o lattice .none).insideOf ⟨0, lattice.size, o.goal⟩ := by
  have hw : w.StandsFor w fun x a => a ≤ x :=
    ⟨le_rfl, fun _ => le_rfl, fun hx hy => LawfulScore.mul_le_mul hx hy⟩
  rw [← hd.2]
  exact (Estimates.insideOf_of_climbs hw (climbs_of_simpleChainsWithin hunary hchains) hd.1).2

end Climb

omit [LinearOrder S] [LawfulScore S] in
theorem parsed_of_get? {order : ClosureOrder} {g : Grammar V} {w : Weighting V S} {o : Options V}
    {lattice : Lattice V} {pruner : Pruner} {i j : Nat} {label : Symbol} {x : S}
    (h : LabelMap.get? ((posteriorsIn order g w o lattice pruner).scores.get i j) label = some x) :
    (posteriorsIn order g w o lattice pruner).parsed = true := by
  rw [posteriorsIn] at h ⊢
  cases hempty : lattice.isEmpty with
  | true =>
    rw [ScoreParser.parseIn_of_empty _ hempty] at h
    simp only [Chart.get_new] at h
    cases h
  | false =>
    rw [ScoreParser.parseIn_eq hempty] at h ⊢
    split at h
    · simp only [Chart.get_new] at h
      cases h
    · rename_i hzero
      rw [if_neg hzero]

theorem exists_quotients {order : ClosureOrder} {g : Grammar V} {w : Weighting V S}
    {o : Options V} {lattice : Lattice V} (hfree : ∀ t ∈ g, t.maxSpan = none)
    (hparsed : (posteriorsIn order g w o lattice .none).parsed = true) :
    ∃ b ∈ Derivation.goals g o lattice, b.score g w lattice ≠ Score.zero ∧
      b.score g w lattice =
        (ScoreState.scored order g w o lattice .none).insideOf ⟨0, lattice.size, o.goal⟩ ∧
      ∀ i j label x, LabelMap.get? ((posteriorsIn order g w o lattice .none).scores.get i j) label =
        some x → ∃ a ∈ Derivation.goals g o lattice, a.Uses ⟨i, j, label⟩ ∧
          x = Score.div (a.score g w lattice) (b.score g w lattice) := by
  have hinside := parsed_posteriors_iff.mp hparsed
  obtain ⟨b, hb, hscore⟩ := exists_goal_of_inside hfree hinside
  refine ⟨b, hb, by rw [hscore]; exact hinside, hscore, fun i j label x hx => ?_⟩
  rw [get?_scores_posteriors hparsed, ScoreState.posterior?_eq_some_iff] at hx
  obtain ⟨-, hnonzero, rfl⟩ := hx
  rw [LawfulScore.isZero_eq_false_iff] at hnonzero
  obtain ⟨a, ha, huses, hjoint⟩ := exists_goal_of_joint hfree hnonzero
  exact ⟨a, ha, huses, by rw [hjoint, hscore]⟩

/-- Each posterior is the score of a derivation of the goal that uses the label, over the score of
one and the same derivation of the goal. When unary rules score at most one and no chain of them is
longer than the two closures of a span follow it, no posterior is more than one. -/
theorem ScoreParser.posterior_le_one (order : ClosureOrder) (p : ScoreParser V S)
    (lattice : Lattice V) (hfree : ∀ t ∈ p.grammar, t.maxSpan = none) :
    let goals := Derivation.goals p.grammar p.options lattice
    let score := Derivation.score p.grammar p.weighting lattice
    let result := (p.parseIn order lattice .none).2
    (result.parsed = true → ∃ b ∈ goals, score b ≠ Score.zero ∧ ∀ first last label x,
      LabelMap.get? (result.scores.get first last) label = some x →
        ∃ a ∈ goals, a.Uses ⟨first, last, label⟩ ∧ x = Score.div (score a) (score b)) ∧
    ((∀ label, ∀ pair ∈ p.grammar.unaryRules label, p.weighting pair.features ≤ Score.one) →
      p.grammar.SimpleChainsWithin p.weighting p.options
        (2 * (max p.options.scoreStagnation 1 + 1)) →
      ∀ first last label x,
        LabelMap.get? (result.scores.get first last) label = some x → x ≤ Score.one) := by
  intro goals score result
  have hresult : result = posteriorsIn order p.grammar p.weighting p.options lattice .none :=
    p.parseIn_eq_posteriorsIn order lattice .none
  rw [hresult]
  refine ⟨fun hparsed => ?_, fun hunary hchains first last label x hx => ?_⟩
  · obtain ⟨b, hb, hnonzero, -, hquotients⟩ := exists_quotients hfree hparsed
    exact ⟨b, hb, hnonzero, hquotients⟩
  · obtain ⟨b, -, hnonzero, hbest, hquotients⟩ := exists_quotients hfree (parsed_of_get? hx)
    obtain ⟨a, ha, -, rfl⟩ := hquotients first last label x hx
    refine LawfulScore.div_le_one ?_ hnonzero
    rw [hbest]
    exact score_le_insideOf_goal hunary hchains ha

/-- A cycle of six labels below the goal. -/
theorem ScoreParser.posterior_le_one_of_cycle :
    let p := ScoreParser.new [RuleTable.ofText
      "[A] ||| a\n[B] ||| [A,1]\n[C] ||| [B,1]\n[D] ||| [C,1]\n[E] ||| [D,1]\n[A] ||| [E,1]\n[S] ||| [E,1]"]
      (fun _ => 1 / 2 : Weighting Float ℚ≥0) Options.standard
    let lattice := Lattice.ofWords [⟨"a"⟩]
    let result := (p.parseIn .arrival lattice .none).2
    ((∀ t ∈ p.grammar, t.maxSpan = none) ∧
      (∀ label, ∀ pair ∈ p.grammar.unaryRules label, p.weighting pair.features ≤ Score.one) ∧
      p.grammar.SimpleChainsWithin p.weighting p.options
        (2 * (max p.options.scoreStagnation 1 + 1))) ∧
    result.parsed = true ∧
    (∃ b ∈ Derivation.goals p.grammar p.options lattice,
      Derivation.score p.grammar p.weighting lattice b ≠ Score.zero) ∧
    LabelMap.get? (result.scores.get 0 1) ⟨"[A]"⟩ = some Score.one ∧
    ∀ first last label x,
      LabelMap.get? (result.scores.get first last) label = some x → x ≤ Score.one := by
  intro p lattice result
  have hfree : ∀ t ∈ p.grammar, t.maxSpan = none :=
    fun t ht => ((Grammar.isText_ofText _).legible ht).maxSpan
  have hunary : ∀ label, ∀ pair ∈ p.grammar.unaryRules label,
      p.weighting pair.features ≤ Score.one := fun _ _ _ => by
    change (1 / 2 : ℚ≥0) ≤ 1
    decide +kernel
  have hlength : (p.grammar.leftSides p.options).dedup.length ≤ 10 + 1 := by decide +kernel
  have hchains : p.grammar.SimpleChainsWithin p.weighting p.options 10 :=
    Grammar.simpleChainsWithin_of_length _ hlength
  have hresult : result.parsed = true ∧
      LabelMap.get? (result.scores.get 0 1) ⟨"[A]"⟩ = some Score.one := by decide +kernel
  obtain ⟨hquotients, hbound⟩ := posterior_le_one .arrival p lattice hfree
  obtain ⟨b, hb, hnonzero, -⟩ := hquotients hresult.1
  exact ⟨⟨hfree, hunary, hchains⟩, hresult.1, ⟨b, hb, hnonzero⟩, hresult.2,
    hbound hunary hchains⟩

def RulePair.ofNames (lhs child : String) (features : FeatureVector V) : RulePair V :=
  ⟨⟨⟨lhs⟩, [⟨child⟩]⟩, ⟨⟨lhs⟩, [⟨child⟩]⟩, features, NameMap.empty⟩

/-- A chain of eleven unary rules of score one leads from `[A]` to the goal. Rules of score one half
from `[A]` and from `[F]` to all labels further on end the closures of both after five rules of the
chain. The labels further up come up first, so `[G]` to `[K]` are closed before `[F]` has raised
them, and the goal is left with one half. -/
theorem ScoreParser.one_lt_posterior_of_long_chain :
    let lines := [
      "[A] ||| a", "[S] ||| [A,1] ||| [A,1] ||| low=1", "[K] ||| [A,1] ||| [A,1] ||| low=1",
      "[J] ||| [A,1] ||| [A,1] ||| low=1", "[I] ||| [A,1] ||| [A,1] ||| low=1",
      "[H] ||| [A,1] ||| [A,1] ||| low=1", "[G] ||| [A,1] ||| [A,1] ||| low=1",
      "[F] ||| [A,1] ||| [A,1] ||| low=1", "[E] ||| [A,1] ||| [A,1] ||| low=1",
      "[D] ||| [A,1] ||| [A,1] ||| low=1", "[C] ||| [A,1] ||| [A,1] ||| low=1", "[B] ||| [A,1]",
      "[C] ||| [B,1]", "[D] ||| [C,1]", "[E] ||| [D,1]", "[F] ||| [E,1]", "[G] ||| [F,1]",
      "[H] ||| [G,1]", "[I] ||| [H,1]", "[J] ||| [I,1]", "[K] ||| [J,1]", "[S] ||| [K,1]",
      "[H] ||| [F,1] ||| [F,1] ||| low=1", "[I] ||| [F,1] ||| [F,1] ||| low=1",
      "[J] ||| [F,1] ||| [F,1] ||| low=1", "[K] ||| [F,1] ||| [F,1] ||| low=1",
      "[S] ||| [F,1] ||| [F,1] ||| low=1"]
    let g : Grammar Float := [RuleTable.ofText (String.join (lines.map fun line => line ++ "\n"))]
    let w : Weighting Float ℚ≥0 := fun f => if f.entries.isEmpty then 1 else 1 / 2
    let p := ScoreParser.new g w Options.standard
    let lattice := Lattice.ofWords [⟨"a"⟩]
    (g.IsText ∧ (∀ t ∈ g, t.maxSpan = none) ∧ ∀ f, w f ≤ Score.one) ∧
      ∃ x, LabelMap.get? ((p.parse lattice .none).2.scores.get 0 1) ⟨"[A]"⟩ = some x ∧
        Score.one < x := by
  intro lines g w p lattice
  let high := fun lhs child => RulePair.ofNames lhs child (NameMap.empty : FeatureVector Float)
  let low := fun lhs child => RulePair.ofNames lhs child
    (NameMap.empty.insert "low" (Number.Decimal.toFloat ⟨1, 0⟩))
  let pairs := [
    high "[A]" "a", low "[S]" "[A,1]", low "[K]" "[A,1]", low "[J]" "[A,1]", low "[I]" "[A,1]",
    low "[H]" "[A,1]", low "[G]" "[A,1]", low "[F]" "[A,1]", low "[E]" "[A,1]", low "[D]" "[A,1]",
    low "[C]" "[A,1]", high "[B]" "[A,1]", high "[C]" "[B,1]", high "[D]" "[C,1]",
    high "[E]" "[D,1]", high "[F]" "[E,1]", high "[G]" "[F,1]", high "[H]" "[G,1]",
    high "[I]" "[H,1]", high "[J]" "[I,1]", high "[K]" "[J,1]", high "[S]" "[K,1]",
    low "[H]" "[F,1]", low "[I]" "[F,1]", low "[J]" "[F,1]", low "[K]" "[F,1]", low "[S]" "[F,1]"]
  have hlines : ∀ line ∈ lines, '\n' ∉ line.toList := by decide +kernel
  have hpairs : List.Forall₂ (fun line pair =>
      RuleReader.readPair (RuleReader.content line.toList) = .ok pair) lines pairs := by
    repeat' apply List.Forall₂.cons
    all_goals first | exact .nil | with_unfolding_all rfl
  have htable : g = [pairs.foldl RuleTable.insert RuleTable.empty] :=
    congrArg (fun t => [t]) (RuleTable.ofText_join hlines hpairs)
  have htext : g.IsText := Grammar.isText_ofText _
  have hw : ∀ f, w f ≤ Score.one := by
    intro f
    change (if f.entries.isEmpty then 1 else 1 / 2 : ℚ≥0) ≤ 1
    split
    · exact le_rfl
    · decide +kernel
  have hvalue : LabelMap.get? ((p.parse lattice .none).2.scores.get 0 1) ⟨"[A]"⟩ = some 2 := by
    simp only [p, htable]
    decide +kernel
  exact ⟨⟨htext, fun t ht => (htext.legible ht).maxSpan, hw⟩, 2, hvalue, by decide +kernel⟩

end ParseForest
