import ParseForest.Proofs.Forest.YieldSide
import ParseForest.Proofs.Posterior.Chart
import ParseForest.Proofs.Posterior.Run
import ParseForest.Proofs.Recognition

/-!
# Parses that yield either side

The scoring parser keeps no rules: from a rule pair it takes the label that the pair derives, its
features, and the source side that was matched. So where both sides of a pair derive one label, the
choice of the side changes no closure, no chart and no posterior, and in a forest it changes the
rules below the goal only.
-/

namespace ParseForest

variable {V S : Type} [Score S] {g : Grammar V} {w : Weighting V S} {o : Options V}

namespace Closure

theorem applyPair_yielding (hg : g.OneLabel) {pair : RulePair V} (hpair : pair ∈ g.pairs)
    (b b' : Bool) (child : Symbol) (score : S) (st : LabelMap S × Bool) :
    applyPair w (o.yielding b) child score st pair =
      applyPair w (o.yielding b') child score st pair := by
  have hside : (pair.side (o.yielding b).yieldSource).lhs =
      (pair.side (o.yielding b').yieldSource).lhs :=
    (hg.lhs_side hpair b).trans (hg.lhs_side hpair b').symm
  rw [applyPair, applyPair, hside]

theorem roundIn_yielding (hg : g.OneLabel) (b b' : Bool) (labels : List Symbol) (child : Symbol)
    (closure : LabelMap S) :
    roundIn labels g w (o.yielding b) child closure =
      roundIn labels g w (o.yielding b') child closure := by
  rw [roundIn_eq, roundIn_eq]
  refine List.foldl_ext _ _ _ fun st t ht => ?_
  obtain ⟨label, -, -, hrule⟩ := mem_tasks_inOrder.mp ht
  exact applyPair_yielding hg (Grammar.mem_pairs_of_mem_unaryRules hrule) b b' child t.1 st

theorem roundsFromIn_yielding (hg : g.OneLabel) (b b' : Bool) (order : ClosureOrder)
    (child : Symbol) (fuel n stagnant : Nat) (closure : LabelMap S) :
    roundsFromIn order g w (o.yielding b) child fuel n stagnant closure =
      roundsFromIn order g w (o.yielding b') child fuel n stagnant closure := by
  induction fuel generalizing n stagnant closure with
  | zero => rfl
  | succ fuel ih =>
    rw [roundsFromIn, roundsFromIn, roundIn_yielding hg b b']
    simp only [ih]
    rfl

end Closure

theorem unaryClosureIn_yielding (hg : g.OneLabel) (b b' : Bool) (order : ClosureOrder) :
    unaryClosureIn order g w (o.yielding b) = unaryClosureIn order g w (o.yielding b') :=
  funext fun child => Closure.roundsFromIn_yielding hg b b' order child _ 0 0 _

namespace ScoreState

variable {closure : Symbol → LabelMap S} {lattice : Lattice V} {pruner : Pruner}

theorem buildLabel_yielding (hg : g.OneLabel) (b b' : Bool) (site : Site V)
    {m : RulePair V × ScoredEdge S} (hm : m.1 ∈ g.pairs) (st : ScoreState V S) :
    buildLabel w (site.yielding b) st m = buildLabel w (site.yielding b') st m := by
  have hlabel : ((site.yielding b).ruleOf m.1).lhs = ((site.yielding b').ruleOf m.1).lhs :=
    (hg.lhs_side hm b).trans (hg.lhs_side hm b').symm
  rw [buildLabel, buildLabel, hlabel]
  rfl

theorem tracks_buildLabel (site : Site V) (st : ScoreState V S) (m : RulePair V × ScoredEdge S) :
    (buildLabel w site st m).tracks = st.tracks := by
  rw [buildLabel]
  split <;> rfl

theorem tracks_reachLabel (site : Site V) (toFinal : Bool) (child : Symbol) (tail : S)
    (st : ScoreState V S) (reached : Symbol × S) :
    (reachLabel site toFinal child tail st reached).tracks = st.tracks := by
  rw [reachLabel]
  cases site.skips reached.1 with
  | true => rfl
  | false => cases toFinal <;> rfl

omit [Score S] in
theorem tracks_foldl {α : Type} {f : ScoreState V S → α → ScoreState V S}
    (hf : ∀ st a, (f st a).tracks = st.tracks) (as : List α) (st : ScoreState V S) :
    (as.foldl f st).tracks = st.tracks := by
  induction as generalizing st with
  | nil => rfl
  | cons a as ih => rw [List.foldl_cons, ih, hf]

theorem tracks_closeSpan (site : Site V) (st : ScoreState V S) :
    (closeSpan closure site st).tracks = st.tracks := by
  have hlabel : ∀ (toFinal : Bool) (st : ScoreState V S) (child : Symbol),
      (closeLabel closure site toFinal st child).tracks = st.tracks := by
    intro toFinal st child
    rw [closeLabel, tracks_foldl (tracks_reachLabel site toFinal child _)]
  rw [closeSpan, tracks_foldl (hlabel true), tracks_foldl (hlabel false)]

theorem fillSpan_eq (st : ScoreState V S) (first last : Nat) :
    fillSpan w o closure lattice lattice.distanceTable pruner st (first, last) =
      let site : Site V := ⟨o, pruner, first, last⟩
      let brought : ScoreState V S := { st with tracks := advanced w o lattice st first last }
      if site.isSkipped then brought
      else
        (((matchedAt w o lattice st first last).foldl (buildLabel w site) brought).closeSpan closure
          site).beginSpan w first last (lattice.distanceTable.length first last) := by
  rfl

theorem table_advanced {st : ScoreState V S} (hst : ∀ tr ∈ st.tracks, tr.table ∈ g)
    (first last : Nat) : ∀ tr ∈ advanced w o lattice st first last, tr.table ∈ g :=
  Track.table_mem_map (fun tr => tr.table_advance _ _ _) hst

theorem table_fillSpan {st : ScoreState V S} (hst : ∀ tr ∈ st.tracks, tr.table ∈ g)
    (s : Nat × Nat) :
    ∀ tr ∈ (fillSpan w o closure lattice lattice.distanceTable pruner st s).tracks,
      tr.table ∈ g := by
  obtain ⟨first, last⟩ := s
  have hadvanced : ∀ tr ∈ advanced w o lattice st first last, tr.table ∈ g :=
    table_advanced hst first last
  rw [fillSpan_eq]
  simp only
  split
  · exact hadvanced
  · refine Track.table_mem_map (fun tr => tr.table_beginWith _ _ _ _) ?_
    change ∀ tr ∈ (closeSpan _ _ _).tracks, tr.table ∈ g
    rw [tracks_closeSpan, tracks_foldl (tracks_buildLabel _)]
    exact hadvanced

theorem fillSpan_yielding (hg : g.OneLabel) (b b' : Bool) {st : ScoreState V S}
    (hst : ∀ tr ∈ st.tracks, tr.table ∈ g) (s : Nat × Nat) :
    fillSpan w (o.yielding b) closure lattice lattice.distanceTable pruner st s =
      fillSpan w (o.yielding b') closure lattice lattice.distanceTable pruner st s := by
  obtain ⟨first, last⟩ := s
  let site : Site V := ⟨o, pruner, first, last⟩
  let brought : ScoreState V S := { st with tracks := advanced w o lattice st first last }
  let matched := matchedAt w o lattice st first last
  have hbuilt : matched.foldl (buildLabel w (site.yielding b)) brought =
      matched.foldl (buildLabel w (site.yielding b')) brought :=
    List.foldl_ext _ _ _ fun st' _ hm => buildLabel_yielding hg b b' site
      (Track.mem_pairs_of_completed (table_advanced hst first last) hm) st'
  rw [fillSpan_eq, fillSpan_eq]
  cases hskip : pruner.skipsSpan first last with
  | true =>
    simp only [Site.isSkipped, hskip, if_true]
    rfl
  | false =>
    simp only [Site.isSkipped, hskip, Bool.false_eq_true, if_false]
    exact congrArg (fun st => (closeSpan closure site st).beginSpan w first last
      (lattice.distanceTable.length first last)) hbuilt

theorem runInside_yielding (hg : g.OneLabel) (b b' : Bool) :
    runInside g w (o.yielding b) closure lattice pruner =
      runInside g w (o.yielding b') closure lattice pruner := by
  have hstart : ∀ tr ∈ (start g w (o.yielding b) lattice.size).tracks, tr.table ∈ g := by
    intro tr htr
    obtain ⟨t, ht, rfl⟩ := List.mem_map.mp htr
    exact ht
  -- The states are the same as long as the tables are those of the grammar.
  refine (List.foldl_rel (r := fun st st' : ScoreState V S =>
    st = st' ∧ ∀ tr ∈ st.tracks, tr.table ∈ g) ⟨rfl, hstart⟩ ?_).1
  intro s _ st st' hsame
  obtain ⟨rfl, hst⟩ := hsame
  exact ⟨fillSpan_yielding hg b b' hst s, table_fillSpan hst s⟩

end ScoreState

def ForestParser.yielding (p : ForestParser V) (yieldSource : Bool) : ForestParser V :=
  { p with options := p.options.yielding yieldSource }

def ScoreParser.yielding (q : ScoreParser V S) (yieldSource : Bool) : ScoreParser V S :=
  { q with options := q.options.yielding yieldSource }

theorem ScoreParser.parseIn_yielding (q : ScoreParser V S) (hg : q.grammar.OneLabel) (b b' : Bool)
    (order : ClosureOrder) (lattice : Lattice V) (pruner : Pruner) :
    ((q.yielding b).parseIn order lattice pruner).2 =
        ((q.yielding b').parseIn order lattice pruner).2 ∧
      ((q.yielding b).parseIn order lattice pruner).1.state =
        ((q.yielding b').parseIn order lattice pruner).1.state := by
  have hscored : ScoreState.scored order (q.yielding b).grammar (q.yielding b).weighting
      (q.yielding b).options lattice pruner =
      ScoreState.scored order (q.yielding b').grammar (q.yielding b').weighting
        (q.yielding b').options lattice pruner := by
    change ScoreState.runInside q.grammar q.weighting (q.options.yielding b)
      (unaryClosureIn order q.grammar q.weighting (q.options.yielding b)) lattice pruner = _
    rw [unaryClosureIn_yielding hg b b', ScoreState.runInside_yielding hg b b']
    rfl
  have hgoal : (q.yielding b).options.goal = (q.yielding b').options.goal := rfl
  cases hempty : lattice.isEmpty with
  | true =>
    rw [parseIn_of_empty _ hempty, parseIn_of_empty _ hempty]
    exact ⟨rfl, rfl⟩
  | false =>
    rw [parseIn_eq_of _ hempty, parseIn_eq_of _ hempty, hscored, hgoal]
    split_ifs <;> exact ⟨rfl, rfl⟩

variable [Scalar V] [NumberText V]

/-- The option for the side of rule pairs changes rules only. When both parses read one lattice, the
two forests are equal but for the rules of the edges below the goal, and these are the two sides of
one rule pair of the grammar. The scoring parser finds the same result and the same charts. -/
theorem parse_yielding (p : ForestParser V) (q : ScoreParser V S) (hp : p.grammar.IsLimitedText)
    (hq : q.grammar.IsLimitedText) (order : ClosureOrder) (lattice : Lattice V) (pruner : Pruner) :
    let source := ((p.yielding true).parse lattice pruner).2
    let target := ((p.yielding false).parse lattice pruner).2
    source.RulesApart (Sides p.grammar.pairs source.goal) target ∧
      ((q.yielding true).parseIn order lattice pruner).2 =
          ((q.yielding false).parseIn order lattice pruner).2 ∧
        ((q.yielding true).parseIn order lattice pruner).1.state =
          ((q.yielding false).parseIn order lattice pruner).1.state := by
  intro source target
  refine ⟨?_, q.parseIn_yielding hq.oneLabel true false order lattice pruner⟩
  have hsource : source = forest p.grammar (p.options.yielding true) lattice pruner :=
    ForestParser.parse_eq_forest _ _ _
  have htarget : target = forest p.grammar (p.options.yielding false) lattice pruner :=
    ForestParser.parse_eq_forest _ _ _
  rw [hsource, htarget]
  exact apart_forest p.options lattice pruner hp.oneLabel

/-- The target sides put the words elsewhere, and one of them has no word at all. -/
theorem parse_yielding_of_reordered :
    let g : Grammar Float :=
      [RuleTable.ofText "[S] ||| a [S,1] ||| [S,1] b c\n[S] ||| a ||| <epsilon>"]
    let p := ForestParser.new g Options.standard
    let q := ScoreParser.new g (fun _ => 1 / 2 : Weighting Float ℚ≥0) Options.standard
    let lattice := Lattice.ofWords [⟨"a"⟩, ⟨"a"⟩]
    let source := ((p.yielding true).parse lattice .none).2
    let target := ((p.yielding false).parse lattice .none).2
    (p.grammar.IsLimitedText ∧ q.grammar.IsLimitedText) ∧
      (ForestState.goalCells p.grammar (p.options.yielding true) lattice .none ≠ [] ∧
        ∀ pair ∈ g.pairs, pair.source ≠ pair.target) ∧
      source.RulesApart (Sides p.grammar.pairs source.goal) target ∧
        ((q.yielding true).parseIn .arrival lattice .none).2 =
            ((q.yielding false).parseIn .arrival lattice .none).2 ∧
          ((q.yielding true).parseIn .arrival lattice .none).1.state =
            ((q.yielding false).parseIn .arrival lattice .none).1.state := by
  intro g p q lattice source target
  have htext : g.IsLimitedText := by
    intro t ht
    obtain ⟨text, u, kind, hread, heq⟩ := Grammar.isText_ofText (V := Float) _ t ht
    exact ⟨text, u, kind, u.maxSpan, hread, heq⟩
  have hparsed : ForestState.goalCells p.grammar (p.options.yielding true) lattice .none ≠ [] := by
    decide +kernel
  have hsides : ∀ pair ∈ g.pairs, pair.source ≠ pair.target := by decide +kernel
  exact ⟨⟨htext, htext⟩, ⟨hparsed, hsides⟩, parse_yielding p q htext htext .arrival lattice .none⟩

end ParseForest
