import ParseForest.Proofs.Posterior.Run

/-!
# The tiers

The labels of the first tier are those that applications build, and those of the final tier are
the ones that paths of unary rules lead to from there: a path from the first tier to the final one
can always make its stop in the second tier at its start. So the second tier and the final one
have the same labels. The edges of the first tier are those of the applications, and the edges of
the other tiers are the scores of closures.
-/

namespace ParseForest

variable {V S : Type} [Score S]

theorem UnaryPath.trans {g : Grammar V} {w : Weighting V S} {o : Options V} {a b c : Symbol}
    {m n : Nat} {x y : S} (h : UnaryPath g w o a m b x) (k : UnaryPath g w o b n c y) :
    ∃ z, UnaryPath g w o a (m + n) c z := by
  induction k with
  | start => exact ⟨x, h⟩
  | step _ rule ih =>
    obtain ⟨z, hz⟩ := ih
    exact ⟨_, hz.step rule⟩

namespace ScoreState

def BuiltAt (g : Grammar V) (o : Options V) (lattice : Lattice V) (pruner : Pruner)
    (entries : (first last : Nat) → Set SpanLabel) (first last : Nat) (label : Symbol) : Prop :=
  pruner.skipsLabel first last label = false ∧
    ∃ (a : Application SpanLabel) (pair : RulePair V),
      a.Fits SpanLabel.label g o lattice entries first last ∧
      ¬a.parts.Begins (first, last) first last ∧ g.pair? a.rule = some pair ∧
      (pair.side o.yieldSource).lhs = label

variable {order : ClosureOrder} {g : Grammar V} {w : Weighting V S} {o : Options V}
  {lattice : Lattice V} {pruner : Pruner} {first last : Nat}

theorem Builds.exists_build_iff {entries : (first last : Nat) → Set SpanLabel}
    {insideOf : SpanLabel → S} {builds : List (ScoreStep S)}
    (h : Builds g w lattice ⟨o, pruner, first, last⟩ entries insideOf builds) {label : Symbol} :
    (∃ e x, .build label e x ∈ builds) ↔
      BuiltAt g o lattice pruner entries first last label := by
  constructor
  · rintro ⟨e, x, hs⟩
    obtain ⟨a, pair, hfits, hbegins, hpair, hskip, heq⟩ := (h _).mp hs
    cases heq
    exact ⟨hskip, a, pair, hfits, hbegins, hpair, rfl⟩
  · rintro ⟨hskip, a, pair, hfits, hbegins, hpair, rfl⟩
    exact ⟨_, _, (h _).mpr ⟨a, pair, hfits, hbegins, hpair, hskip, rfl⟩⟩

section Steps

variable {entries : (first last : Nat) → Set SpanLabel} {insideOf : SpanLabel → S}
  {builds closes ends : List (ScoreStep S)}
  (hbuilds : Builds g w lattice ⟨o, pruner, first, last⟩ entries insideOf builds)
  (hcloses : Closes (unaryClosureIn order g w o) ⟨o, pruner, first, last⟩ builds closes ends)

include hcloses in
theorem mem_steps_build {label : Symbol} {e : ScoredEdge S} {x : S} :
    .build label e x ∈ builds ++ (closes ++ ends) ↔ .build label e x ∈ builds := by
  obtain ⟨⟨_, -, hclosed⟩, _, -, hfinal⟩ := hcloses
  rw [List.mem_append, List.mem_append]
  refine or_iff_left ?_
  rintro (hs | hs)
  · obtain ⟨_, -, _, -, _, _, -, -, heq⟩ := hclosed.of_mem hs
    cases heq
  · obtain ⟨_, -, _, -, _, _, -, -, heq⟩ := hfinal.of_mem hs
    cases heq

include hbuilds hcloses

theorem mem_steps_reach {toFinal : Bool} {label : Symbol} {e : UnaryEdge S} {x : S} :
    .reach toFinal label e x ∈ builds ++ (closes ++ ends) ↔
      .reach toFinal label e x ∈ if toFinal then ends else closes := by
  obtain ⟨⟨_, -, hclosed⟩, _, -, hfinal⟩ := hcloses
  have hbuild : .reach toFinal label e x ∉ builds := by
    intro hs
    obtain ⟨_, _, -, -, -, -, heq⟩ := (hbuilds _).mp hs
    cases heq
  rw [List.mem_append, or_iff_right hbuild, List.mem_append]
  cases toFinal with
  | false =>
    refine or_iff_left fun hs => ?_
    obtain ⟨_, -, _, -, _, _, -, -, heq⟩ := hfinal.of_mem hs
    cases heq
  | true =>
    refine or_iff_right fun hs => ?_
    obtain ⟨_, -, _, -, _, _, -, -, heq⟩ := hclosed.of_mem hs
    cases heq

theorem exists_closed_iff (label : Symbol) : (∃ e x, .reach false label e x ∈ closes) ↔
    pruner.skipsLabel first last label = false ∧ ∃ b n x,
      BuiltAt g o lattice pruner entries first last b ∧ UnaryPath g w o b n label x := by
  obtain ⟨⟨children, hchildren, hclosed⟩, -⟩ := hcloses
  rw [hclosed.exists_reach_iff]
  refine and_congr_right fun _ => ⟨?_, ?_⟩
  · rintro ⟨b, hb, hsome⟩
    obtain ⟨n, x, hpath⟩ := isSome_unaryClosureIn_iff.mp hsome
    exact ⟨b, n, x, hbuilds.exists_build_iff.mp ((hchildren b).mp hb), hpath⟩
  · rintro ⟨b, n, x, hb, hpath⟩
    exact ⟨b, (hchildren b).mpr (hbuilds.exists_build_iff.mpr hb),
      isSome_unaryClosureIn_iff.mpr ⟨n, x, hpath⟩⟩

theorem exists_ends_iff {label : Symbol} : (∃ e x, .reach true label e x ∈ ends) ↔
    pruner.skipsLabel first last label = false ∧ ∃ b n x,
      BuiltAt g o lattice pruner entries first last b ∧ UnaryPath g w o b n label x := by
  have hclosed := exists_closed_iff hbuilds hcloses
  obtain ⟨-, children, hchildren, hfinal⟩ := hcloses
  rw [hfinal.exists_reach_iff]
  refine and_congr_right fun _ => ⟨?_, ?_⟩
  · rintro ⟨m, hm, hsome⟩
    obtain ⟨n, x, hpath⟩ := isSome_unaryClosureIn_iff.mp hsome
    obtain ⟨-, b, n', x', hb, hpath'⟩ := (hclosed m).mp ((hchildren m).mp hm)
    obtain ⟨z, hz⟩ := hpath'.trans hpath
    exact ⟨b, _, z, hb, hz⟩
  · rintro ⟨b, n, x, hb, hpath⟩
    have hself := (hclosed b).mpr ⟨hb.1, b, 0, Score.one, hb, UnaryPath.start⟩
    exact ⟨b, (hchildren b).mpr hself, isSome_unaryClosureIn_iff.mpr ⟨n, x, hpath⟩⟩

end Steps

variable (order g w o) in
theorem exists_edges (hspan : first < last ∧ last ≤ lattice.size)
    (hleft : pruner.skipsSpan first last = false) :
    ∃ builds closes ends,
      (∀ label e, e ∈ ((scored order g w o lattice pruner).built.get first last).edges label ↔
        ∃ x, .build label e x ∈ builds) ∧
      (∀ toFinal label e,
        e ∈ (((scored order g w o lattice pruner).cell first last).unary toFinal).edges label ↔
          ∃ x, .reach toFinal label e x ∈ if toFinal then ends else closes) ∧
      (scored order g w o lattice pruner).cell first last =
        ScoreCell.after (builds ++ (closes ++ ends)) ∧
      Builds g w lattice ⟨o, pruner, first, last⟩ (listed (finals order g w o lattice pruner))
        (scored order g w o lattice pruner).insideOf builds ∧
      Closes (unaryClosureIn order g w o) ⟨o, pruner, first, last⟩ builds closes ends := by
  obtain ⟨builds, closes, ends, hcell, hbuilds, hcloses⟩ := exists_steps order g w o hspan hleft
  refine ⟨builds, closes, ends, fun label e => ?_, fun toFinal label e => ?_, hcell, hbuilds,
    hcloses⟩
  · have hget : (scored order g w o lattice pruner).built.get first last =
        (ScoreCell.after (builds ++ (closes ++ ends))).built := congrArg ScoreCell.built hcell
    rw [hget, ScoreCell.mem_built]
    exact exists_congr fun x => mem_steps_build hcloses
  · rw [hcell, ScoreCell.mem_unary]
    exact exists_congr fun x => mem_steps_reach hbuilds hcloses

variable (order g w o) in
theorem has_unary_iff (hspan : first < last ∧ last ≤ lattice.size)
    (hleft : pruner.skipsSpan first last = false) (toFinal : Bool) (label : Symbol) :
    (((scored order g w o lattice pruner).cell first last).unary toFinal).has label = true ↔
      pruner.skipsLabel first last label = false ∧ ∃ b n x,
        BuiltAt g o lattice pruner (listed (finals order g w o lattice pruner)) first last b ∧
        UnaryPath g w o b n label x := by
  obtain ⟨builds, closes, ends, -, -, hcell, hbuilds, hcloses⟩ :=
    exists_edges order g w o hspan hleft
  rw [hcell, ScoreCell.has_unary]
  simp only [mem_steps_reach hbuilds hcloses]
  cases toFinal with
  | false => exact exists_closed_iff hbuilds hcloses label
  | true => exact exists_ends_iff hbuilds hcloses

variable (order g w o) in
theorem has_final_iff (hspan : first < last ∧ last ≤ lattice.size)
    (hleft : pruner.skipsSpan first last = false) (label : Symbol) :
    ((scored order g w o lattice pruner).final.get first last).has label = true ↔
      pruner.skipsLabel first last label = false ∧ ∃ b n x,
        BuiltAt g o lattice pruner (listed (finals order g w o lattice pruner)) first last b ∧
        UnaryPath g w o b n label x :=
  has_unary_iff order g w o hspan hleft true label

variable (order g w o) in
theorem has_built_iff (hspan : first < last ∧ last ≤ lattice.size)
    (hleft : pruner.skipsSpan first last = false) (label : Symbol) :
    ((scored order g w o lattice pruner).built.get first last).has label = true ↔
      BuiltAt g o lattice pruner (listed (finals order g w o lattice pruner)) first last label := by
  obtain ⟨builds, closes, ends, -, -, hcell, hbuilds, hcloses⟩ :=
    exists_edges order g w o hspan hleft
  have hget : (scored order g w o lattice pruner).built.get first last =
      (ScoreCell.after (builds ++ (closes ++ ends))).built := congrArg ScoreCell.built hcell
  rw [hget, ScoreCell.has_built, ← hbuilds.exists_build_iff]
  exact exists_congr fun e => exists_congr fun x => mem_steps_build hcloses

variable (order g w o) in
/-- The edges of the second and of the final tier are the scores of closures: in the second tier of
what is built, in the final tier of the labels of the second. -/
theorem mem_unary_iff (hspan : first < last ∧ last ≤ lattice.size)
    (hleft : pruner.skipsSpan first last = false) (toFinal : Bool) (label : Symbol)
    (e : UnaryEdge S) :
    e ∈ (((scored order g w o lattice pruner).cell first last).unary toFinal).edges label ↔
      LabelMap.get? (unaryClosureIn order g w o e.tail) label = some e.score ∧
        pruner.skipsLabel first last label = false ∧
          if toFinal then ((scored order g w o lattice pruner).final.get first last).has e.tail = true
          else BuiltAt g o lattice pruner (listed (finals order g w o lattice pruner)) first last
            e.tail := by
  have hhas := has_final_iff order g w o hspan hleft e.tail
  obtain ⟨builds, closes, ends, -, hedges, -, hbuilds, hcloses⟩ :=
    exists_edges order g w o hspan hleft
  have hclosed := exists_closed_iff hbuilds hcloses e.tail
  obtain ⟨⟨children, hchildren, hclose⟩, children', hchildren', hend⟩ := hcloses
  rw [hedges]
  cases toFinal with
  | false =>
    rw [if_neg Bool.false_ne_true, if_neg Bool.false_ne_true, ← hbuilds.exists_build_iff,
      ← hchildren]
    constructor
    · rintro ⟨x, hs⟩
      obtain ⟨_, -, child, hchild, l, score, hget, hskip, heq⟩ := hclose.of_mem hs
      cases heq
      exact ⟨hget, hskip, hchild⟩
    · rintro ⟨hget, hskip, hchild⟩
      obtain ⟨_, -, hmem⟩ := hclose.exists_mem hchild
      exact ⟨_, hmem _ _ hget hskip⟩
  | true =>
    rw [if_pos rfl, if_pos rfl, hhas, ← hclosed, ← hchildren']
    constructor
    · rintro ⟨x, hs⟩
      obtain ⟨_, -, child, hchild, l, score, hget, hskip, heq⟩ := hend.of_mem hs
      cases heq
      exact ⟨hget, hskip, hchild⟩
    · rintro ⟨hget, hskip, hchild⟩
      obtain ⟨_, -, hmem⟩ := hend.exists_mem hchild
      exact ⟨_, hmem _ _ hget hskip⟩

variable (order g w o) in
theorem mem_built_iff (hspan : first < last ∧ last ≤ lattice.size)
    (hleft : pruner.skipsSpan first last = false) (label : Symbol) (e : ScoredEdge S) :
    e ∈ ((scored order g w o lattice pruner).built.get first last).edges label ↔
      pruner.skipsLabel first last label = false ∧
        ∃ (a : Application SpanLabel) (pair : RulePair V),
          a.Fits SpanLabel.label g o lattice (listed (finals order g w o lattice pruner)) first last ∧
          ¬a.parts.Begins (first, last) first last ∧ g.pair? a.rule = some pair ∧
          (pair.side o.yieldSource).lhs = label ∧ a.edge w lattice pair = e := by
  obtain ⟨builds, closes, ends, hedges, -, -, hbuilds, -⟩ := exists_edges order g w o hspan hleft
  rw [hedges]
  constructor
  · rintro ⟨x, hs⟩
    obtain ⟨a, pair, hfits, hbegins, hpair, hskip, heq⟩ := (hbuilds _).mp hs
    cases heq
    exact ⟨hskip, a, pair, hfits, hbegins, hpair, rfl, rfl⟩
  · rintro ⟨hskip, a, pair, hfits, hbegins, hpair, rfl, rfl⟩
    exact ⟨_, (hbuilds _).mpr ⟨a, pair, hfits, hbegins, hpair, hskip, rfl⟩⟩

theorem isSome_inside_iff {label : Symbol} :
    (LabelMap.get? ((scored order g w o lattice pruner).inside.get first last) label).isSome = true ↔
      ((scored order g w o lattice pruner).final.get first last).has label = true := by
  by_cases hblank : (scored order g w o lattice pruner).cell first last = ScoreCell.blank
  · have hinside : (scored order g w o lattice pruner).inside.get first last = [] :=
      congrArg ScoreCell.inside hblank
    have hfinal : (scored order g w o lattice pruner).final.get first last = [] :=
      congrArg ScoreCell.final hblank
    rw [hinside, hfinal]
    exact Iff.rfl
  · obtain ⟨hspan, hleft⟩ := isLeft_of_cell hblank
    have hiff := has_final_iff order g w o hspan hleft label
    obtain ⟨builds, closes, ends, hcell, hbuilds, ⟨children, hchildren, hcloses⟩, children',
      hchildren', hends⟩ := exists_steps order g w o hspan hleft
    have hinside : (scored order g w o lattice pruner).inside.get first last =
        (ScoreCell.after (builds ++ (closes ++ ends))).inside := congrArg ScoreCell.inside hcell
    have hfinal : (scored order g w o lattice pruner).final.get first last =
        (ScoreCell.after (builds ++ (closes ++ ends))).unary true :=
      congrArg ScoreCell.final hcell
    rw [hinside, ScoreCell.isSome_inside]
    constructor
    · rintro ⟨s, hs, rfl⟩
      rw [hiff]
      rcases List.mem_append.mp hs with hs | hs
      · obtain ⟨a, pair, hfits, hbegins, hpair, hskips, rfl⟩ := (hbuilds s).mp hs
        exact ⟨hskips, _, 0, Score.one, ⟨hskips, a, pair, hfits, hbegins, hpair, rfl⟩,
          UnaryPath.start⟩
      · rcases List.mem_append.mp hs with hs | hs
        · obtain ⟨before, -, b, hb, label, score, hget, hskips, rfl⟩ := hcloses.of_mem hs
          obtain ⟨n, x, hpath⟩ := isSome_unaryClosureIn_iff.mp (Option.isSome_of_eq_some hget)
          exact ⟨hskips, b, n, x, hbuilds.exists_build_iff.mp ((hchildren b).mp hb), hpath⟩
        · obtain ⟨before, -, child, -, label, score, -, -, rfl⟩ := hends.of_mem hs
          rw [← hiff, hfinal, ScoreCell.has_unary]
          exact ⟨_, _, List.mem_append_right _ (List.mem_append_right _ hs)⟩
    · intro hhas
      rw [hfinal, ScoreCell.has_unary] at hhas
      obtain ⟨e, x, hs⟩ := hhas
      exact ⟨_, hs, rfl⟩

end ScoreState

end ParseForest
