import ParseForest.Proofs.Agreement
import ParseForest.Proofs.Forest.Chains
import ParseForest.Proofs.Posterior.Estimate

/-!
# Skipped labels in chains

The closure of a label is the same at every span, so a pruner is not asked about the labels that it
leads through. The scoring parser builds the labels that have a derivation without a skipped label,
but for those between two unary rules; the label at the bottom of a chain comes from a match and
the one at its top goes into the final tier, and both of them are asked for. Where no unary rule
leads on from a skipped label the exception is none.
-/

namespace ParseForest

variable {V S : Type} [Score S]

/-- The derivations that the scoring parser makes: a match asks for its label and for those of its
parts, a unary rule for none. -/
inductive Derivation.Chained (g : Grammar V) (o : Options V) (lattice : Lattice V)
    (pruner : Pruner) : Derivation → Prop
  | node {place : SpanLabel} {rule : RuleName} {parts : Trail Derivation} {pair : RulePair V}
    (span : place.first < place.last ∧ place.last ≤ lattice.size)
    (spanLeft : pruner.skipsSpan place.first place.last = false)
    (labelsLeft : ¬parts.Begins (place.first, place.last) place.first place.last →
      pruner.skipsLabel place.first place.last place.label = false ∧ ∀ d ∈ parts.entries,
        pruner.skipsLabel d.place.first d.place.last d.place.label = false)
    (named : g.pair? rule = some pair)
    (label : (pair.side o.yieldSource).lhs = place.label)
    (fits : Application.Fits (fun d => (Derivation.place d).label) g o lattice
      (Trail.placedAt Derivation.place) place.first place.last ⟨rule, parts⟩)
    (below : ∀ d ∈ parts.entries, Chained g o lattice pruner d) :
    Chained g o lattice pruner (.node place rule parts)

def Derivation.labelsOf (kind : Derivation → Prop) (first last : Nat) : Set Symbol :=
  {l | ∃ d, kind d ∧ d.place = ⟨first, last, l⟩}

section Chains

variable {order : ClosureOrder} {g : Grammar V} {w : Weighting V S} {o : Options V}
  {lattice : Lattice V} {pruner : Pruner}

open ScoreState

omit [Score S] in
theorem Derivation.Made.chained {d : Derivation} (h : d.Made g o lattice pruner) :
    d.Chained g o lattice pruner := by
  induction h with
  | @node place rule parts pair span spanLeft labelLeft named label fits below ih =>
    exact .node span spanLeft (fun _ => ⟨labelLeft, fun d hd => (below d hd).labelLeft⟩) named
      label fits ih

omit [Score S] in
theorem Derivation.Chained.made
    (hunary : ∀ t ∈ g, ∀ first last label, t.unaryRules label ≠ [] →
      pruner.skipsLabel first last label = false)
    {d : Derivation} (h : d.Chained g o lattice pruner)
    (hleft : pruner.skipsLabel d.place.first d.place.last d.place.label = false) :
    d.Made g o lattice pruner := by
  induction h with
  | @node place rule parts pair span spanLeft labelsLeft named label fits below ih =>
    refine .node span spanLeft hleft named label fits fun d hd => ih d hd ?_
    by_cases hbegins : parts.Begins (place.first, place.last) place.first place.last
    · obtain ⟨e, rfl, -, -, hrule⟩ := fits.exists_below hbegins named
      obtain ⟨t, ht, hrule⟩ := List.mem_flatMap.mp hrule
      rw [List.mem_singleton.mp hd]
      exact hunary t ht _ _ _ (List.ne_nil_of_mem hrule)
    · exact (labelsLeft hbegins).2 d hd

variable (order w) in
theorem Derivation.Chained.exists_path {d : Derivation} (h : d.Chained g o lattice pruner) :
    ∃ b n x, BuiltAt g o lattice pruner (listed (finals order g w o lattice pruner)) d.place.first
      d.place.last b ∧ UnaryPath g w o b n d.place.label x := by
  induction h with
  | @node place rule parts pair span spanLeft labelsLeft named label fits below ih =>
    by_cases hbegins : parts.Begins (place.first, place.last) place.first place.last
    · obtain ⟨e, rfl, hfirst, hlast, hrule⟩ := fits.exists_below hbegins named
      obtain ⟨b, n, x, hb, hpath⟩ := ih e List.mem_cons_self
      rw [hfirst, hlast] at hb
      have hstep := hpath.step hrule
      rw [label] at hstep
      exact ⟨b, n + 1, _, hb, hstep⟩
    · obtain ⟨labelLeft, partsLeft⟩ := labelsLeft hbegins
      have hparts : ∀ d ∈ parts.entries, ((scored order g w o lattice pruner).final.get
        d.place.first
          d.place.last).has d.place.label = true := by
        intro d hd
        have hbelow := below d hd
        cases hbelow with
        | node span' spanLeft' =>
          exact (has_final_iff order g w o span' spanLeft' _).mpr ⟨partsLeft _ hd, ih _ hd⟩
      refine ⟨place.label, 0, Score.one, ⟨labelLeft, ⟨rule, parts.map Derivation.place⟩, pair,
        Estimates.fits_places fits hparts, ?_, named, label⟩, .start⟩
      rw [Trail.begins_map]
      exact hbegins

theorem UnaryPath.exists_chained (hfree : ∀ t ∈ g, t.maxSpan = none) {first last : Nat}
    (hspan : first < last ∧ last ≤ lattice.size) (hleft : pruner.skipsSpan first last = false)
    {b label : Symbol} {n : Nat} {x : S} (h : UnaryPath g w o b n label x)
    (hb : b ∈ Derivation.labelsOf (Derivation.Chained g o lattice pruner) first last) :
    label ∈ Derivation.labelsOf (Derivation.Chained g o lattice pruner) first last := by
  induction h with
  | start => exact hb
  | @step n mid x pair _ rule ih =>
    obtain ⟨d, hd, hplace⟩ := ih
    obtain ⟨t, ht, rule⟩ := List.mem_flatMap.mp rule
    have hcov : t.covers (lattice.distanceTable.length first last) = true := by
      rw [RuleTable.covers, hfree t ht]
      rfl
    have hmem : d ∈ Trail.placedAt Derivation.place first last :=
      ⟨congrArg SpanLabel.first hplace, congrArg SpanLabel.last hplace⟩
    have hlabel : d.place.label = mid := congrArg SpanLabel.label hplace
    rw [← hlabel] at rule
    obtain ⟨r, named, fits⟩ : ∃ r, g.pair? r = some pair ∧
        Application.Fits (fun d => (Derivation.place d).label) g o lattice
          (Trail.placedAt Derivation.place) first last ⟨r, .entry .start first d⟩ :=
      Application.exists_fits_of_unary hspan ht hcov hmem rule
    refine ⟨.node ⟨first, last, (pair.side o.yieldSource).lhs⟩ r (.entry .start first d),
      .node hspan hleft (fun hbegins => absurd ⟨rfl, rfl, rfl⟩ hbegins) named rfl fits ?_, rfl⟩
    intro e he
    rw [List.mem_singleton.mp he]
    exact hd

theorem ScoreState.BuiltAt.exists_chained {first last : Nat}
    (hspan : first < last ∧ last ≤ lattice.size) (hleft : pruner.skipsSpan first last = false)
    {label : Symbol}
    (h : BuiltAt g o lattice pruner (listed (finals order g w o lattice pruner)) first last label)
    (hbelow : ∀ i j l, j - i < last - first →
      ((scored order g w o lattice pruner).final.get i j).has l = true →
        pruner.skipsLabel i j l = false ∧
          l ∈ Derivation.labelsOf (Derivation.Chained g o lattice pruner) i j) :
    label ∈ Derivation.labelsOf (Derivation.Chained g o lattice pruner) first last := by
  obtain ⟨labelLeft, ⟨rule, parts⟩, pair, fits, hbegins, named, rfl⟩ := h
  obtain ⟨t, ht, hover, hstate⟩ := fits
  obtain ⟨parts', hparts⟩ := Trail.Along.exists_of_placed
    (fun p q l (d : Derivation) => d.Chained g o lattice pruner ∧ d.place = l ∧ l.first = p ∧
      l.last = q ∧ pruner.skipsLabel p q l.label = false) last parts fun p q l hl => by
    have hlt := hover.placed_inside hbegins hl
    obtain ⟨rfl, rfl, hhas⟩ := mem_finals.mp (hover.mem_placed hl).2.2.2
    obtain ⟨hskip, d, hd, hplace⟩ := hbelow _ _ _ hlt hhas
    exact ⟨d, hd, hplace, rfl, rfl, hskip⟩
  have hplaced : ∀ d ∈ parts'.entries, d.Chained g o lattice pruner ∧
      pruner.skipsLabel d.place.first d.place.last d.place.label = false := by
    intro d hd
    obtain ⟨p, q, hplaced⟩ := Trail.exists_placed hd last
    obtain ⟨l, -, hchained, rfl, rfl, rfl, hskip⟩ := hparts.of_mem_placed hplaced
    exact ⟨hchained, hskip⟩
  refine ⟨.node ⟨first, last, (pair.side o.yieldSource).lhs⟩ rule parts', .node hspan hleft
    (fun _ => ⟨labelLeft, fun d hd => (hplaced d hd).2⟩) named rfl ?_
    (fun d hd => (hplaced d hd).1), rfl⟩
  refine Application.fits_along (fun p q l d hld => ?_) (fun p q l d _ hld => ?_) hparts
    ⟨t, ht, hover, hstate⟩
  · rw [hld.2.1]
  · obtain ⟨-, rfl, rfl, rfl, -⟩ := hld
    exact ⟨rfl, rfl⟩

variable (w) in
/-- A label is in the final tier of a span when it is left and has a derivation there. -/
theorem ScoreState.has_final_iff_chained (hfree : ∀ t ∈ g, t.maxSpan = none) {i j : Nat}
    {label : Symbol} : ((scored order g w o lattice pruner).final.get i j).has label = true ↔
      pruner.skipsLabel i j label = false ∧
        label ∈ Derivation.labelsOf (Derivation.Chained g o lattice pruner) i j := by
  constructor
  · intro hhas
    -- by the length of the span: the parts of a match are over shorter ones
    induction hlength : j - i using Nat.strongRecOn generalizing i j label with
    | _ length ih =>
      obtain ⟨hspan, hleft⟩ := isLeft_of_has_final hhas
      obtain ⟨hskip, b, n, x, hb, hpath⟩ := (has_final_iff order g w o hspan hleft label).mp hhas
      exact ⟨hskip, hpath.exists_chained hfree hspan hleft (hb.exists_chained hspan hleft
        fun i j l hlt hhas => ih (j - i) (hlength ▸ hlt) hhas rfl)⟩
  · rintro ⟨hskip, d, hd, hplace⟩
    have hpath := hd.exists_path order w
    cases hd with
    | node span spanLeft =>
      cases hplace
      exact (has_final_iff order g w o span spanLeft label).mpr ⟨hskip, hpath⟩

end Chains

/-- The scoring parser builds no skipped label, and every label that has a derivation without one.
Beyond those it builds the labels whose derivations have skipped labels between two unary rules
only; where no unary rule leads on from a skipped label, there are none. -/
theorem ScoreParser.labelsAt_parse_eq (order : ClosureOrder) (g : Grammar V) (w : Weighting V S)
    (o : Options V) (lattice : Lattice V) (pruner : Pruner) (hfree : ∀ t ∈ g, t.maxSpan = none)
    (first last : Nat) :
    let labels := ((ScoreParser.new g w o).parseIn order lattice pruner).1.labelsAt first last
    let made := Derivation.labelsOf (Derivation.Made g o lattice pruner) first last
    let chained := Derivation.labelsOf (Derivation.Chained g o lattice pruner) first last
    made ⊆ labels ∧ labels = {l ∈ chained | pruner.skipsLabel first last l = false} ∧
      ((∀ t ∈ g, ∀ i j l, t.unaryRules l ≠ [] → pruner.skipsLabel i j l = false) →
        labels = made) := by
  intro labels made chained
  have hlabels : labels = {l ∈ chained | pruner.skipsLabel first last l = false} := by
    refine (ScoreParser.labelsAt_parseIn first last).trans (Set.ext fun l => ?_)
    exact (ScoreState.has_final_iff_chained w hfree).trans and_comm
  have hmade : made ⊆ labels := by
    rintro l ⟨d, hd, hplace⟩
    rw [hlabels]
    have hleft := hd.labelLeft
    rw [hplace] at hleft
    exact ⟨⟨d, hd.chained, hplace⟩, hleft⟩
  refine ⟨hmade, hlabels, fun hunary => Set.Subset.antisymm ?_ hmade⟩
  intro l hl
  rw [hlabels] at hl
  obtain ⟨⟨d, hd, hplace⟩, hleft⟩ := hl
  exact ⟨d, hd.made hunary (by rw [hplace]; exact hleft), hplace⟩

/-- A skipped label that no unary rule leads on from. -/
theorem ScoreParser.labelsAt_parse_eq_of_top :
    let g := [RuleTable.ofText "[A] ||| a\n[S] ||| [A,1]\n[C] ||| [A,1]"]
    let w : Weighting Float ℚ≥0 := Weighting.uniform
    let lattice := Lattice.ofWords [⟨"a"⟩]
    let pruner := Pruner.ofLists [] [⟨"[C]"⟩]
    let result := (ScoreParser.new g w Options.standard).parseIn .arrival lattice pruner
    (∀ t ∈ g, t.maxSpan = none) ∧
      (∀ t ∈ g, ∀ i j l, t.unaryRules l ≠ [] → pruner.skipsLabel i j l = false) ∧
      result.1.labelsAt 0 1 =
        Derivation.labelsOf (Derivation.Made g Options.standard lattice pruner) 0 1 ∧
      ⟨"[S]"⟩ ∈ result.1.labelsAt 0 1 ∧ ⟨"[C]"⟩ ∉ result.1.labelsAt 0 1 := by
  intro g w lattice pruner result
  have hfree : ∀ t ∈ g, t.maxSpan = none := by
    intro t ht
    rw [List.mem_singleton.mp ht]
    decide +kernel
  have hunary : ∀ t ∈ g, ∀ i j l, t.unaryRules l ≠ [] → pruner.skipsLabel i j l = false := by
    intro t ht i j l hrules
    have hl : l ≠ ⟨"[C]"⟩ := by
      rintro rfl
      refine hrules ?_
      rw [List.mem_singleton.mp ht]
      decide +kernel
    change [Symbol.mk "[C]"].contains l = false
    simpa using hl
  obtain ⟨-, -, hlabels⟩ :=
    ScoreParser.labelsAt_parse_eq .arrival g w Options.standard lattice pruner hfree 0 1
  have hgoal : (result.1.state.final.get 0 1).has ⟨"[S]"⟩ = true := by decide +kernel
  have hskipped : (result.1.state.final.get 0 1).has ⟨"[C]"⟩ = false := by decide +kernel
  exact ⟨hfree, hunary, hlabels hunary, hgoal, Bool.eq_false_iff.mp hskipped⟩

/-- A chain that leads through a skipped label. -/
theorem ScoreParser.labelsAt_parse_ne_made :
    let g := [RuleTable.ofText "[A] ||| a\n[B] ||| [A,1]\n[S] ||| [B,1]"]
    let w : Weighting Float ℚ≥0 := Weighting.uniform
    let lattice := Lattice.ofWords [⟨"a"⟩]
    let pruner := Pruner.ofLists [] [⟨"[B]"⟩]
    let result := (ScoreParser.new g w Options.standard).parse lattice pruner
    (∀ t ∈ g, t.maxSpan = none) ∧ (∀ f, w f ≠ 0) ∧ result.2.parsed = true ∧
      result.1.labelsAt 0 1 ≠
        Derivation.labelsOf (Derivation.Made g Options.standard lattice pruner) 0 1 := by
  intro g w lattice pruner result
  have hfree : ∀ t ∈ g, t.maxSpan = none := by
    intro t ht
    rw [List.mem_singleton.mp ht]
    decide +kernel
  have hparsed : result.2.parsed = true := by decide +kernel
  have htop : (result.1.state.final.get 0 1).has ⟨"[S]"⟩ = true := by decide +kernel
  refine ⟨hfree, fun _ => one_ne_zero, hparsed, fun heq => ?_⟩
  have hmade : ⟨"[S]"⟩ ∈ Derivation.labelsOf
      (Derivation.Made g Options.standard lattice pruner) 0 1 := heq ▸ htop
  obtain ⟨d, hd, hplace⟩ := hmade
  -- the forest parser asks at each rule of a chain, and has the label of every derivation
  obtain ⟨ledger, hran⟩ := ForestState.exists_ledger g Options.standard lattice pruner
  obtain ⟨c, hc, hlabel⟩ := hran.exists_of_made Nat.one_pos hd
  rw [hplace] at hc hlabel
  have hnone : ∀ c ∈ ForestState.cells g Options.standard lattice pruner 0 1,
      c.label ≠ ⟨"[S]"⟩ := by decide +kernel
  exact hnone c hc hlabel

end ParseForest
