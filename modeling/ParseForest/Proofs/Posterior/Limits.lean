import ParseForest.Proofs.Agreement
import ParseForest.Proofs.Posterior.ClosureLoop

/-!
# Limits of spans and closures

A closure is a thing of its label: it is made once for all spans, of the unary rules of all tables.
So a chain of unary rules may use a rule of a table that does not cover the span at which the
closure is applied. `Oversteps` says when a chain does; the labels that such chains bring into the
unary tiers are told by the labels that are built. Where none of these has such a chain, the
closures are those of the tables that cover the span.
-/

namespace ParseForest

variable {V S : Type} [Score S]

/-- A chain of unary rules from one label to another that uses a rule of a table that does not
cover spans of a distance. -/
def Oversteps (g : Grammar V) (w : Weighting V S) (o : Options V) (distance : Nat)
    (child label : Symbol) : Prop :=
  ∃ t ∈ g, t.covers distance = false ∧ ∃ before ∈ unaryReach g w o child,
    ∃ pair ∈ t.unaryRules before, label ∈ unaryReach g w o (pair.side o.yieldSource).lhs

section Chains

variable {order : ClosureOrder} {g : Grammar V} {w : Weighting V S} {o : Options V}
  {distance : Nat} {a b child label : Symbol}

theorem unaryReach_trans (h : b ∈ unaryReach g w o a) (hlabel : label ∈ unaryReach g w o b) :
    label ∈ unaryReach g w o a := by
  obtain ⟨m, x, hpath⟩ := h
  obtain ⟨n, y, hrest⟩ := hlabel
  obtain ⟨z, hwhole⟩ := hpath.trans hrest
  exact ⟨m + n, z, hwhole⟩

theorem Oversteps.of_reach (h : Oversteps g w o distance b label)
    (hreach : b ∈ unaryReach g w o a) : Oversteps g w o distance a label := by
  obtain ⟨t, ht, hcovers, before, hbefore, hrule⟩ := h
  exact ⟨t, ht, hcovers, before, unaryReach_trans hreach hbefore, hrule⟩

theorem Oversteps.mem_unaryReach (h : Oversteps g w o distance child label) :
    label ∈ unaryReach g w o child := by
  obtain ⟨t, ht, -, before, ⟨n, x, hpath⟩, pair, hpair, hlabel⟩ := h
  exact unaryReach_trans ⟨n + 1, _, hpath.step (Grammar.mem_unaryRules ht hpair)⟩ hlabel

omit [Score S] in
theorem Grammar.unaryRules_filter {p : RuleTable V → Bool} {label : Symbol}
    (h : ∀ t ∈ g, p t = false → t.unaryRules label = []) :
    Grammar.unaryRules (g.filter p) label = g.unaryRules label := by
  unfold Grammar.unaryRules
  induction g with
  | nil => rfl
  | cons t g ih =>
    have ih := ih fun u hu => h u (List.mem_cons_of_mem t hu)
    cases hp : p t with
    | true => rw [List.filter_cons_of_pos hp, List.flatMap_cons, List.flatMap_cons, ih]
    | false =>
      rw [List.filter_cons_of_neg (by simp [hp]), List.flatMap_cons, h t List.mem_cons_self hp,
        List.nil_append, ih]

theorem unaryClosureIn_filter_covers (h : ∀ l, ¬Oversteps g w o distance child l) :
    unaryClosureIn order (g.filter fun t => t.covers distance) w o child =
      unaryClosureIn order g w o child := by
  refine unaryClosureIn_congr fun before hbefore => Grammar.unaryRules_filter fun t ht hcovers => ?_
  refine List.eq_nil_iff_forall_not_mem.mpr fun pair hpair => ?_
  exact h _ ⟨t, ht, hcovers, before, hbefore, pair, hpair, 0, Score.one, .start⟩

end Chains

namespace ScoreState

variable {order : ClosureOrder} {g : Grammar V} {w : Weighting V S} {o : Options V}
  {lattice : Lattice V} {pruner : Pruner} {first last : Nat} {distance : Nat}

theorem exists_built_of_mem_unary {toFinal : Bool} {label : Symbol} {e : UnaryEdge S}
    (he : e ∈ (((scored order g w o lattice pruner).cell first last).unary toFinal).edges label) :
    LabelMap.get? (unaryClosureIn order g w o e.tail) label = some e.score ∧
      pruner.skipsLabel first last label = false ∧
        ∃ b, ((scored order g w o lattice pruner).built.get first last).has b = true ∧
          e.tail ∈ unaryReach g w o b := by
  have hcell : (scored order g w o lattice pruner).cell first last ≠ ScoreCell.blank := by
    intro hblank
    rw [hblank] at he
    cases toFinal <;> simp [ScoreCell.blank, ScoreCell.unary, EdgeMap.edges, LabelMap.get?] at he
  obtain ⟨hspan, hleft⟩ := isLeft_of_cell hcell
  obtain ⟨hget, hskip, htail⟩ := (mem_unary_iff order g w o hspan hleft toFinal label e).mp he
  refine ⟨hget, hskip, ?_⟩
  simp only [has_built_iff order g w o hspan hleft]
  cases toFinal with
  | false => exact ⟨e.tail, htail, 0, Score.one, .start⟩
  | true =>
    obtain ⟨-, b, n, x, hb, hpath⟩ := (has_final_iff order g w o hspan hleft e.tail).mp htail
    exact ⟨b, hb, n, x, hpath⟩

theorem mem_unary_of_has_built (toFinal : Bool) {b label : Symbol} {x : S}
    (hb : ((scored order g w o lattice pruner).built.get first last).has b = true)
    (hget : LabelMap.get? (unaryClosureIn order g w o b) label = some x)
    (hskip : pruner.skipsLabel first last label = false) :
    ⟨b, x⟩ ∈ (((scored order g w o lattice pruner).cell first last).unary toFinal).edges label := by
  have hcell : (scored order g w o lattice pruner).cell first last ≠ ScoreCell.blank := by
    intro hblank
    rw [show (scored order g w o lattice pruner).built.get first last = [] from
      congrArg ScoreCell.built hblank] at hb
    cases hb
  obtain ⟨hspan, hleft⟩ := isLeft_of_cell hcell
  have hbuilt := (has_built_iff order g w o hspan hleft b).mp hb
  rw [mem_unary_iff order g w o hspan hleft]
  refine ⟨hget, hskip, ?_⟩
  cases toFinal with
  | false => exact hbuilt
  | true =>
    -- what is built is in the second tier too, by the empty chain
    exact (has_final_iff order g w o hspan hleft b).mpr ⟨hbuilt.1, b, 0, Score.one, hbuilt, .start⟩

end ScoreState

open ScoreState

namespace ScoreParser

/-- The labels that overstepping chains bring into a unary tier of a span are those that such
chains lead to from what is built there, unless they are skipped. Where no built label has such a
chain, the tier holds closures of the tables that cover the span. -/
theorem oversteps_parse_iff (order : ClosureOrder) (g : Grammar V) (w : Weighting V S)
    (o : Options V) (lattice : Lattice V) (pruner : Pruner) (first last : Nat) (toFinal : Bool) :
    let st := ((ScoreParser.new g w o).parseIn order lattice pruner).1.state
    let tier := (st.cell first last).unary toFinal
    let built := st.built.get first last
    let distance := lattice.distanceTable.length first last
    (∀ label, (∃ e ∈ tier.edges label, Oversteps g w o distance e.tail label) ↔
      pruner.skipsLabel first last label = false ∧
        ∃ b, built.has b = true ∧ Oversteps g w o distance b label) ∧
    ((∀ b, built.has b = true → ∀ label, ¬Oversteps g w o distance b label) →
      ∀ label, ∀ e ∈ tier.edges label,
        LabelMap.get? (unaryClosureIn order (g.filter fun t => t.covers distance) w o e.tail)
          label = some e.score) := by
  intro st tier built distance
  have hcell : st.cell first last = (scored order g w o lattice pruner).cell first last :=
    cell_parseIn first last
  have htier : tier = ((scored order g w o lattice pruner).cell first last).unary toFinal :=
    congrArg (ScoreCell.unary · toFinal) hcell
  have hbuilt : built = (scored order g w o lattice pruner).built.get first last :=
    congrArg ScoreCell.built hcell
  rw [htier, hbuilt]
  refine ⟨fun label => ⟨?_, ?_⟩, fun hwithin label e he => ?_⟩
  · rintro ⟨e, he, hover⟩
    obtain ⟨-, hskip, b, hb, hreach⟩ := exists_built_of_mem_unary he
    exact ⟨hskip, b, hb, hover.of_reach hreach⟩
  · rintro ⟨hskip, b, hb, hover⟩
    obtain ⟨x, hx⟩ := Option.isSome_iff_exists.mp
      (isSome_unaryClosureIn_iff.mpr hover.mem_unaryReach)
    exact ⟨⟨b, x⟩, mem_unary_of_has_built toFinal hb hx hskip, hover⟩
  · obtain ⟨hget, -, b, hb, hreach⟩ := exists_built_of_mem_unary he
    rw [unaryClosureIn_filter_covers fun l hl => hwithin b hb l (hl.of_reach hreach), hget]

/-- Over two words only a rule for one of them would overstep. -/
theorem oversteps_parse_iff_of_one :
    let g := [RuleTable.ofText "[A] ||| a\n[B] ||| a b\n[S] ||| [B,1]",
      (RuleTable.ofText "[C] ||| [A,1]").withMaxSpan 1]
    let w : Weighting Float ℚ≥0 := Weighting.uniform
    let lattice := Lattice.ofWords [⟨"a"⟩, ⟨"b"⟩]
    let st := ((ScoreParser.new g w Options.standard).parseIn .arrival lattice .none).1.state
    let distance := lattice.distanceTable.length 0 2
    (∀ b, (st.built.get 0 2).has b = true →
      ∀ label, ¬Oversteps g w Options.standard distance b label) ∧
    (∃ t ∈ g, t.covers distance = false) ∧ ∃ e ∈ ((st.cell 0 2).unary true).edges ⟨"[S]"⟩,
      LabelMap.get? (unaryClosureIn .arrival (g.filter fun t => t.covers distance) w
        Options.standard e.tail) ⟨"[S]"⟩ = some e.score := by
  intro g w lattice st distance
  have hbuilt : LabelMap.keys (st.built.get 0 2) = [⟨"[B]"⟩] := by decide +kernel
  have hreach : LabelMap.keys (unaryClosureIn .arrival g w Options.standard ⟨"[B]"⟩) =
      [⟨"[B]"⟩, ⟨"[S]"⟩] := by decide +kernel
  have hrules : ∀ t ∈ g, t.covers distance = false → ∀ label ∈ [Symbol.mk "[B]", ⟨"[S]"⟩],
      t.unaryRules label = [] := by decide +kernel
  have hlimited : ∃ t ∈ g, t.covers distance = false := by decide +kernel
  have hedges : 0 < (((st.cell 0 2).unary true).edges ⟨"[S]"⟩).size := by decide +kernel
  have hwithin : ∀ b, (st.built.get 0 2).has b = true →
      ∀ label, ¬Oversteps g w Options.standard distance b label := by
    rintro b hb label ⟨t, ht, hcovers, before, hbefore, pair, hpair, -⟩
    rw [EdgeMap.has, ← LabelMap.mem_keys_iff, hbuilt, List.mem_singleton] at hb
    rw [hb] at hbefore
    have hmem : before ∈ LabelMap.keys (unaryClosureIn .arrival g w Options.standard ⟨"[B]"⟩) :=
      LabelMap.mem_keys_iff.mpr (isSome_unaryClosureIn_iff.mpr hbefore)
    rw [hreach] at hmem
    rw [hrules t ht hcovers before hmem] at hpair
    cases hpair
  obtain ⟨-, hcovering⟩ := oversteps_parse_iff .arrival g w Options.standard lattice .none 0 2 true
  have hmem := Array.getElem_mem hedges
  exact ⟨hwithin, hlimited, _, hmem, hcovering hwithin ⟨"[S]"⟩ _ hmem⟩

/-- A chain that uses a rule of a table that does not cover the span: of the tables that cover it,
no chain leads from what is built to the goal. -/
theorem exists_oversteps_parse :
    let g := [RuleTable.ofText "[A] ||| a b", (RuleTable.ofText "[S] ||| [A,1]").withMaxSpan 1]
    let w : Weighting Float ℚ≥0 := Weighting.uniform
    let lattice := Lattice.ofWords [⟨"a"⟩, ⟨"b"⟩]
    let result := (ScoreParser.new g w Options.standard).parse lattice .none
    let covering := g.filter fun t => t.covers (lattice.distanceTable.length 0 2)
    result.2.parsed = true ∧ ¬∀ label, (result.1.state.closed.get 0 2).has label = true →
      ∃ b, (result.1.state.built.get 0 2).has b = true ∧
        label ∈ unaryReach covering w Options.standard b := by
  intro g w lattice result covering
  have hparsed : result.2.parsed = true := by decide +kernel
  have hclosed : (result.1.state.closed.get 0 2).has ⟨"[S]"⟩ = true := by decide +kernel
  have hbuilt : LabelMap.keys (result.1.state.built.get 0 2) = [⟨"[A]"⟩] := by decide +kernel
  have hnone : LabelMap.get? (unaryClosureIn .arrival covering w Options.standard ⟨"[A]"⟩)
      ⟨"[S]"⟩ = none := by decide +kernel
  refine ⟨hparsed, fun hall => ?_⟩
  obtain ⟨b, hb, hreach⟩ := hall _ hclosed
  have hlabel : b = ⟨"[A]"⟩ := by
    rw [EdgeMap.has, ← LabelMap.mem_keys_iff, hbuilt] at hb
    exact List.mem_singleton.mp hb
  rw [hlabel] at hreach
  have hsome : (LabelMap.get? (unaryClosureIn .arrival covering w Options.standard ⟨"[A]"⟩)
      ⟨"[S]"⟩).isSome = true := isSome_unaryClosureIn_iff.mpr hreach
  rw [hnone] at hsome
  cases hsome

end ScoreParser

end ParseForest
