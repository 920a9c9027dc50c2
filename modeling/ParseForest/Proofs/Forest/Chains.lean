import ParseForest.Proofs.Context
import ParseForest.Proofs.Forest.Graph

/-!
# Chains of unary rules

A constituent stands for derivations, and every derivation has a constituent. The level of a
constituent is the length of a chain of unary rules that leads to its label. So when no chain is
longer than the closure of a span may stagnate, the closure ends only when nothing is left to apply
rules to, and the ledger lists every application over constituents once.
-/

namespace ParseForest

variable {V : Type}

/-- No chain of unary rules over a label that a rule derives has more than `n` of them. -/
def Grammar.ChainsWithin (g : Grammar V) (o : Options V) (n : Nat) : Prop :=
  ∀ child ∈ g.leftSides o, ∀ k label x,
    UnaryPath g (Weighting.uniform : Weighting V ℚ≥0) o child k label x → k ≤ n

theorem Grammar.chainsWithin_one {g : Grammar V} {o : Options V}
    (h : ∀ label ∈ g.leftSides o, ∀ pair ∈ g.unaryRules label,
      g.unaryRules (pair.side o.yieldSource).lhs = []) : g.ChainsWithin o 1 := by
  intro child hchild n label x hpath
  have hbound : label ∈ g.leftSides o ∧ n ≤ 1 ∧ (n = 1 → g.unaryRules label = []) := by
    induction hpath with
    | start => exact ⟨hchild, Nat.zero_le 1, fun hn => absurd hn Nat.zero_ne_one⟩
    | @step n label _ pair _ rule ih =>
      obtain ⟨hlabel, hle, hlast⟩ := ih
      have hn : n = 0 := by
        by_contra hne
        rw [hlast (by omega)] at rule
        cases rule
      refine ⟨mem_leftSides (mem_pairs_of_mem_unaryRules rule), by omega, fun _ => ?_⟩
      exact h label hlabel pair rule
  exact hbound.2.1

namespace ForestState

variable [Scalar V] {g : Grammar V} {o : Options V} {lattice : Lattice V} {pruner : Pruner}

omit [Scalar V] in
theorem made_of_genuine {a : Entry} {entries : (first last : Nat) → Set Constituent}
    (ha : Genuine g o lattice pruner entries a) {parts : Trail Derivation}
    (hparts : Trail.Along (fun p q c d => d.Made g o lattice pruner ∧ d.place = ⟨p, q, c.label⟩)
      a.place.last a.step.parts parts) :
    (Derivation.node a.place a.step.rule parts).Made g o lattice pruner := by
  obtain ⟨pair, hpair, hlabel⟩ := ha.label
  refine .node ha.span ha.spanLeft ha.labelLeft hpair hlabel ?_ fun d hd => ?_
  · refine Application.fits_along (fun p q c d hcd => by rw [hcd.2])
      (fun p q c d _ hcd => ?_) hparts ha.fits
    exact ⟨by rw [hcd.2], by rw [hcd.2]⟩
  · obtain ⟨p, q, hplaced⟩ := Trail.exists_placed hd a.place.last
    obtain ⟨c, -, hmade, -⟩ := hparts.of_mem_placed hplaced
    exact hmade

variable {ledger : List Entry}
  (h : Ran g o lattice pruner (Chart.spansByLength lattice.size) (run g o lattice pruner) ledger)
include h

theorem Ran.exists_made (n : Nat) : ∀ i j, ∀ c ∈ cells g o lattice pruner i j, c.node = n →
    ∃ d : Derivation, d.Made g o lattice pruner ∧ d.place = ⟨i, j, c.label⟩ := by
  induction n using Nat.strongRecOn with
  | _ n ih =>
    intro i j c hc hn
    obtain ⟨a, hgen, hplace, hbelow⟩ := h.exists_entry hc
    obtain ⟨t, -, hover, -⟩ := hgen.fits
    have hparts := Trail.Along.exists_of_placed
      (fun p q c d => Derivation.Made g o lattice pruner d ∧ d.place = ⟨p, q, c.label⟩)
      a.place.last a.step.parts fun p q b hb => by
      have hlt := hbelow b (Trail.mem_entries_of_mem_placed hb)
      rw [hn] at hlt
      exact ih b.node hlt p q b (hover.mem_placed hb).2.2.2 rfl
    obtain ⟨parts, hparts⟩ := hparts
    exact ⟨_, made_of_genuine hgen hparts, hplace⟩

theorem Ran.exists_of_made (hstag : 0 < o.forestStagnation) {d : Derivation}
    (hd : d.Made g o lattice pruner) :
    ∃ c ∈ cells g o lattice pruner d.place.first d.place.last, c.label = d.place.label := by
  induction hd with
  | @node place rule parts pair span spanLeft labelLeft named label fits below ih =>
    obtain ⟨t, -, hover, -⟩ := id fits
    have hparts := Trail.Along.exists_of_placed
      (fun p q (d : Derivation) c => c ∈ listed (cells g o lattice pruner) p q ∧
        d.place.label = c.label) place.last parts fun p q d hd => by
      obtain ⟨c, hc, hlabel⟩ := ih d (Trail.mem_entries_of_mem_placed hd)
      obtain ⟨hp, hq⟩ := (hover.mem_placed hd).2.2.2
      rw [hp, hq] at hc
      exact ⟨c, hc, hlabel.symm⟩
    obtain ⟨parts', hparts⟩ := hparts
    have hfits := Application.fits_along (fun p q d c hdc => hdc.2) (fun p q d c _ hdc => hdc.1)
      hparts fits
    exact h.labels hstag ⟨place, ⟨rule, parts'⟩⟩
      ⟨span, spanLeft, labelLeft, ⟨pair, named, label⟩, hfits⟩ (Chart.mem_spansByLength.mpr span)

theorem Ran.exists_chain (n : Nat) : ∀ i j, ∀ c ∈ cells g o lattice pruner i j, c.node = n →
    ∃ child ∈ g.leftSides o, ∃ x,
      UnaryPath g (Weighting.uniform : Weighting V ℚ≥0) o child c.level c.label x := by
  induction n using Nat.strongRecOn with
  | _ n ih =>
    intro i j c hc hn
    obtain ⟨a, -, hgen, hplace, hlevel, hbelow⟩ := h.exists_derived hc
    obtain ⟨pair, hpair, hlabel⟩ := hgen.label
    have hfits := hgen.fits
    rw [hplace] at hlabel hfits
    have hlabel : (pair.side o.yieldSource).lhs = c.label := hlabel
    by_cases hbegins : a.step.parts.Begins (i, j) i j
    · obtain ⟨d, hd, hparts, t, ht, -, hrule⟩ := hfits.exists_unary hbegins hpair
      have hlt := hbelow d (by rw [hparts]; exact List.mem_cons_self)
      rw [hn] at hlt
      obtain ⟨child, hchild, x, hpath⟩ := ih d.node hlt i j d hd rfl
      have hstep := hpath.step (Grammar.mem_unaryRules ht hrule)
      rw [hlabel] at hstep
      rw [← hlevel, hparts]
      exact ⟨child, hchild, _, hstep⟩
    · obtain ⟨t, -, hover, -⟩ := hfits
      rw [← hlevel, level_eq_zero hover hbegins]
      exact ⟨c.label, hlabel ▸ Grammar.mem_leftSides (Grammar.mem_pairs_of_pair? hpair), _, .start⟩

/-- The ledger lists all applications over constituents, when chains are short. -/
theorem Ran.mem_ledger_iff (hchains : g.ChainsWithin o o.forestStagnation) {a : Entry} :
    a ∈ ledger ↔ Genuine g o lattice pruner (listed (cells g o lattice pruner)) a := by
  refine ⟨fun ha => (h.genuine a ha).2, fun ha => ?_⟩
  have hmem : (a.place.first, a.place.last) ∈ Chart.spansByLength lattice.size :=
    Chart.mem_spansByLength.mpr ha.span
  by_cases hbegins : a.step.parts.Begins (a.place.first, a.place.last) a.place.first a.place.last
  · obtain ⟨pair, hpair, -⟩ := ha.label
    obtain ⟨c, hc, hparts, t, ht, -, hrule⟩ := ha.fits.exists_unary hbegins hpair
    obtain ⟨child, hchild, x, hpath⟩ := h.exists_chain c.node _ _ c hc rfl
    exact h.unary a ha hmem c hparts
      (hchains child hchild _ _ _ (hpath.step (Grammar.mem_unaryRules ht hrule)))
  · exact h.complete a ha hmem hbegins

theorem Ran.mem_ledger_iff_derived {a : Entry} :
    a ∈ ledger ↔ Genuine g o lattice pruner (listed (cells g o lattice pruner)) a ∧
      ∃ c ∈ cells g o lattice pruner a.place.first a.place.last,
        c.label = a.place.label ∧ c.level = a.step.parts.level := by
  constructor
  · intro ha
    obtain ⟨e, he⟩ := List.getElem?_of_mem ha
    obtain ⟨-, c, -, hc, hlabel, hlevel, -⟩ := h.recorded.edge e a he
    exact ⟨(h.genuine a ha).2, c, hc, hlabel, hlevel⟩
  · rintro ⟨ha, d, hd, -, hlevel⟩
    have hmem : (a.place.first, a.place.last) ∈ Chart.spansByLength lattice.size :=
      Chart.mem_spansByLength.mpr ha.span
    by_cases hbegins : a.step.parts.Begins (a.place.first, a.place.last) a.place.first a.place.last
    · obtain ⟨pair, hpair, -⟩ := ha.label
      obtain ⟨c, -, hparts, -⟩ := ha.fits.exists_unary hbegins hpair
      refine h.layers a ha hmem c hparts ⟨d, hd, ?_⟩
      rw [hlevel, hparts]
      rfl
    · exact h.complete a ha hmem hbegins

end ForestState

open ForestState

variable [Scalar V] {g : Grammar V} {o : Options V} {lattice : Lattice V} {pruner : Pruner}

theorem exists_made_of_isValid (h : (forest g o lattice pruner).isValid = true) :
    ∃ d : Derivation, d.Made g o lattice pruner ∧ d.place = ⟨0, lattice.size, o.goal⟩ := by
  obtain ⟨c, hc, hlabel⟩ := isValid_forest_iff.mp h
  obtain ⟨ledger, hran⟩ := exists_ledger g o lattice pruner
  rw [← hlabel]
  exact hran.exists_made c.node 0 lattice.size c hc rfl

theorem isValid_of_made (hstag : 0 < o.forestStagnation) {d : Derivation}
    (hd : d.Made g o lattice pruner) (hgoal : d.place = ⟨0, lattice.size, o.goal⟩) :
    (forest g o lattice pruner).isValid = true := by
  obtain ⟨ledger, hran⟩ := exists_ledger g o lattice pruner
  obtain ⟨c, hc, hlabel⟩ := hran.exists_of_made hstag hd
  rw [hgoal] at hc hlabel
  exact isValid_forest_iff.mpr ⟨c, hc, hlabel⟩

end ParseForest
