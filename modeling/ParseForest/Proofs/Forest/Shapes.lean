import ParseForest.Proofs.Forest.Counterparts
import ParseForest.Proofs.RuleTable.Inserted

/-!
# Labels and levels of a span

Which labels a span has at which levels depends on the rule pairs of the grammar, but not on the
tables in which they stand or on their order. Two runs over grammars of the same rule pairs go on
in step: their spans have the same labels and levels after the matched rule pairs, after every
round of unary rules, and so when the rounds end, which they do together.
-/

namespace ParseForest

variable {V : Type}

def Present (found : List Constituent) (label : Symbol) (level : Nat) : Prop :=
  ∃ c ∈ found, c.label = label ∧ c.level = level

def SameShapes (found found' : List Constituent) : Prop :=
  ∀ label level, Present found label level ↔ Present found' label level

namespace SameShapes

variable {found found' : List Constituent}

theorem symm (h : SameShapes found found') : SameShapes found' found := fun label level =>
  (h label level).symm

theorem exists_right (h : SameShapes found found') {c : Constituent} (hc : c ∈ found) :
    ∃ c' ∈ found', c'.label = c.label ∧ c'.level = c.level :=
  (h c.label c.level).mp ⟨c, hc, rfl, rfl⟩

theorem of_exists (h : ∀ c ∈ found, ∃ c' ∈ found', c'.label = c.label ∧ c'.level = c.level)
    (h' : ∀ c ∈ found', ∃ c' ∈ found, c'.label = c.label ∧ c'.level = c.level) :
    SameShapes found found' := fun label level => by
  constructor
  · rintro ⟨c, hc, rfl, rfl⟩
    exact h c hc
  · rintro ⟨c, hc, rfl, rfl⟩
    exact h' c hc

theorem congr_perm (h : SameShapes found found') {sorted : List Constituent}
    (hperm : sorted.Perm found) : SameShapes sorted found' := fun label level =>
  (exists_congr fun _ => and_congr_left' hperm.mem_iff).trans (h label level)

theorem isEmpty_eq (h : SameShapes found found') : found.isEmpty = found'.isEmpty := by
  have hnil {found found' : List Constituent} (h : SameShapes found found')
      (hnil : found.isEmpty = true) : found'.isEmpty = true := by
    rw [List.isEmpty_iff] at hnil ⊢
    refine List.eq_nil_iff_forall_not_mem.mpr fun c hc => ?_
    obtain ⟨c', hc', -⟩ := h.symm.exists_right hc
    exact List.not_mem_nil (hnil ▸ hc')
  exact Bool.eq_iff_iff.mpr ⟨hnil h, hnil h.symm⟩

end SameShapes

variable [Scalar V]

/-! ## Steps -/

theorem RuleStep.present_take {site : Site V} {s : RuleStep V} {b : SpanBuild V} {label : Symbol}
    {level : Nat} : Present (s.take site b).found label level ↔ Present b.found label level ∨
      site.skips label = false ∧ (site.ruleOf s.pair).lhs = label ∧ s.level = level := by
  rw [take]
  cases hskip : site.skips (site.ruleOf s.pair).lhs with
  | true =>
    rw [SpanBuild.apply_of_skips _ _ _ _ _ hskip]
    refine (or_iff_left ?_).symm
    rintro ⟨hleft, rfl, -⟩
    rw [hskip] at hleft
    cases hleft
  | false =>
    rw [SpanBuild.apply_eq _ _ _ _ _ hskip]
    cases hfind : b.find? (site.ruleOf s.pair).lhs s.level with
    | some c =>
      obtain ⟨hc, hlabel, hlevel⟩ := SpanBuild.of_find?_eq_some hfind
      refine (or_iff_left_of_imp ?_).symm
      rintro ⟨-, rfl, rfl⟩
      exact ⟨c, hc, hlabel, hlevel⟩
    | none =>
      constructor
      · rintro ⟨c, hc, rfl, rfl⟩
        rcases List.mem_append.mp hc with hc | hc
        · exact Or.inl ⟨c, hc, rfl, rfl⟩
        · rw [List.mem_singleton.mp hc]
          exact Or.inr ⟨hskip, rfl, rfl⟩
      · rintro (⟨c, hc, rfl, rfl⟩ | ⟨-, rfl, rfl⟩)
        · exact ⟨c, List.mem_append_left _ hc, rfl, rfl⟩
        · exact ⟨_, List.mem_append_right _ List.mem_cons_self, rfl, rfl⟩

namespace SpanBuild

variable {g g' : Grammar V} {site : Site V} {distance : Nat}

theorem present_foldl {steps : List (RuleStep V)} {b : SpanBuild V} {label : Symbol}
    {level : Nat} : Present (steps.foldl (RuleStep.take site) b).found label level ↔
      Present b.found label level ∨ site.skips label = false ∧
        ∃ s ∈ steps, (site.ruleOf s.pair).lhs = label ∧ s.level = level := by
  induction steps generalizing b with
  | nil => simp
  | cons s steps ih =>
    rw [List.foldl_cons, ih, RuleStep.present_take, List.exists_mem_cons_iff, or_assoc,
      ← and_or_left]

/-! ## Rounds -/

omit [Scalar V] in
theorem mem_roundSteps (hg : ∀ t ∈ g, t.Plain) {frontier : List Constituent} {s : RuleStep V} :
    s ∈ roundSteps g distance frontier ↔
      ∃ c ∈ frontier, ∃ pair ∈ g.unaryRules c.label, s = RuleStep.ofUnary c pair := by
  simp only [roundSteps, Grammar.unaryRules, List.mem_flatMap, List.mem_filter, List.mem_map]
  constructor
  · rintro ⟨t, ⟨ht, -⟩, c, hc, pair, hpair, rfl⟩
    exact ⟨c, hc, pair, ⟨t, ht, hpair⟩, rfl⟩
  · rintro ⟨c, hc, pair, ⟨t, ht, hpair⟩, rfl⟩
    exact ⟨t, ⟨ht, (hg t ht).covers distance⟩, c, hc, pair, hpair, rfl⟩

variable (site distance) in
theorem sameShapes_round (h : g.SamePairs g') {b b' : SpanBuild V}
    {frontier frontier' : List Constituent} (hb : SameShapes b.found b'.found)
    (hfrontier : SameShapes frontier frontier') :
    SameShapes (b.round site g distance frontier).found
      (b'.round site g' distance frontier').found := by
  have himp {g g' : Grammar V} (h : g.SamePairs g') {frontier frontier' : List Constituent}
      (hfrontier : SameShapes frontier frontier') {label : Symbol} {level : Nat}
      (hs : ∃ s ∈ roundSteps g distance frontier, (site.ruleOf s.pair).lhs = label ∧
        s.level = level) :
      ∃ s ∈ roundSteps g' distance frontier', (site.ruleOf s.pair).lhs = label ∧
        s.level = level := by
    obtain ⟨s, hs, hlabel, hlevel⟩ := hs
    obtain ⟨c, hc, pair, hpair, rfl⟩ := (mem_roundSteps h.left).mp hs
    obtain ⟨c', hc', hsame, hup⟩ := hfrontier.exists_right hc
    rw [← hsame, h.mem_unaryRules_iff] at hpair
    refine ⟨RuleStep.ofUnary c' pair, (mem_roundSteps h.right).mpr ⟨c', hc', pair, hpair, rfl⟩,
      hlabel, ?_⟩
    rw [← hlevel, RuleStep.ofUnary, RuleStep.ofUnary, hup]
  intro label level
  rw [← foldl_roundSteps, ← foldl_roundSteps, present_foldl, present_foldl, hb label level]
  exact or_congr_right (and_congr_right fun _ => ⟨himp h hfrontier, himp h.symm hfrontier.symm⟩)

omit [Scalar V] in
theorem grew_eq {b b' after after' : SpanBuild V} {new new' : List Constituent}
    (hb : SameShapes b.found b'.found) (hafter : SameShapes after.found after'.found)
    (hfound : after.found = b.found ++ new) (hfound' : after'.found = b'.found ++ new') :
    grew b after = grew b' after' := by
  have himp {b b' after after' : SpanBuild V} {new new' : List Constituent}
      (hb : SameShapes b.found b'.found) (hafter : SameShapes after.found after'.found)
      (hfound : after.found = b.found ++ new) (hfound' : after'.found = b'.found ++ new')
      (hgrew : grew b after = true) : grew b' after' = true := by
    rw [Building.grew_eq_true_iff hfound] at hgrew
    rw [Building.grew_eq_true_iff hfound']
    obtain ⟨c, hc, hfresh⟩ := hgrew
    obtain ⟨c', hc', hlabel, -⟩ := hafter.exists_right (hfound ▸ List.mem_append_right _ hc)
    have hfresh' : ∀ d ∈ b'.found, d.label ≠ c'.label := fun d hd heq => by
      obtain ⟨d', hd', hsame, -⟩ := hb.symm.exists_right hd
      exact hfresh d' hd' (hsame.trans (heq.trans hlabel))
    rw [hfound'] at hc'
    exact ⟨c', (List.mem_append.mp hc').resolve_left fun hold => hfresh' c' hold rfl, hfresh'⟩
  exact Bool.eq_iff_iff.mpr
    ⟨himp hb hafter hfound hfound', himp hb.symm hafter.symm hfound' hfound⟩

theorem sameShapes_closeFrom (h : g.SamePairs g') (fuel stagnant : Nat) {done done' level : Nat}
    {b b' : SpanBuild V} (hb : SameShapes b.found b'.found)
    (hlayered : Building.Layered b.found done level)
    (hlayered' : Building.Layered b'.found done' level) :
    SameShapes (closeFrom site g distance fuel stagnant done b).found
      (closeFrom site g' distance fuel stagnant done' b').found := by
  induction fuel generalizing stagnant done done' level b b' with
  | zero => exact hb
  | succ fuel ih =>
    have hfrontier : SameShapes (b.found.drop done) (b'.found.drop done') := by
      refine .of_exists (fun c hc => ?_) fun c hc => ?_
      · obtain ⟨hc, hlevel⟩ := (hlayered.mem_frontier_iff c).mp hc
        obtain ⟨c', hc', hlabel, hsame⟩ := hb.exists_right hc
        exact ⟨c', (hlayered'.mem_frontier_iff c').mpr ⟨hc', hsame.trans hlevel⟩, hlabel, hsame⟩
      · obtain ⟨hc, hlevel⟩ := (hlayered'.mem_frontier_iff c).mp hc
        obtain ⟨c', hc', hlabel, hsame⟩ := hb.symm.exists_right hc
        exact ⟨c', (hlayered.mem_frontier_iff c').mpr ⟨hc', hsame.trans hlevel⟩, hlabel, hsame⟩
    obtain ⟨new, hfound, hnew⟩ := exists_found_round site g distance (b.found.drop done) b
    obtain ⟨new', hfound', hnew'⟩ := exists_found_round site g' distance (b'.found.drop done') b'
    have hround := sameShapes_round site distance h hb hfrontier
    have hgrew := grew_eq hb hround hfound hfound'
    have hnext (stagnant : Nat) := ih stagnant hround
      (hfound ▸ hlayered.next_of_frontier fun c hc => (hnew c hc).2)
      (hfound' ▸ hlayered'.next_of_frontier fun c hc => (hnew' c hc).2)
    rw [closeFrom, closeFrom]
    simp only [hfrontier.isEmpty_eq, hgrew]
    split
    · exact hb
    · split
      · exact hnext stagnant
      · split
        · exact hround
        · exact hnext (stagnant + 1)

variable (site distance) in
theorem sameShapes_close (h : g.SamePairs g') {b b' : SpanBuild V}
    (hb : SameShapes b.found b'.found) (hzero : ∀ c ∈ b.found, c.level = 0)
    (hzero' : ∀ c ∈ b'.found, c.level = 0) :
    SameShapes (b.close site g distance).found (b'.close site g' distance).found := by
  unfold close
  split
  · exact hb
  · rw [roundLimit, roundLimit, h.ruleCount_eq]
    exact sameShapes_closeFrom h _ 0 hb ⟨fun c hc => (by cases hc), hzero⟩
      ⟨fun c hc => (by cases hc), hzero'⟩

end SpanBuild

/-! ## Spans -/

namespace ForestState

variable {g g' : Grammar V} {o : Options V} {lattice : Lattice V} {pruner : Pruner}

theorem applyAll_eq (site : Site V) (b : SpanBuild V) (matched : List (RulePair V × Match V)) :
    b.applyAll site matched = (matched.map RuleStep.ofMatched).foldl (RuleStep.take site) b := by
  rw [List.foldl_map]
  rfl

variable (o lattice pruner) in
def matchedBuild (st : ForestState V) (first last : Nat) : SpanBuild V :=
  (SpanBuild.mk st.graph []).applyAll ⟨o, pruner, first, last⟩
    ((advanced o lattice st first last).flatMap (Track.completed first last))

theorem present_matchedBuild {done rest : List (Nat × Nat)} {first last : Nat}
    (hsplit : Chart.spansByLength lattice.size = done ++ (first, last) :: rest) {label : Symbol}
    {level : Nat} :
    Present (matchedBuild o lattice pruner (upTo g o lattice pruner done) first last).found label
        level ↔
      pruner.skipsLabel first last label = false ∧ level = 0 ∧ ∃ r x pair,
        Application.Fits Constituent.label g o lattice (listed (cells g o lattice pruner)) first last
          ⟨r, x⟩ ∧ ¬x.Begins (first, last) first last ∧ g.pair? r = some pair ∧
            (pair.side o.yieldSource).lhs = label := by
  obtain ⟨ledger, hran⟩ := exists_ran hsplit
  obtain ⟨xs, -, hmem, hmatched, -⟩ := exists_matched hsplit hran
  rw [matchedBuild, applyAll_eq, SpanBuild.present_foldl,
    or_iff_right (by rintro ⟨c, hc, -⟩; cases hc), ← hmatched]
  refine and_congr_right fun _ => ?_
  constructor
  · rintro ⟨s, hs, hlabel, rfl⟩
    obtain ⟨m, hm, rfl⟩ := List.mem_map.mp hs
    obtain ⟨⟨r, x⟩, ha, hresult⟩ := List.mem_filterMap.mp hm
    obtain ⟨hfits, hbegins, -⟩ := (hmem _).mp ha
    obtain ⟨pair, hpair, rfl⟩ := Option.map_eq_some_iff.mp hresult
    exact ⟨rfl, r, x, pair, hfits, hbegins, hpair, hlabel⟩
  · rintro ⟨rfl, r, x, pair, hfits, hbegins, hpair, hlabel⟩
    refine ⟨_, List.mem_map.mpr ⟨(pair, x.load Match.carrier lattice), List.mem_filterMap.mpr
      ⟨⟨r, x⟩, (hmem _).mpr ⟨hfits, hbegins, ?_⟩, ?_⟩, rfl⟩, hlabel, rfl⟩
    · rw [hpair, Option.isSome_some]
    · rw [Application.result?, hpair]
      rfl

theorem exists_fits_of_sameShapes (h : g.SamePairs g') {i j : Nat} {r r' : RuleName}
    {pair : RulePair V} (hpair : g.pair? r = some pair) (hpair' : g'.pair? r' = some pair)
    {x : Trail Constituent}
    (hfits : Application.Fits Constituent.label g o lattice (listed (cells g o lattice pruner)) i j
      ⟨r, x⟩)
    (hshapes : ∀ p q c, (p, q, c) ∈ x.placed j →
      SameShapes (cells g o lattice pruner p q) (cells g' o lattice pruner p q)) :
    ∃ x', Trail.Along (SameCell g g' o lattice pruner pruner) j x x' ∧
      Application.Fits Constituent.label g' o lattice (listed (cells g' o lattice pruner)) i j
        ⟨r', x'⟩ := by
  obtain ⟨t, -, hover, -⟩ := id hfits
  obtain ⟨x', hx'⟩ := Trail.Along.exists_of_placed (SameCell g g' o lattice pruner pruner) j x
    fun p q c hc => by
      obtain ⟨-, -, -, hmem⟩ := hover.mem_placed hc
      obtain ⟨c', hc', hlabel, hlevel⟩ := (hshapes p q c hc).exists_right hmem
      exact ⟨c', hmem, hc', hlabel.symm, hlevel.symm⟩
  exact ⟨x', hx', h.fits hpair hpair' (Application.fits_along (fun p q c c' hc => hc.label)
    (fun p q c c' _ hc => hc.right) hx' hfits)⟩

theorem exists_matched_of_sameShapes (h : g.SamePairs g') {i j : Nat}
    (hinside : ∀ p q, q - p < j - i →
      SameShapes (cells g o lattice pruner p q) (cells g' o lattice pruner p q))
    {r : RuleName} {x : Trail Constituent} {pair : RulePair V}
    (hfits : Application.Fits Constituent.label g o lattice (listed (cells g o lattice pruner)) i j
      ⟨r, x⟩) (hbegins : ¬x.Begins (i, j) i j) (hpair : g.pair? r = some pair) :
    ∃ r' x', Application.Fits Constituent.label g' o lattice (listed (cells g' o lattice pruner)) i j
      ⟨r', x'⟩ ∧ ¬x'.Begins (i, j) i j ∧ g'.pair? r' = some pair := by
  obtain ⟨_, -, hnames, hforth, -⟩ := h.exists_biUnique
  obtain ⟨r', hr'⟩ := hforth r (by rw [hpair]; rfl)
  have hpair' : g'.pair? r' = some pair := (hnames r r' hr').symm.trans hpair
  obtain ⟨t, -, hover, -⟩ := id hfits
  obtain ⟨x', hx', hfits'⟩ := exists_fits_of_sameShapes h hpair hpair' hfits fun p q c hc =>
    hinside p q (hover.placed_inside hbegins hc)
  exact ⟨r', x', hfits', fun hb => hbegins ((hx'.begins_iff (i, j) i).mpr hb), hpair'⟩

theorem level_matchedBuild {done rest : List (Nat × Nat)} {i j : Nat}
    (hsplit : Chart.spansByLength lattice.size = done ++ (i, j) :: rest) :
    ∀ c ∈ (matchedBuild o lattice pruner (upTo g o lattice pruner done) i j).found, c.level = 0 :=
  fun c hc => ((present_matchedBuild hsplit).mp ⟨c, hc, rfl, rfl⟩).2.1

theorem sameShapes_matchedBuild (h : g.SamePairs g') {done rest : List (Nat × Nat)} {i j : Nat}
    (hsplit : Chart.spansByLength lattice.size = done ++ (i, j) :: rest)
    (hinside : ∀ p q, q - p < j - i →
      SameShapes (cells g o lattice pruner p q) (cells g' o lattice pruner p q)) :
    SameShapes (matchedBuild o lattice pruner (upTo g o lattice pruner done) i j).found
      (matchedBuild o lattice pruner (upTo g' o lattice pruner done) i j).found := by
  intro label level
  rw [present_matchedBuild hsplit, present_matchedBuild hsplit]
  refine and_congr_right fun _ => and_congr_right fun _ => ⟨?_, ?_⟩
  · rintro ⟨r, x, pair, hfits, hbegins, hpair, hlabel⟩
    obtain ⟨r', x', hfits', hbegins', hpair'⟩ :=
      exists_matched_of_sameShapes h hinside hfits hbegins hpair
    exact ⟨r', x', pair, hfits', hbegins', hpair', hlabel⟩
  · rintro ⟨r, x, pair, hfits, hbegins, hpair, hlabel⟩
    obtain ⟨r', x', hfits', hbegins', hpair'⟩ := exists_matched_of_sameShapes h.symm
      (fun p q hlt => (hinside p q hlt).symm) hfits hbegins hpair
    exact ⟨r', x', pair, hfits', hbegins', hpair', hlabel⟩

/-- Spans have the same labels at the same levels, whatever the tables and the order of rules. -/
theorem sameShapes_cells (h : g.SamePairs g') (i j : Nat) :
    SameShapes (cells g o lattice pruner i j) (cells g' o lattice pruner i j) := by
  induction hn : j - i using Nat.strongRecOn generalizing i j with
  | _ n ih =>
    subst hn
    by_cases hbuilt : (i < j ∧ j ≤ lattice.size) ∧ pruner.skipsSpan i j = false
    · obtain ⟨hspan, hleft⟩ := hbuilt
      obtain ⟨done, rest, hsplit⟩ := Chart.exists_split hspan
      have hbase := sameShapes_matchedBuild h hsplit fun p q hlt => ih (q - p) hlt p q rfl
      have hclose := SpanBuild.sameShapes_close ⟨o, pruner, i, j⟩
        (lattice.distanceTable.length i j) h hbase (level_matchedBuild hsplit)
        (level_matchedBuild hsplit)
      rw [cells_eq_sorted hsplit hleft, cells_eq_sorted hsplit hleft]
      exact (hclose.congr_perm (SpanBuild.perm_sorted _)).symm.congr_perm
        (SpanBuild.perm_sorted _) |>.symm
    · have hnil {g : Grammar V} {c : Constituent} (hc : c ∈ cells g o lattice pruner i j) :
          False := by
        obtain ⟨ledger, hran⟩ := exists_ledger g o lattice pruner
        obtain ⟨a, -, hgen, hplace, -⟩ := hran.exists_derived hc
        have hspan := hgen.span
        have hleft := hgen.spanLeft
        rw [hplace] at hspan hleft
        exact hbuilt ⟨hspan, hleft⟩
      exact .of_exists (fun c hc => (hnil hc).elim) fun c hc => (hnil hc).elim

end ForestState

end ParseForest
