import ParseForest.Proofs.Cascade.Image

/-!
# Cascades of coarser and coarser grammars

Let each coarse grammar cover the finest one under the map of labels of its level. With thresholds
of zero, the scores of a level then have one for the image of every useful label of the finest
grammar. So the next level keeps those labels too, provided that it looks them up where they are:
the coarsening with which a label is looked up has to give its image at the level before. The pass
over the finest grammar looks its labels up so, and so do the first two passes; a later pass over a
coarse grammar looks a label up by one bit less than the level before has.
-/

namespace ParseForest

variable {V S : Type} [Scalar V] [LogScale V S]

namespace Cascade

def levelCoarsening : (level : Nat) → Coarsening
  | 0 => .category
  | bits + 1 => .latent (bits + 1)

def image (goal : Symbol) (level : Nat) (s : Symbol) : Symbol :=
  if s = goal then goal else (levelCoarsening level).apply s

theorem image_goal (goal : Symbol) (level : Nat) : image goal level goal = goal := if_pos rfl

theorem image_of_isTerminal (goal : Symbol) (level : Nat) {s : Symbol} (h : s.isTerminal = true) :
    image goal level s = s := by
  unfold image
  split
  · rename_i heq
    exact heq.symm
  · exact (levelCoarsening level).apply_of_isTerminal h

theorem finestCoarsening_succ (level : Nat) :
    finestCoarsening (level + 1) = levelCoarsening level := by
  cases level with
  | zero => rfl
  | succ level => rfl

/-- A label of a level is found at the level before, as it is or in its coarser form. -/
def FoundBefore (goal : Symbol) (level : Nat) (coarsening : Coarsening) (s : Symbol) : Prop :=
  image goal level s = image goal (level + 1) s ∨
    image goal level s = coarsening.apply (image goal (level + 1) s)

instance (goal : Symbol) (level : Nat) (coarsening : Coarsening) (s : Symbol) :
    Decidable (FoundBefore goal level coarsening s) :=
  inferInstanceAs (Decidable (image goal level s = image goal (level + 1) s ∨
    image goal level s = coarsening.apply (image goal (level + 1) s)))

theorem foundBefore_zero (goal s : Symbol) : FoundBefore goal 0 (scoringCoarsening 1) s := by
  by_cases hs : s = goal
  · exact Or.inl (by rw [hs, image_goal, image_goal])
  · refine Or.inr ?_
    rw [image, image, if_neg hs, if_neg hs]
    exact (Coarsening.category_apply_coarse s 1).symm

structure Finds (g : Grammar V) (w : Weighting V S) (o : Options V) (lattice : Lattice V)
    (f : Symbol → Symbol) (scores : ScoreChart S) : Prop where
  attained : ∀ i j label x, LabelMap.get? (scores.get i j) label = some x → w.Attained x
  found : ∀ l, Useful g o lattice .none l →
    (LabelMap.get? (scores.get l.first l.last) (f l.label)).isSome = true

theorem Finds.keeps {g : Grammar V} {w : Weighting V S} {o : Options V} {lattice : Lattice V}
    {f f' : Symbol → Symbol} {scores : ScoreChart S} (h : Finds g w o lattice f scores)
    (hw : w.Lossless) {coarsening : Coarsening}
    (hlook : ∀ l, Useful g o lattice .none l →
      f l.label = f' l.label ∨ f l.label = coarsening.apply (f' l.label)) :
    ∀ l, Useful g o lattice .none l →
      (prunerOf scores (Scalar.zero * Scalar.one : V) coarsening).Keeps (l.image f') :=
  fun l hl => keeps_prunerOf hw h.attained (hlook l hl) (h.found l hl)

section Levels

variable {c : Cascade V S} {lattice : Lattice V} (hfinest : ∀ t ∈ c.finest, t.Legible)
  (hpos : c.options.posMode = false) (hterm : lattice.AllTerminal) (hw : c.weighting.Lossless)
  {top : SpanLabel} (htop : Useful c.finest c.options lattice .none top)
include hfinest hpos hterm hw htop

theorem finds_posteriors (order : ClosureOrder) {h : Grammar V} (hh : ∀ t ∈ h, t.Legible)
    {f : Symbol → Symbol}
    (hcovers : h.Covers f c.finest) (hgoal : f c.options.goal = c.options.goal)
    (hwords : ∀ s : Symbol, s.isTerminal = true → f s = s) {pruner : Pruner}
    (hkeeps : ∀ l, Useful c.finest c.options lattice .none l → pruner.Keeps (l.image f)) :
    (posteriorsIn order h c.weighting c.options lattice pruner).parsed = true ∧
      Finds c.finest c.weighting c.options lattice f
        (posteriorsIn order h c.weighting c.options lattice pruner).scores := by
  have himage : ∀ l, Useful c.finest c.options lattice .none l →
      Useful h c.options lattice pruner (l.image f) := by
    rintro l ⟨d, hd, hplace, huses⟩
    obtain ⟨d', hd', him⟩ := hd.exists_image hfinest hh hcovers hwords hpos hterm
    refine ⟨d', hd'.of_keeps pruner fun l' hl' => ?_, ?_, him.uses l huses⟩
    · obtain ⟨m, hm, rfl⟩ := him.used l' hl'
      exact hkeeps m ⟨d, hd, hplace, hm⟩
    · rw [him.place, hplace, SpanLabel.image, hgoal]
  have hsome := fun l hl => (himage l hl).isSome_posterior order hw.positive hw.isZero
  exact ⟨(hsome top htop).1, fun _ _ _ _ hx => attained_posterior hw.isZero hx,
    fun l hl => (hsome l hl).2⟩

section Passes

variable {levels : List (Grammar V)} (hlevels : ∀ (level : Nat) h, levels[level]? = some h →
    (∀ t ∈ h, t.Legible) ∧ h.Covers (image c.options.goal level) c.finest)
  (hfound : ∀ level : Nat, level + 1 < levels.length → ∀ l,
    Useful c.finest c.options lattice .none l →
      FoundBefore c.options.goal level (scoringCoarsening (level + 1)) l.label)
include hlevels

theorem finds_level (order : ClosureOrder) {level : Nat} {h : Grammar V}
    (hget : levels[level]? = some h) {pruner : Pruner}
    (hkeeps : ∀ l, Useful c.finest c.options lattice .none l →
      pruner.Keeps (l.image (image c.options.goal level))) :
    (posteriorsIn order h c.weighting c.options lattice pruner).parsed = true ∧
      Finds c.finest c.weighting c.options lattice (image c.options.goal level)
        (posteriorsIn order h c.weighting c.options lattice pruner).scores := by
  obtain ⟨hh, hcovers⟩ := hlevels level h hget
  exact finds_posteriors hfinest hpos hterm hw htop order hh hcovers (image_goal _ _)
    (fun _ => image_of_isTerminal _ _) hkeeps

include hfound

theorem exists_scorePasses (order : (level : Nat) → ClosureOrder) {rest : List (Grammar V)}
    {level : Nat} {scores : ScoreChart S}
    (hrest : levels.drop (level + 1) = rest) (hlt : level < levels.length)
    (hfinds : Finds c.finest c.weighting c.options lattice (image c.options.goal level) scores) :
    ∃ scores', c.scorePasses order lattice Scalar.one (level + 1) (scores, Scalar.zero)
        (rest.map fun h => (h, Scalar.zero)) = some (scores', Scalar.zero) ∧
      Finds c.finest c.weighting c.options lattice
        (image c.options.goal (levels.length - 1)) scores' := by
  induction rest generalizing level scores with
  | nil =>
    have hlast : level = levels.length - 1 := by
      have hle := List.drop_eq_nil_iff.mp hrest
      omega
    exact ⟨scores, rfl, hlast ▸ hfinds⟩
  | cons h rest ih =>
    have hget : levels[level + 1]? = some h := by
      rw [← List.head?_drop, hrest]
      rfl
    have hnext := (List.getElem?_eq_some_iff.mp hget).1
    obtain ⟨hparsed, hfinds⟩ := finds_level hfinest hpos hterm hw htop hlevels (order (level + 1))
      hget (hfinds.keeps hw (hfound level hnext))
    obtain ⟨scores', hpasses, hlast⟩ := ih (by rw [← List.tail_drop, hrest]; rfl) hnext hfinds
    refine ⟨scores', ?_, hlast⟩
    rw [List.map_cons, scorePasses]
    simp only [hparsed, if_true]
    exact hpasses

theorem exists_parseIn (orders : (round level : Nat) → ClosureOrder)
    (hcoarse : c.coarse = levels.map fun h => (h, Scalar.zero))
    (hne : levels ≠ []) (hstag : 0 < c.options.forestStagnation)
    (hvalid : (forest c.finest c.options lattice .none).isValid = true) :
    ∃ graph, c.parseIn orders lattice = ⟨graph, 0, Scalar.one⟩ ∧ graph.isValid = true := by
  obtain ⟨d, hd, hplace⟩ := exists_made_of_isValid hvalid
  obtain ⟨coarsest, rest, rfl⟩ := List.exists_cons_of_ne_nil hne
  have hkeeps : ∀ l, Useful c.finest c.options lattice .none l →
      Pruner.none.Keeps (l.image (image c.options.goal 0)) := fun _ _ => ⟨rfl, rfl⟩
  obtain ⟨hparsed, hfirst⟩ := finds_level hfinest hpos hterm hw htop hlevels (orders 0 0) rfl hkeeps
  obtain ⟨scores, hpasses, hscores⟩ := exists_scorePasses hfinest hpos hterm hw htop hlevels hfound
    (orders 0) rfl (Nat.zero_lt_succ _) hfirst
  have hlast : ∀ l, Useful c.finest c.options lattice .none l →
      image c.options.goal rest.length l.label = id l.label ∨
        image c.options.goal rest.length l.label = (finestCoarsening
          ((rest.map fun h => (h, (Scalar.zero : V))).length + 1)).apply (id l.label) := fun l _ => by
    rw [List.length_map, finestCoarsening_succ, image]
    split
    · rename_i heq
      exact Or.inl heq.symm
    · exact Or.inr rfl
  have hkept := hscores.keeps hw hlast
  have hpruned := isValid_of_made hstag
    (hd.of_keeps _ fun l hl => hkept l ⟨d, hd, hplace, hl⟩) hplace
  exact ⟨_, parseIn_of_round orders hcoarse hparsed (round_of_passes hpasses hpruned), hpruned⟩

end Passes

end Levels

omit [Scalar V] in
theorem zip_eq_map {levels : List (Grammar V)} {thresholds : List V} {t : V}
    (h : ∀ t' ∈ thresholds, t' = t) (hlength : thresholds.length = levels.length) :
    levels.zip thresholds = levels.map fun h => (h, t) := by
  induction levels generalizing thresholds with
  | nil => rfl
  | cons level levels ih =>
    cases thresholds with
    | nil => cases hlength
    | cons t' thresholds =>
      rw [List.zip_cons_cons, List.map_cons, h t' List.mem_cons_self,
        ih (fun u hu => h u (List.mem_cons_of_mem _ hu)) (Nat.succ.inj hlength)]

omit [Scalar V] in
theorem mem_share {finest grammar : Grammar V} {kind : TableKind} {t : RuleTable V} :
    (t ∈ grammar → t ∈ share finest grammar kind) ∧
      (t ∈ share finest grammar kind → t ∈ grammar ∨ t ∈ finest) := by
  unfold share
  split
  · rename_i table hfind
    split
    · exact ⟨id, Or.inl⟩
    · refine ⟨List.mem_append_left _, fun ht => ?_⟩
      rcases List.mem_append.mp ht with ht | ht
      · exact Or.inl ht
      · rw [List.mem_singleton.mp ht]
        exact Or.inr (List.mem_of_find?_eq_some hfind)
  · exact ⟨id, Or.inl⟩

omit [Scalar V] in
theorem mem_shareAll {finest grammar : Grammar V} {t : RuleTable V} :
    (t ∈ grammar → t ∈ shareAll finest grammar) ∧
      (t ∈ shareAll finest grammar → t ∈ grammar ∨ t ∈ finest) := by
  simp only [shareAll, List.foldl_cons, List.foldl_nil]
  refine ⟨fun ht => mem_share.1 (mem_share.1 ht), fun ht => ?_⟩
  rcases mem_share.2 ht with ht | ht
  · exact mem_share.2 ht
  · exact Or.inr ht

omit [Scalar V] in
theorem covers_shareAll {finest grammar : Grammar V} {f : Symbol → Symbol}
    (h : grammar.Covers f finest) : (shareAll finest grammar).Covers f finest := by
  intro pair hpair
  obtain ⟨pair', hpair', himage⟩ := h pair hpair
  obtain ⟨t, ht, hmem⟩ := List.mem_flatMap.mp hpair'
  exact ⟨pair', List.mem_flatMap.mpr ⟨t, mem_shareAll.1 ht, hmem⟩, himage⟩

/-- A cascade of zero thresholds over grammars that cover the finest one parses what the finest
grammar parses, without a relaxation, when the labels of the finest grammar are found at every
level between two coarse grammars. -/
theorem isValid_parse_of_covers [NumberText V] {coarse : List (Grammar V)} {g : Grammar V}
    (hne : coarse ≠ []) (hg : g.IsText) (hcoarse : ∀ h ∈ coarse, h.IsText) {o : Options V}
    (hcovers : ∀ (level : Nat) h, coarse[level]? = some h → h.Covers (image o.goal level) g)
    (hfound : ∀ level : Nat, level + 2 < coarse.length → ∀ label ∈ g.leftSides o,
      FoundBefore o.goal (level + 1) (scoringCoarsening (level + 2)) label)
    {w : Weighting V S} (hw : w.Lossless) (hpos : o.posMode = false)
    (hstag : 0 < o.forestStagnation) {thresholds : List V}
    (hthresholds : ∀ t ∈ thresholds, t = Scalar.zero) {c : Cascade V S}
    (hc : ofGrammars (coarse ++ [g]) thresholds w o = .ok c)
    (orders : (round level : Nat) → ClosureOrder) {lattice : Lattice V}
    (hterm : lattice.AllTerminal) (hvalid : (forest g o lattice .none).isValid = true) :
    let result := c.parseIn orders lattice
    result.graph.isValid = true ∧ result.relaxations = 0 ∧ result.factor = Scalar.one := by
  obtain ⟨finest, hlast, hcount, rfl⟩ := eq_of_ofGrammars hc
  obtain rfl : g = finest := by simpa using hlast
  rw [List.dropLast_concat, zip_eq_map hthresholds (by simpa using hcount)]
  let c : Cascade V S := ⟨(coarse.map (shareAll g)).map fun h => (h, Scalar.zero), g, w, o⟩
  have hlevels : ∀ (level : Nat) h, (coarse.map (shareAll g))[level]? = some h →
      (∀ t ∈ h, t.Legible) ∧ h.Covers (image o.goal level) g := by
    intro level _ hshared
    rw [List.getElem?_map] at hshared
    obtain ⟨h, hget, rfl⟩ := Option.map_eq_some_iff.mp hshared
    refine ⟨fun t ht => ?_, covers_shareAll (hcovers level h hget)⟩
    exact (mem_shareAll.2 ht).elim (hcoarse h (List.mem_of_getElem? hget)).legible hg.legible
  have hlook : ∀ level : Nat, level + 1 < (coarse.map (shareAll g)).length → ∀ l,
      Useful g o lattice .none l →
        FoundBefore o.goal level (scoringCoarsening (level + 1)) l.label := by
    intro level hlevel l hl
    rw [List.length_map] at hlevel
    cases level with
    | zero => exact foundBefore_zero o.goal l.label
    | succ level => exact hfound level hlevel l.label hl.mem_leftSides
  obtain ⟨d, hd, hplace⟩ := exists_made_of_isValid hvalid
  have htop : Useful g o lattice .none d.place := ⟨d, hd, hplace, .here rfl⟩
  obtain ⟨graph, hparse, hgraph⟩ := exists_parseIn (c := c) (fun _ => hg.legible) hpos hterm hw
    htop hlevels hlook orders rfl (by simpa using hne) hstag hvalid
  change (c.parseIn orders lattice).graph.isValid = true ∧ _
  rw [hparse]
  exact ⟨hgraph, rfl, rfl⟩

/-- Three levels above a label whose lowest two bits are zero. -/
theorem isValid_parse_of_three_levels :
    let table : String → Grammar ℚ := fun text => [RuleTable.ofText text]
    let coarse := [table "[S] ||| [x,1]\n[x] ||| a", table "[S] ||| [A@0,1]\n[A@0] ||| a",
      table "[S] ||| [A@0,1]\n[A@0] ||| a"]
    let g := table "[S] ||| [A@4,1]\n[A@4] ||| a"
    let o := Options.ofGoal (1 / 10) Options.defaultGoal
    let w : Weighting ℚ ℚ≥0 := Weighting.uniform
    let lattice := Lattice.ofWords [⟨"a"⟩]
    ((g.IsText ∧ ∀ h ∈ coarse, h.IsText) ∧
      (∀ (level : Nat) h, coarse[level]? = some h → h.Covers (image o.goal level) g) ∧
      (∀ level : Nat, level + 2 < coarse.length → ∀ label ∈ g.leftSides o,
        FoundBefore o.goal (level + 1) (scoringCoarsening (level + 2)) label) ∧
      w.Lossless ∧ o.posMode = false ∧ 0 < o.forestStagnation ∧ lattice.AllTerminal ∧
      (forest g o lattice .none).isValid = true) ∧
        ∃ c, ofGrammars (coarse ++ [g]) [Scalar.zero, Scalar.zero, Scalar.zero] w o = .ok c ∧
          (c.parse lattice).graph.isValid = true := by
  intro table coarse g o w lattice
  have htext : ∀ h ∈ coarse, h.IsText := by
    intro h hh
    simp only [coarse, List.mem_cons, List.not_mem_nil, or_false] at hh
    rcases hh with rfl | rfl | rfl <;> exact Grammar.isText_ofText _
  have hcovers : ∀ (level : Nat) h, coarse[level]? = some h → h.Covers (image o.goal level) g := by
    have hall : ∀ x ∈ coarse.zipIdx, x.1.Covers (image o.goal x.2) g := by decide +kernel
    exact fun level h hget => hall (h, level) (List.mem_zipIdx_iff_getElem?.mpr hget)
  have hfound : ∀ level : Nat, level + 2 < coarse.length → ∀ label ∈ g.leftSides o,
      FoundBefore o.goal (level + 1) (scoringCoarsening (level + 2)) label := by
    intro level hlevel
    obtain rfl : level = 0 := by
      simp only [coarse, List.length_cons, List.length_nil] at hlevel
      omega
    decide +kernel
  have hw : w.Lossless := (Weighting.positive_uniform (by decide +kernel)).lossless
  have hterm : lattice.AllTerminal := by decide +kernel
  have hsplit : Chart.spansByLength lattice.size = [] ++ [(0, lattice.size)] := rfl
  have hvalid : (forest g o lattice .none).isValid = true :=
    isValid_forest_of_built hsplit rfl (by decide +kernel)
  let c : Cascade ℚ ℚ≥0 := ⟨coarse.map fun h => (shareAll g h, Scalar.zero), g, w, o⟩
  have hc : ofGrammars (coarse ++ [g]) [Scalar.zero, Scalar.zero, Scalar.zero] w o = .ok c := rfl
  have hparse := isValid_parse_of_covers (List.cons_ne_nil _ _) (Grammar.isText_ofText _) htext
    hcovers hfound hw rfl Nat.one_pos (by simp) hc (fun _ _ => .arrival) hterm hvalid
  exact ⟨⟨⟨Grammar.isText_ofText _, htext⟩, hcovers, hfound, hw, rfl, Nat.one_pos, hterm, hvalid⟩,
    c, hc, hparse.1⟩

/-- The last pass over a coarse grammar looks the label with two bits up without any, where the
level before has it with one bit. -/
theorem not_isValid_parse_of_two_bits :
    let table : String → Grammar ℚ := fun text => [RuleTable.ofText text]
    let coarse := [table "[S] ||| [x,1]\n[x] ||| a", table "[S] ||| [A@0,1]\n[A@0] ||| a",
      table "[S] ||| [A@2,1]\n[A@2] ||| a"]
    let g := table "[S] ||| [A@2,1]\n[A@2] ||| a"
    let o := Options.ofGoal (1 / 10) Options.defaultGoal
    let w : Weighting ℚ ℚ≥0 := Weighting.uniform
    let lattice := Lattice.ofWords [⟨"a"⟩]
    (∀ (level : Nat) h, coarse[level]? = some h → h.Covers (image o.goal level) g) ∧ w.Lossless ∧
      lattice.AllTerminal ∧ (forest g o lattice .none).isValid = true ∧
        ∃ c, ofGrammars (coarse ++ [g]) [Scalar.zero, Scalar.zero, Scalar.zero] w o = .ok c ∧
          (c.parse lattice).graph.isValid = false ∧ (c.parse lattice).relaxations = 8 := by
  intro table coarse g o w lattice
  have hcovers : ∀ (level : Nat) h, coarse[level]? = some h → h.Covers (image o.goal level) g := by
    have hall : ∀ x ∈ coarse.zipIdx, x.1.Covers (image o.goal x.2) g := by decide +kernel
    exact fun level h hget => hall (h, level) (List.mem_zipIdx_iff_getElem?.mpr hget)
  have hw : w.Lossless := (Weighting.positive_uniform (by decide +kernel)).lossless
  have hsplit : Chart.spansByLength lattice.size = [] ++ [(0, lattice.size)] := rfl
  have hvalid : (forest g o lattice .none).isValid = true :=
    isValid_forest_of_built hsplit rfl (by decide +kernel)
  let c : Cascade ℚ ℚ≥0 := ⟨coarse.map fun h => (shareAll g h, Scalar.zero), g, w, o⟩
  have hc : ofGrammars (coarse ++ [g]) [Scalar.zero, Scalar.zero, Scalar.zero] w o = .ok c := rfl
  have hinvalid : (c.parse lattice).graph.isValid = false := by decide +kernel
  have hrelaxations : (c.parse lattice).relaxations = 8 := by decide +kernel
  exact ⟨hcovers, hw, by decide +kernel, hvalid, c, hc, hinvalid, hrelaxations⟩

end Cascade

end ParseForest
