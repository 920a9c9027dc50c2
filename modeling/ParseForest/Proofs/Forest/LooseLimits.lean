import ParseForest.Proofs.Forest.Limits

/-!
# Loose limits

A limit that is no less than the size of the lattice holds for every span over which a path leads.
Over another span nothing is matched, so there the limit could be noticed only where arcs are
taken: an arc that is longer than one position is taken while the span is filled that ends one
position after it begins. If an arc of length 1 leaves that position too, a path leads over this
span, and the limit changes nothing.
-/

namespace ParseForest

variable {V E L : Type}

/-- Where an arc leaves a position, an arc of length 1 does. -/
def Lattice.Gapless (lattice : Lattice V) : Prop :=
  ∀ p < lattice.size, ∀ a ∈ lattice.arcsAt p, ∃ b ∈ lattice.arcsAt p, b.distance = 1

theorem Lattice.Gapless.path_succ {lattice : Lattice V} (h : lattice.Gapless) {first p d : Nat}
    (hpath : lattice.Path first p d) {a : Arc V} (ha : a ∈ lattice.arcsAt p) :
    ∃ d', lattice.Path first (p + 1) d' := by
  have hend := arc_bounds ha
  obtain ⟨b, hb, hone⟩ := h p (by omega) a ha
  have hstep := hpath.step hb
  rw [hone] at hstep
  exact ⟨_, hstep⟩

namespace RuleTable

theorem covers_withMaxSpan (t : RuleTable V) (k distance : Nat) :
    (t.withMaxSpan k).covers distance = true ↔ distance ≤ k := by
  rw [covers_iff]
  exact ⟨fun h => h k rfl, fun h k' hk => Option.some.inj hk ▸ h⟩

theorem covers_of_maxSpan_eq_none {t : RuleTable V} (h : t.maxSpan = none) (distance : Nat) :
    t.covers distance = true := covers_iff.mpr fun k hk => by rw [h] at hk; cases hk

end RuleTable

namespace Track

variable {c : Carrier V E L} {o : Options V} {lattice : Lattice V}

def limited (k : Nat) (tr : Track V L) : Track V L := ⟨tr.table.withMaxSpan k, tr.items⟩

theorem advance_limited {k : Nat} {entries : (first last : Nat) → List E} {tr : Track V L}
    {distance : Nat} (h : (tr.table.withMaxSpan k).covers distance = tr.table.covers distance)
    (first last : Nat) : (tr.limited k).advance c o lattice entries first last distance =
      (tr.advance c o lattice entries first last distance).limited k := by
  unfold advance
  rw [show (tr.limited k).table = tr.table.withMaxSpan k from rfl, h]
  split
  · rfl
  · rfl

theorem beginWith_limited {k : Nat} {entries : List E} {tr : Track V L} {distance : Nat}
    (h : (tr.table.withMaxSpan k).covers distance = tr.table.covers distance) (first last : Nat) :
    (tr.limited k).beginWith c entries first last distance =
      (tr.beginWith c entries first last distance).limited k := by
  unfold beginWith
  rw [show (tr.limited k).table = tr.table.withMaxSpan k from rfl, h]
  split
  · rfl
  · rfl

structure Idle (c : Carrier V E L) (o : Options V) (lattice : Lattice V)
    (entries : (first last : Nat) → List E) (first last : Nat) (tr : Track V L) : Prop where
  items : tr.items.get first last = []
  splits : tr.fromSplits c entries first last = []
  arcs : tr.fromArcs c o lattice first last = []

theorem Idle.advance_eq {entries : (first last : Nat) → List E} {first last : Nat}
    {tr : Track V L} (h : tr.Idle c o lattice entries first last) (distance : Nat) :
    tr.advance c o lattice entries first last distance = tr := by
  unfold advance
  split
  · simp only [h.arcs, h.splits]
    obtain ⟨table, items⟩ := tr
    simp only [Track.mk.injEq, true_and]
    exact Chart.modify_eq_self _ (List.append_nil _)
  · rfl

end Track

theorem Grammar.ruleCount_withMaxSpan (g : Grammar V) (k : Nat) :
    Grammar.ruleCount (g.map fun t => t.withMaxSpan k) = g.ruleCount := by
  unfold Grammar.ruleCount
  rw [List.flatMap_map]
  rfl

variable [Scalar V] {g : Grammar V} {o : Options V} {lattice : Lattice V} {pruner : Pruner}

namespace SpanBuild

variable {site : Site V} {distance : Nat}

theorem round_withMaxSpan {k : Nat}
    (h : ∀ t ∈ g, (t.withMaxSpan k).covers distance = t.covers distance)
    (frontier : List Constituent) (b : SpanBuild V) :
    b.round site (g.map fun t => t.withMaxSpan k) distance frontier =
      b.round site g distance frontier := by
  unfold round
  have hfilter : (g.map fun t => t.withMaxSpan k).filter (fun t => t.covers distance) =
      (g.filter fun t => t.covers distance).map fun t => t.withMaxSpan k := by
    rw [List.filter_map]
    exact congrArg _ (List.filter_congr h)
  rw [hfilter, List.foldl_map]
  rfl

theorem closeFrom_withMaxSpan {k : Nat}
    (h : ∀ t ∈ g, (t.withMaxSpan k).covers distance = t.covers distance)
    (fuel stagnant done : Nat) (b : SpanBuild V) :
    b.closeFrom site (g.map fun t => t.withMaxSpan k) distance fuel stagnant done =
      b.closeFrom site g distance fuel stagnant done := by
  induction fuel generalizing stagnant done b with
  | zero => rfl
  | succ fuel ih => simp only [closeFrom, round_withMaxSpan h, ih]

theorem close_withMaxSpan {k : Nat}
    (h : ∀ t ∈ g, (t.withMaxSpan k).covers distance = t.covers distance) (b : SpanBuild V) :
    b.close site (g.map fun t => t.withMaxSpan k) distance = b.close site g distance := by
  simp only [close, roundLimit, Grammar.ruleCount_withMaxSpan, closeFrom_withMaxSpan h]

theorem close_of_found_eq_nil {b : SpanBuild V} (h : b.found = []) :
    b.close site g distance = b := by
  unfold close roundLimit
  split
  · rfl
  · rw [closeFrom]
    simp [h]

end SpanBuild

namespace ForestState

def limited (k : Nat) (st : ForestState V) : ForestState V :=
  { st with tracks := st.tracks.map (Track.limited k) }

theorem fill_limited {k : Nat} {st : ForestState V} {first last : Nat}
    (htables : ∀ tr ∈ st.tracks, tr.table ∈ g)
    (h : ∀ t ∈ g, (t.withMaxSpan k).covers (lattice.distanceTable.length first last) =
      t.covers (lattice.distanceTable.length first last)) :
    fill (g.map fun t => t.withMaxSpan k) o lattice pruner (st.limited k) (first, last) =
      (fill g o lattice pruner st (first, last)).limited k := by
  have hadvanced : advanced o lattice (st.limited k) first last =
      (advanced o lattice st first last).map (Track.limited k) := by
    rw [advanced, advanced, limited, List.map_map, List.map_map]
    exact List.map_congr_left fun tr htr => Track.advance_limited (h _ (htables tr htr)) _ _
  have hbuilt : built (g.map fun t => t.withMaxSpan k) o lattice pruner (st.limited k) first last =
      built g o lattice pruner st first last := by
    rw [built, built, SpanBuild.close_withMaxSpan h, hadvanced, List.flatMap_map]
    rfl
  cases hskip : pruner.skipsSpan first last with
  | true =>
    rw [fill_of_skipped hskip, fill_of_skipped hskip, hadvanced]
    rfl
  | false =>
    rw [fill_of_not_skipped hskip, fill_of_not_skipped hskip, hbuilt, hadvanced]
    have hbegun : ∀ tr ∈ advanced o lattice st first last, tr.table ∈ g := by
      intro tr htr
      obtain ⟨tr', htr', rfl⟩ := List.mem_map.mp htr
      rw [Track.table_advance]
      exact htables tr' htr'
    simp only [limited, List.map_map]
    congr 1
    exact List.map_congr_left fun tr htr => Track.beginWith_limited (h _ (hbegun tr htr)) _ _

theorem fill_of_idle {st : ForestState V} {first last : Nat}
    (h : ∀ tr ∈ st.tracks, tr.Idle Match.carrier o lattice st.found.get first last)
    (hfound : st.found.get first last = []) : fill g o lattice pruner st (first, last) = st := by
  have hadvanced : advanced o lattice st first last = st.tracks := by
    rw [advanced, List.map_congr_left fun tr htr => (h tr htr).advance_eq _, List.map_id']
  have hmatched : st.tracks.flatMap (Track.completed first last) = [] := by
    refine List.flatMap_eq_nil_iff.mpr fun tr htr => ?_
    rw [Track.completed, (h tr htr).items, List.flatMap_nil]
  cases hskip : pruner.skipsSpan first last with
  | true => rw [fill_of_skipped hskip, hadvanced]
  | false =>
    have hbuilt : built g o lattice pruner st first last = ⟨st.graph, []⟩ := by
      rw [built, hadvanced, hmatched]
      exact SpanBuild.close_of_found_eq_nil rfl
    have hbegun : ∀ distance, st.tracks.map
        (Track.beginWith Match.carrier [] first last distance) = st.tracks := by
      intro distance
      rw [List.map_congr_left fun tr _ => Track.beginWith_nil, List.map_id']
    have hset : st.found.set first last [] = st.found := Chart.modify_eq_self _ hfound.symm
    rw [fill_of_not_skipped hskip, hbuilt, hadvanced]
    simp only [SpanBuild.sorted, List.mergeSort_nil, hbegun, hset]

section

variable {done rest : List (Nat × Nat)} {first last : Nat}
  (hsplit : Chart.spansByLength lattice.size = done ++ (first, last) :: rest)
include hsplit

theorem idle_upTo (hgap : lattice.Gapless) (hno : ∀ d, ¬lattice.Path first last d)
    {tr : Track V (Match V)} (htr : tr ∈ (upTo g o lattice pruner done).tracks) :
    tr.Idle Match.carrier o lattice (upTo g o lattice pruner done).found.get first last := by
  obtain ⟨ledger, hran⟩ : ∃ ledger, Ran g o lattice pruner done (upTo g o lattice pruner done)
      ledger := exists_ran hsplit
  rw [hran.tracks] at htr
  obtain ⟨t, -, rfl⟩ := List.mem_map.mp htr
  have hs := Chart.isSpan_of_split hsplit
  have hs : first < last ∧ last ≤ lattice.size := hs
  have hfilled := Track.filled_after (c := Match.carrier) (o := o) (t := t)
    (@nodup_cells _ _ g o lattice pruner) hsplit
  -- an item is only where a path leads
  have hpath : ∀ j ≤ lattice.size, first ≤ j → ∀ item ∈ (Track.after Match.carrier o lattice
      (cells g o lattice pruner) t done).items.get first j, ∃ d, lattice.Path first j d := by
    intro j hj hle item hitem
    obtain ⟨x, ⟨hover, -⟩, -⟩ := ((hfilled.cells first j hle hj).mem_iff item).mp hitem
    exact hover.exists_path fun p q d hd => exists_path_of_mem_cells (hover.mem_placed hd).2.2.2
  refine ⟨List.eq_nil_iff_forall_not_mem.mpr fun item hitem => ?_,
    List.flatMap_eq_nil_iff.mpr fun middle hmiddle => ?_, ?_⟩
  · obtain ⟨d, hd⟩ := hpath last hs.2 (Nat.le_of_lt hs.1) item hitem
    exact hno d hd
  · have hm := List.mem_range'_1.mp hmiddle
    rw [Item.overEntries_eq]
    refine List.flatMap_eq_nil_iff.mpr fun item hitem => ?_
    refine List.filterMap_eq_nil_iff.mpr fun c hc => ?_
    obtain ⟨d, hd⟩ := hpath middle (by omega) (by omega) item hitem
    have hcell : (middle, last) ∉ (first, last) :: rest := fun hmem =>
      Chart.disjoint_rest hsplit ((Chart.mem_done_iff hsplit).mpr
        ⟨by simp only; omega, hs.2, .inl (by simp only; omega)⟩) hmem
    rw [get_upTo hsplit hcell] at hc
    obtain ⟨d', hd'⟩ := exists_path_of_mem_cells hc
    exact absurd (hd.trans hd') (hno _)
  · -- an arc that is taken here leaves the position before, so one of length 1 ends here
    unfold Track.fromArcs
    split
    · rfl
    · refine List.flatMap_eq_nil_iff.mpr fun a ha => List.filterMap_eq_nil_iff.mpr
        fun item hitem => ?_
      obtain ⟨d, hd⟩ := hpath (last - 1) (by omega) (by omega) item hitem
      obtain ⟨d', hd'⟩ := hgap.path_succ hd ha
      rw [Nat.sub_add_cancel (by omega)] at hd'
      exact absurd hd' (hno d')

end

theorem upTo_withMaxSpan (hfree : ∀ t ∈ g, t.maxSpan = none) (hgap : lattice.Gapless) {k : Nat}
    (hk : lattice.size ≤ k) {done rest : List (Nat × Nat)}
    (hsplit : Chart.spansByLength lattice.size = done ++ rest) :
    upTo (g.map fun t => t.withMaxSpan k) o lattice pruner done =
      (upTo g o lattice pruner done).limited k := by
  induction done using List.reverseRecOn generalizing rest with
  | nil =>
    simp only [upTo, List.foldl_nil, start, limited, List.map_map]
    congr 1
    refine List.map_congr_left fun t ht => ?_
    simp only [Function.comp_apply, Track.start, Track.limited, RuleTable.covers_of_maxSpan_eq_none
      (hfree t ht), (RuleTable.covers_withMaxSpan t k 0).mpr (Nat.zero_le k)]
  | append_singleton done s ih =>
    obtain ⟨first, last⟩ := s
    rw [List.append_assoc] at hsplit
    have hs := Chart.isSpan_of_split hsplit
    rw [upTo_append, upTo_append, ih hsplit]
    obtain ⟨ledger, hran⟩ : ∃ ledger, Ran g o lattice pruner done (upTo g o lattice pruner done)
        ledger := exists_ran hsplit
    by_cases hpath : ∃ d, lattice.Path first last d
    · -- the distance is at most the length of the span, which is within the limit
      obtain ⟨d, hd⟩ := hpath
      refine fill_limited (fun tr htr => ?_) fun t ht => ?_
      · rw [hran.tracks] at htr
        obtain ⟨t, ht, rfl⟩ := List.mem_map.mp htr
        rw [(Track.filled_after (@nodup_cells _ _ g o lattice pruner) hsplit).table]
        exact ht
      · have hbounds := hd.bounds
        have hlength := hd.length_le
        rw [RuleTable.covers_of_maxSpan_eq_none (hfree t ht),
          (RuleTable.covers_withMaxSpan t k _).mpr (by omega)]
    · -- with the limit or without, there is nothing to match over the span
      have hno : ∀ d, ¬lattice.Path first last d := fun d hd => hpath ⟨d, hd⟩
      have hblank : (upTo g o lattice pruner done).found.get first last = [] :=
        get_upTo_blank (Chart.not_mem_done hsplit)
      have hidle : ∀ tr ∈ (upTo g o lattice pruner done).tracks, tr.Idle Match.carrier o lattice
          (upTo g o lattice pruner done).found.get first last :=
        fun tr htr => idle_upTo hsplit hgap hno htr
      rw [fill_of_idle hidle hblank]
      refine fill_of_idle (fun tr htr => ?_) hblank
      obtain ⟨tr', htr', rfl⟩ := List.mem_map.mp htr
      have hsame := hidle tr' htr'
      exact ⟨hsame.items, hsame.splits, hsame.arcs⟩

end ForestState

open ForestState

theorem forest_withMaxSpan (hfree : ∀ t ∈ g, t.maxSpan = none) (hgap : lattice.Gapless) {k : Nat}
    (hk : lattice.size ≤ k) :
    forest (g.map fun t => t.withMaxSpan k) o lattice pruner = forest g o lattice pruner := by
  have hrun : run (g.map fun t => t.withMaxSpan k) o lattice pruner =
      (run g o lattice pruner).limited k :=
    upTo_withMaxSpan hfree hgap hk (List.append_nil _).symm
  cases hempty : lattice.isEmpty with
  | true => rw [forest_of_empty hempty, forest_of_empty hempty]
  | false =>
    rw [forest_eq hempty, forest_eq hempty, goalGraph, goalGraph, hrun]
    rfl

namespace ForestParser

/-- In a lattice without a gap, a parser with a limit that is no less than the size of the lattice
gives the graph of the parser without limits. -/
theorem parse_withMaxSpan (p q : ForestParser V) (lattice : Lattice V) (pruner : Pruner)
    (hfree : ∀ t ∈ p.grammar, t.maxSpan = none) (hgap : lattice.Gapless) {k : Nat}
    (hk : lattice.size ≤ k) (hgrammar : q.grammar = p.grammar.map fun t => t.withMaxSpan k)
    (hoptions : q.options = p.options) :
    (q.parse lattice pruner).2 = (p.parse lattice pruner).2 := by
  rw [parse_eq_forest, parse_eq_forest, hgrammar, hoptions, forest_withMaxSpan hfree hgap hk]

/-- A lattice with an arc that is longer than one position beside the arcs of a sentence. -/
theorem parse_withMaxSpan_of_bypass :
    let p := ForestParser.new [RuleTable.ofText "[S] ||| a b"] Options.standard
    let q := ForestParser.new [(RuleTable.ofText "[S] ||| a b").withMaxSpan 3] Options.standard
    let lattice : Lattice Float :=
      ⟨[[⟨⟨"a"⟩, 1, NameMap.empty⟩], [⟨⟨"b"⟩, 2, NameMap.empty⟩, ⟨⟨"c"⟩, 1, NameMap.empty⟩], []],
        by decide⟩
    ((∀ t ∈ p.grammar, t.maxSpan = none) ∧ lattice.Gapless ∧ lattice.size ≤ 3 ∧
      (q.grammar = p.grammar.map fun t => t.withMaxSpan 3) ∧ q.options = p.options) ∧
      (p.parse lattice .none).2.isValid = true ∧
      (q.parse lattice .none).2 = (p.parse lattice .none).2 := by
  intro p q lattice
  have hfree : ∀ t ∈ p.grammar, t.maxSpan = none := by decide +kernel
  have hgap : lattice.Gapless := by
    unfold Lattice.Gapless
    decide +kernel
  have hvalid : (p.parse lattice .none).2.isValid = true := by
    rw [parse_eq_forest, isValid_forest_iff_ne_nil]
    decide +kernel
  exact ⟨⟨hfree, hgap, Nat.le_refl 3, rfl, rfl⟩, hvalid,
    parse_withMaxSpan p q lattice .none hfree hgap (Nat.le_refl 3) rfl rfl⟩

/-- From 1 an arc leads to 3 and none to 2: there is no path over the span at which the arc is
taken, so a limit of any size keeps it from being taken. -/
theorem parse_withMaxSpan_ne_of_gap :
    let p := ForestParser.new [RuleTable.ofText "[S] ||| a b"] Options.standard
    let q := ForestParser.new [(RuleTable.ofText "[S] ||| a b").withMaxSpan 3] Options.standard
    let lattice : Lattice Float :=
      ⟨[[⟨⟨"a"⟩, 1, NameMap.empty⟩], [⟨⟨"b"⟩, 2, NameMap.empty⟩], []], by decide⟩
    (p.grammar.IsText ∧ lattice.size ≤ 3 ∧
      (q.grammar = p.grammar.map fun t => t.withMaxSpan 3) ∧ q.options = p.options) ∧
      (q.parse lattice .none).2 ≠ (p.parse lattice .none).2 := by
  intro p q lattice
  refine ⟨⟨Grammar.isText_ofText _, Nat.le_refl 3, rfl, rfl⟩, fun h => ?_⟩
  have hvalid : (p.parse lattice .none).2.isValid = true := by
    rw [parse_eq_forest, isValid_forest_iff_ne_nil]
    decide +kernel
  have hnone : goalCells q.grammar q.options lattice .none = [] := by decide +kernel
  rw [← h, parse_eq_forest] at hvalid
  exact isValid_forest_iff_ne_nil.mp hvalid hnone

end ForestParser

end ParseForest
