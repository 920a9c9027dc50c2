import ParseForest.Proofs.Posterior.Chart
import ParseForest.Proofs.Tables.Outside

/-!
# Posteriors from tables

A parse writes the posteriors into the chart that it is given, which it makes anew first. The
numbers of a span that have both an inside and an outside score are gone through, and each one
whose product is not zero is entered with its label. What it answers is what the scoring parser
says, whatever the tables and the chart have held before.
-/

namespace ParseForest

variable {V S : Type} [Score S]

structure ScoreMemory (S : Type) where
  tables : ScoreTables S
  chart : ScoreChart S

namespace ScoreCells

def spanPosteriors? (symbols : Array Symbol) (goalInside : S) (inside outside : Array S)
    (cell : LabelMap S) : Option (LabelMap S) :=
  (List.range (min inside.size outside.size)).foldlM (fun cell id => do
    let joint := Score.mul (scoreAt inside id) (scoreAt outside id)
    if Score.isZero joint then return cell
    else
      let label ← symbols[id]?
      return LabelMap.insert cell label (Score.div joint goalInside)) cell

def enterSpan? (goalInside : S) (s : ScoreCells S) (chart : ScoreChart S) (span : Nat × Nat) :
    Option (ScoreChart S) := do
  let (first, last) := span
  let inside ← s.inside.get? first last
  let outside ← s.outside.get? first last
  let cell ← chart.get? first last
  let cell ← spanPosteriors? s.cache.labels.symbols goalInside inside outside cell
  chart.set? first last cell

def posteriors? (goalInside : S) (size : Nat) (chart : ScoreChart S) (s : ScoreCells S) :
    Option (ScoreChart S) := do
  let spans ← Chart.spansByLength? size
  spans.foldlM (enterSpan? goalInside s) chart

end ScoreCells

namespace ScoreMemory

variable (g : Grammar V) (w : Weighting V S) (o : Options V) (order : ClosureOrder)
  (lattice : Lattice V) (pruner : Pruner)

def parse? (m : ScoreMemory S) : Option (ScoreMemory S × Bool) := do
  let m := { m with chart := Chart.new lattice.size }
  if lattice.isEmpty then return (m, false)
  else
    let tables ← m.tables.runInside? g w o order lattice pruner
    let m := { m with tables }
    let cell ← tables.cells.inside.get? 0 lattice.size
    let goalInside := scoreAt cell tables.cells.goal
    if Score.isZero goalInside then return (m, false)
    else
      let cells ← tables.cells.runOutside? lattice.size
      let chart ← cells.posteriors? goalInside lattice.size m.chart
      return (⟨{ tables with cells }, chart⟩, true)

end ScoreMemory

/-! ## The posteriors of a span -/

def normalized (goalInside inside outside : S) : Option S :=
  if Score.isZero (Score.mul inside outside) then none
  else some (Score.div (Score.mul inside outside) goalInside)

namespace ScoreCells

def entered (labels : List Symbol) (goalInside : S) (inside outside : LabelMap S) (n : Nat)
    (label : Symbol) : Option S :=
  if label ∈ labels.take n then
    normalized goalInside (scoreOf inside label) (scoreOf outside label)
  else none

theorem yields_spanPosteriors {symbols : Array Symbol} {labels : List Symbol}
    (hsymbols : ∀ id : Nat, symbols[id]? = labels[id]?)
    {inside' outside' : Array S} {inside outside : LabelMap S}
    (hinside : Stored labels Score.zero IsScore inside' inside)
    (houtside : Stored labels Score.zero IsScore outside' outside) (goalInside : S)
    {cell : LabelMap S} (hcell : ∀ label, LabelMap.get? cell label = none) :
    Yields (spanPosteriors? symbols goalInside inside' outside' cell) fun c =>
      ∀ label, LabelMap.get? c label =
        entered labels goalInside inside outside (min inside'.size outside'.size) label := by
  refine yields_foldlM_range (P := fun n c => ∀ label, LabelMap.get? c label =
    entered labels goalInside inside outside n label) (fun id hid c hc => ?_) fun label => ?_
  · have hlt : id < labels.length := by
      have := hinside.size
      omega
    obtain ⟨next, hnext⟩ : ∃ next, labels[id]? = some next := ⟨_, List.getElem?_eq_getElem hlt⟩
    have htake (label : Symbol) : label ∈ labels.take (id + 1) ↔
        label ∈ labels.take id ∨ label = next := by
      simp [List.take_add_one, hnext]
    rw [hinside.scoreAt_eq hnext, houtside.scoreAt_eq hnext]
    simp only
    split
    · rename_i hzero
      refine yields_some fun label => ?_
      simp only [hc, entered, htake]
      by_cases hl : label = next
      · simp [hl, normalized, hzero]
      · simp [hl]
    · rename_i hzero
      rw [hsymbols, hnext]
      refine yields_some fun label => ?_
      simp only [LabelMap.insert, LabelMap.get?_upsert, hc, entered, htake]
      by_cases hl : label = next
      · simp [hl, normalized, hzero]
      · simp [hl]
  · simp [hcell, entered]

variable {g : Grammar V} {w : Weighting V S} {o : Options V} {order : ClosureOrder} {size : Nat}
  {known : Set SpanLabel} {s : ScoreCells S} {st t : ScoreState V S}

def enteredAt (goalInside : S) (s : ScoreCells S) (t : ScoreState V S) (i j : Nat) :
    Symbol → Option S :=
  entered t.labels goalInside (t.inside.get i j) (t.outside.get i j)
    (min (s.inside.get i j).size (s.outside.get i j).size)

structure Entered (goalInside : S) (s : ScoreCells S) (t : ScoreState V S) (size : Nat)
    (done : List (Nat × Nat)) (c : ScoreChart S) : Prop where
  size : c.size = size
  get : ∀ i j label, LabelMap.get? (c.get i j) label =
    if (i, j) ∈ done then enteredAt goalInside s t i j label else none

theorem Entered.enterSpan (h : s.Follows g w o order size known t) {goalInside : S}
    {done : List (Nat × Nat)} {c : ScoreChart S} (hc : Entered goalInside s t size done c)
    {first last : Nat} (hspan : first < last ∧ last ≤ size) (hnew : (first, last) ∉ done) :
    Yields (enterSpan? goalInside s c (first, last))
      (Entered goalInside s t size (done ++ [(first, last)])) := by
  have hchart : c.IsSpan first last := ⟨Nat.le_of_lt hspan.1, hc.size.symm ▸ hspan.2⟩
  have hin := h.inside.isSpan_iff.mpr (h.sized.isSpan hspan).2.2.2
  have hout : s.outside.IsSpan first last :=
    h.outside.isSpan_iff.mpr ⟨Nat.le_of_lt hspan.1, h.reach.symm ▸ hspan.2⟩
  have hblank (label : Symbol) : LabelMap.get? (c.get first last) label = none := by
    rw [hc.get, if_neg hnew]
  unfold enterSpan?
  simp only [Chart.get?_eq_some_get hin, Chart.get?_eq_some_get hout,
    Chart.get?_eq_some_get hchart, Option.bind_eq_bind, Option.bind_some]
  refine (yields_spanPosteriors h.cache.numbers.symbol (h.inside.cell first last)
    (h.outside.cell first last) goalInside hblank).bind fun cell hcell => ?_
  rw [Chart.set?_eq_some hchart]
  refine yields_some ⟨(Chart.size_modify ..).trans hc.size, fun i j label => ?_⟩
  rw [Chart.get_set _ _ _ _ _ _ hchart]
  by_cases hij : i = first ∧ j = last
  · obtain ⟨rfl, rfl⟩ := hij
    simp [hcell, enteredAt]
  · simp [hij, hc.get]

theorem yields_posteriors (h : s.Follows g w o order size known t) (goalInside : S) :
    Yields (s.posteriors? goalInside size (Chart.new size))
      (Entered goalInside s t size (Chart.spansByLength size)) := by
  unfold posteriors?
  rw [Chart.spansByLength?_eq]
  refine yields_foldlM_prefix (P := Entered goalInside s t size) ?_ ⟨rfl, fun i j label => ?_⟩
  · rintro done ⟨first, last⟩ rest hsplit c hc
    exact hc.enterSpan h (Chart.isSpan_of_split hsplit) (Chart.not_mem_done hsplit)
  · rw [Chart.get_new, if_neg List.not_mem_nil]
    rfl

theorem get?_spanPosteriors_eq {goalInside : S} {i j : Nat}
    (hnodup : (LabelMap.keys (t.inside.get i j)).Nodup) (label : Symbol) :
    LabelMap.get? (t.spanPosteriors goalInside i j) label =
      (LabelMap.get? (t.inside.get i j) label).bind fun x =>
        normalized goalInside x (t.outsideOf ⟨i, j, label⟩) := by
  rw [← LabelMap.get?_filterMap (fun l x => normalized goalInside x (t.outsideOf ⟨i, j, l⟩)) hnodup]
  congr 1
  refine List.filterMap_congr fun p _ => ?_
  simp only [normalized]
  split <;> rfl

/-- Where scores other than zero alone count, the numbers that are gone through leave out nothing
and put in nothing else. -/
theorem Descends.enteredAt_eq
    (h : Descends g w o order size known st (Chart.spansFromLong size) s t)
    (hzero : Score.isZero (Score.zero : S) = true)
    (hproduct : Score.isZero (Score.mul Score.zero Score.zero : S) = true)
    (hgoal : Score.isZero (st.insideOf ⟨0, size, o.goal⟩) = false) (goalInside : S) {i j : Nat}
    (hspan : i < j ∧ j ≤ size) (label : Symbol) :
    enteredAt goalInside s t i j label =
      LabelMap.get? (t.spanPosteriors goalInside i j) label := by
  have hwide : (s.inside.get i j).size ≤ (s.outside.get i j).size :=
    h.wide (i, j) (Chart.mem_spansFromLong.mpr hspan)
  have hstored := h.follows.inside.cell i j
  rw [get?_spanPosteriors_eq hstored.nodup, enteredAt, entered, Nat.min_eq_left hwide]
  cases hget : LabelMap.get? (t.inside.get i j) label with
  | some x =>
    have hmem : label ∈ t.labels.take (s.inside.get i j).size := by
      obtain ⟨id, hid, hlabel⟩ := hstored.held label x hget
      exact List.mem_take_iff_getElem.mpr ⟨id, by
        have := (List.getElem?_eq_some_iff.mp hlabel).1
        omega, (List.getElem?_eq_some_iff.mp hlabel).2⟩
    rw [if_pos hmem, scoreOf, hget]
    rfl
  | none =>
    have hnone : LabelMap.get? (st.inside.get i j) label = none := by
      obtain ⟨outside, rfl⟩ := h.only
      exact hget
    have hout : scoreOf (t.outside.get i j) label = Score.zero := by
      rw [scoreOf]
      by_cases hheld : (LabelMap.get? (t.outside.get i j) label).isSome = true
      · rcases h.held ⟨i, j, label⟩ hheld with hin | heq
        · simp [ScoreState.HasInside, hnone] at hin
        · rw [← heq, ScoreState.insideOf, scoreOf, hnone] at hgoal
          exact absurd hzero (Bool.eq_false_iff.mp hgoal)
      · simp [Option.not_isSome_iff_eq_none.mp hheld]
    rw [scoreOf, hget, hout]
    simp [normalized, hproduct]

end ScoreCells

/-! ## Parses -/

variable {g : Grammar V} {w : Weighting V S} {o : Options V} {order : ClosureOrder}
  {lattice : Lattice V} {pruner : Pruner}

theorem ScoreState.Settled.led {closure : Symbol → LabelMap S} {done : List (Nat × Nat)}
    {st : ScoreState V S} (h : st.Settled closure o pruner lattice.size done) :
    ScoreCells.Led (ScoreTables.finished done st) st where
  known _ hl := h.hasInside_of_final hl.2
  closed _ _ _ _ he := h.hasInside_of_unary false he
  final _ _ _ _ he := h.hasInside_of_unary true he

structure ScoreChart.Same (c d : ScoreChart S) : Prop where
  size : c.size = d.size
  score : ∀ i j label, LabelMap.get? (c.get i j) label = LabelMap.get? (d.get i j) label

theorem posteriorsIn_of_empty (hempty : lattice.isEmpty = true) :
    posteriorsIn order g w o lattice pruner = ⟨false, Chart.new lattice.size⟩ := by
  rw [posteriorsIn, ScoreParser.parseIn_of_empty _ hempty]

theorem posteriorsIn_of_failed (hempty : lattice.isEmpty = false)
    (hzero : Score.isZero ((ScoreState.scored order g w o lattice pruner).insideOf
      ⟨0, lattice.size, o.goal⟩) = true) :
    posteriorsIn order g w o lattice pruner = ⟨false, Chart.new lattice.size⟩ := by
  rw [posteriorsIn, ScoreParser.parseIn_eq hempty, if_pos hzero]

theorem posteriorsIn_of_parsed (hempty : lattice.isEmpty = false)
    (hzero : Score.isZero ((ScoreState.scored order g w o lattice pruner).insideOf
      ⟨0, lattice.size, o.goal⟩) = false) :
    posteriorsIn order g w o lattice pruner =
      ⟨true, ((ScoreState.scored order g w o lattice pruner).runOutside o.goal
        lattice.size).posteriors ((ScoreState.scored order g w o lattice pruner).insideOf
          ⟨0, lattice.size, o.goal⟩) lattice.size⟩ := by
  rw [posteriorsIn, ScoreParser.parseIn_eq hempty, hzero]
  rfl

theorem ScoreState.size_posteriors (t : ScoreState V S) (goalInside : S) (size : Nat) :
    (t.posteriors goalInside size).size = size := by
  have key (spans : List (Nat × Nat)) (c : ScoreChart S) : (spans.foldl (fun c s =>
      c.set s.1 s.2 (t.spanPosteriors goalInside s.1 s.2)) c).size = c.size := by
    induction spans generalizing c with
    | nil => rfl
    | cons s spans ih => rw [List.foldl_cons, ih, Chart.set, Chart.size_modify]
  exact key _ _

namespace ScoreMemory

structure Tells (g : Grammar V) (w : Weighting V S) (o : Options V) (order : ClosureOrder)
    (lattice : Lattice V) (pruner : Pruner) (r : ScoreMemory S × Bool) : Prop where
  parsed : r.2 = (posteriorsIn order g w o lattice pruner).parsed
  size : r.1.chart.size = lattice.size
  chart : Score.isZero (Score.zero : S) = true →
    Score.isZero (Score.mul Score.zero Score.zero : S) = true →
      r.1.chart.Same (posteriorsIn order g w o lattice pruner).scores

theorem yields_parse (hclosed : ∀ t ∈ g, t.Closed)
    (hknows : lattice.isEmpty = true ∨ pruner.knows lattice.size = true) (m : ScoreMemory S) :
    Yields (parse? g w o order lattice pruner m) (Tells g w o order lattice pruner) := by
  unfold parse?
  cases hempty : lattice.isEmpty with
  | true =>
    have hblank : posteriorsIn order g w o lattice pruner = ⟨false, Chart.new lattice.size⟩ :=
      posteriorsIn_of_empty hempty
    refine yields_some ⟨by rw [hblank], rfl, fun _ _ => ?_⟩
    rw [hblank]
    exact ⟨rfl, fun _ _ _ => rfl⟩
  | false =>
    replace hknows := hknows.resolve_left (by simp [hempty])
    simp only [Bool.false_eq_true, if_false]
    refine (ScoreTables.yields_runInside hclosed hknows m.tables).bind fun tables htables => ?_
    have hcells := htables.cells
    have hgoal : tables.cells.inside.IsSpan 0 lattice.size :=
      hcells.inside.isSpan_iff.mpr ⟨Nat.zero_le _, Nat.le_of_eq hcells.sized.inside.symm⟩
    have hinside : scoreAt (tables.cells.inside.get 0 lattice.size) _ = _ :=
      hcells.inside_eq hcells.goal
    rw [Chart.get?_eq_some_get hgoal, Option.bind_eq_bind, Option.bind_some, hinside]
    have hsettled : ScoreState.Settled (unaryClosureIn order g w o) o pruner lattice.size
        (Chart.spansByLength lattice.size) (ScoreState.runInside g w o (unaryClosureIn order g w o)
          lattice pruner) := ScoreState.settled_runInside g
    split
    · rename_i hzero
      have hblank := posteriorsIn_of_failed hempty hzero
      exact yields_some ⟨by rw [hblank], rfl,
        fun _ _ => by rw [hblank]; exact ⟨rfl, fun _ _ _ => rfl⟩⟩
    · rename_i hzero
      replace hzero := Bool.eq_false_iff.mpr hzero
      have hblank (i j : Nat) : (ScoreState.runInside g w o (unaryClosureIn order g w o) lattice
          pruner).outside.get i j = [] := by
        rw [hsettled.outside, Chart.get_new]
        rfl
      refine (ScoreCells.Descends.runOutside tables.cells hcells hsettled.led hblank).bind
        fun cells hout => ?_
      refine (ScoreCells.yields_posteriors hout.follows _).bind fun chart hchart => ?_
      have hfound := posteriorsIn_of_parsed hempty hzero
      refine yields_some ⟨by rw [hfound], hchart.size, fun hlaw hlaw' => ?_⟩
      rw [hfound]
      refine ⟨hchart.size.trans (ScoreState.size_posteriors _ _ _).symm, fun i j label => ?_⟩
      have hspans (span : Nat × Nat) (hmem : span ∈ Chart.spansByLength lattice.size) :
          (Chart.new lattice.size : ScoreChart S).IsSpan span.1 span.2 := by
        have := Chart.mem_spansByLength.mp hmem
        exact ⟨Nat.le_of_lt this.1, this.2⟩
      rw [hchart.get]
      unfold ScoreState.posteriors
      rw [Chart.get_foldl_set _ _ hspans, Chart.get_new]
      split
      · rename_i hspan
        exact hout.enteredAt_eq hlaw hlaw' hzero _ (Chart.mem_spansByLength.mp hspan) label
      · rfl

end ScoreMemory

end ParseForest
