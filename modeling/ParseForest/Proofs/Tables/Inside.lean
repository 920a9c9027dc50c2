import ParseForest.Proofs.Posterior.Sources
import ParseForest.Proofs.Tables.Scores

/-!
# Filling the spans of a scoring parser

A parse makes the charts anew, clears the labels with their closures, and numbers the goal label
first. Then spans are filled from short to long.
-/

namespace ParseForest

variable {V S : Type}

namespace ScoreTables

def blank : ScoreTables S :=
  ⟨#[], ⟨LabelTable.blank, #[]⟩, 0, Chart.new 0, Chart.new 0, Chart.new 0, Chart.new 0,
    Chart.new 0⟩

def reset (g : Grammar V) (o : Options V) (size : Nat) (m : ScoreTables S) : ScoreTables S :=
  let (labels, goal) := LabelTable.blank.number o.goal
  { m with
    actives := Array.replicate g.length (Chart.new size)
    cells := { m.cells with
      cache := ⟨labels, #[]⟩
      goal
      built := Chart.new size
      closed := Chart.new size
      final := Chart.new size
      inside := Chart.new size
      outside := Chart.new size } }

variable [Score S] (g : Grammar V) (w : Weighting V S) (o : Options V) (order : ClosureOrder)
  (lattice : Lattice V) (pruner : Pruner)

def finishSpan? (first last distance : Nat) (actives : ItemCharts (TableEdge S))
    (s : ScoreCells S) : Option (ScoreTables S) := do
  let site : Site V := ⟨o, pruner, first, last⟩
  let s ← s.closeSpan? g w o order site
  let (actives, s) ← (ScoreCells.parser w site).beginTables? g first last distance actives s
  return ⟨actives, s⟩

def fillSpan? (m : ScoreTables S) (span : Nat × Nat) : Option (ScoreTables S) := do
  let (first, last) := span
  let skipped ← pruner.skipsSpan? first last
  let distance ← lattice.distance? first last
  let parser := ScoreCells.parser w ⟨o, pruner, first, last⟩
  let (actives, s) ← forTables? g (parser.fillTable? o lattice first last distance skipped)
    (m.actives, m.cells)
  if skipped then return ⟨actives, s⟩
  else finishSpan? g w o order pruner first last distance actives s

def runInside? (m : ScoreTables S) : Option (ScoreTables S) := do
  let m := m.reset g o lattice.size
  let actives ← startTables? g (m.cells.carrier w) lattice.size m.actives
  let spans ← Chart.spansByLength? lattice.size
  spans.foldlM (fillSpan? g w o order lattice pruner) { m with actives }

/-! ## No access fails -/

variable {g w o order lattice pruner}

def finished (done : List (Nat × Nat)) (st : ScoreState V S) : Set SpanLabel :=
  {l | (l.first, l.last) ∈ done ∧ (st.final.get l.first l.last).has l.label = true}

structure Follows (g : Grammar V) (w : Weighting V S) (o : Options V) (order : ClosureOrder)
    (lattice : Lattice V) (done : List (Nat × Nat)) (m : ScoreTables S) (st : ScoreState V S) :
    Prop where
  cells : m.cells.Follows g w o order lattice.size (finished done st) st
  items : ItemCharts.Like g (TableEdge.Like st.labels (finished done st)) m.actives st.tracks
  sizes : ∀ tr ∈ st.tracks, tr.items.size = lattice.size

section Step

variable {m : ScoreTables S} {st : ScoreState V S} {done : List (Nat × Nat)} {first last : Nat}

theorem Follows.sizes_advanced (h : Follows g w o order lattice done m st) :
    ∀ tr ∈ ScoreState.advanced w o lattice st first last, tr.items.size = lattice.size := by
  intro tr htr
  obtain ⟨tr', htr', rfl⟩ := List.mem_map.mp htr
  rw [TableParser.size_advance, h.sizes tr' htr']

theorem Follows.fillTables (hclosed : ∀ t ∈ g, t.Closed)
    (h : Follows g w o order lattice done m st) (hspan : first < last ∧ last ≤ lattice.size)
    (hshorter : ∀ middle, first < middle → middle < last → (middle, last) ∈ done)
    (hnew : (first, last) ∉ done) (hknows : pruner.knows last = true) (skipped : Bool) :
    Yields (forTables? g ((ScoreCells.parser w ⟨o, pruner, first, last⟩).fillTable? o lattice first
      last (lattice.distanceTable.length first last) skipped) (m.actives, m.cells)) fun r =>
        let t := if skipped then { st with tracks := ScoreState.advanced w o lattice st first last }
          else (ScoreState.matchedAt w o lattice st first last).foldl
            (ScoreState.buildLabel w ⟨o, pruner, first, last⟩)
            { st with tracks := ScoreState.advanced w o lattice st first last }
        ItemCharts.Like g (TableEdge.Like st.labels (finished done st)) r.1
          (ScoreState.advanced w o lattice st first last) ∧
          r.2.Follows g w o order lattice.size (finished done st) t ∧ st.labels <+: t.labels := by
  let R (s : ScoreCells S) (t : ScoreState V S) : Prop := s.final = m.cells.final ∧
    s.Follows g w o order lattice.size (finished done st) t ∧ st.labels <+: t.labels
  have hstart : R m.cells { st with tracks := ScoreState.advanced w o lattice st first last } :=
    ⟨rfl, h.cells.withTracks _, List.prefix_refl _⟩
  refine (TableParser.yields_fillTables (R := R) hclosed
    (fun s t hs => hs.2.1.standsFor hs.2.2)
    ?_ ?_ hspan h.sizes h.items skipped hstart).mono fun r hr => ⟨hr.1, hr.2.2⟩
  · intro s t hs middle hfirst hlast
    change Yields (s.entries? middle last) _
    rw [ScoreCells.entries?, hs.1]
    refine h.cells.entries ⟨hlast, hspan.2⟩ fun l hl => ?_
    obtain ⟨hfirst', hlast', -, hhas⟩ := ScoreState.mem_labelsAt.mp hl
    refine ⟨?_, ?_⟩
    · rw [hfirst', hlast']
      exact hshorter middle hfirst hlast
    · rw [hfirst', hlast']
      exact hhas
  · intro s t used' used pairs hs hused
    have hfresh : ∀ l ∈ finished done st, ¬(l.first = first ∧ l.last = last) := by
      intro l hl heq
      have hspan' : (l.first, l.last) = (first, last) := Prod.ext heq.1 heq.2
      exact hnew (hspan' ▸ hl.1)
    have hbuilt : Yields ((ScoreCells.parser w ⟨o, pruner, first, last⟩).build? s pairs used') _ :=
      hs.2.1.build hspan hknows hfresh (hused.mono hs.2.2 subset_rfl) pairs
    refine hbuilt.mono fun r hr => ?_
    exact ⟨hr.1.trans hs.1, hr.2.1, hs.2.2.trans hr.2.2⟩

omit [Score S] in
theorem finished_append {st' : ScoreState V S}
    (h : ∀ i j, ¬(i = first ∧ j = last) → st'.final.get i j = st.final.get i j)
    (hnew : (first, last) ∉ done) : finished done st ⊆ finished (done ++ [(first, last)]) st' := by
  rintro l ⟨hl, hhas⟩
  refine ⟨List.mem_append_left _ hl, ?_⟩
  rw [h l.first l.last fun heq => hnew (heq.1 ▸ heq.2 ▸ hl)]
  exact hhas

omit [Score S] in
theorem spans_append (h : ∀ span ∈ done, span.1 < span.2 ∧ span.2 ≤ lattice.size)
    (hspan : first < last ∧ last ≤ lattice.size) (st : ScoreState V S) :
    ∀ l ∈ finished (done ++ [(first, last)]) st, l.first < l.last ∧ l.last ≤ lattice.size := by
  rintro l ⟨hl, -⟩
  rcases List.mem_append.mp hl with hl | hl
  · exact h _ hl
  · obtain ⟨hfirst, hlast⟩ := Prod.ext_iff.mp (List.mem_singleton.mp hl)
    simp only at hfirst hlast
    omega

theorem local_closeLabels {n : Nat} (h : st.Sized n) (closure : Symbol → LabelMap S) (site : Site V)
    (hspan : site.first < site.last ∧ site.last ≤ n) (toFinal : Bool) (children : List Symbol) :
    ∃ steps, ScoreState.Local n site.first site.last st steps
      (children.foldl (ScoreState.closeLabel closure site toFinal) st) := by
  induction children using List.reverseRecOn with
  | nil => exact ⟨[], .refl h⟩
  | append_singleton children child ih =>
    obtain ⟨steps, hlocal⟩ := ih
    obtain ⟨more, hmore, -⟩ :=
      ScoreState.local_closeLabel hlocal.sized closure site hspan toFinal child
    rw [List.foldl_append]
    exact ⟨_, hlocal.trans hmore⟩

theorem local_closeSpan {n : Nat} (h : st.Sized n) (closure : Symbol → LabelMap S) (site : Site V)
    (hspan : site.first < site.last ∧ site.last ≤ n) :
    ∃ steps, ScoreState.Local n site.first site.last st steps (st.closeSpan closure site) := by
  obtain ⟨closes, hclose⟩ := local_closeLabels h closure site hspan false
    ((st.built.get site.first site.last).among st.labels)
  obtain ⟨finals, hfinal⟩ := local_closeLabels hclose.sized closure site hspan true _
  exact ⟨_, hclose.trans hfinal⟩

theorem finishSpan (hclosed : ∀ t ∈ g, t.Closed) {actives : ItemCharts (TableEdge S)}
    {s : ScoreCells S} {before : ScoreState V S}
    (hitems : ItemCharts.Like g (TableEdge.Like before.labels (finished done before)) actives
      st.tracks)
    (hsizes : ∀ tr ∈ st.tracks, tr.items.size = lattice.size)
    (hs : s.Follows g w o order lattice.size (finished done before) st)
    (hext : before.labels <+: st.labels)
    (hother : ∀ i j, ¬(i = first ∧ j = last) → st.final.get i j = before.final.get i j)
    (hdone : ∀ span ∈ done, span.1 < span.2 ∧ span.2 ≤ lattice.size)
    (hspan : first < last ∧ last ≤ lattice.size) (hnew : (first, last) ∉ done)
    (hknows : pruner.knows last = true) :
    Yields (finishSpan? g w o order pruner first last (lattice.distanceTable.length first last)
      actives s) (Follows g w o order lattice (done ++ [(first, last)]) ·
        ((st.closeSpan (unaryClosureIn order g w o) ⟨o, pruner, first, last⟩).beginSpan w first last
          (lattice.distanceTable.length first last))) := by
  unfold finishSpan? ScoreState.beginSpan
  have hclose : Yields (s.closeSpan? g w o order ⟨o, pruner, first, last⟩) _ :=
    hs.closeSpan hclosed hspan hknows
  refine hclose.bind fun s' ⟨hs', hext'⟩ => ?_
  obtain ⟨steps, hlocal⟩ :=
    local_closeSpan hs.sized (unaryClosureIn order g w o) ⟨o, pruner, first, last⟩ hspan
  generalize st.closeSpan (unaryClosureIn order g w o) ⟨o, pruner, first, last⟩ = st' at *
  have hfinal (i j : Nat) (hij : ¬(i = first ∧ j = last)) :
      st'.final.get i j = before.final.get i j :=
    (congrArg ScoreCell.final (hlocal.other i j hij)).trans (hother i j hij)
  have hknown := finished_append hfinal hnew
  have hpassed := hs'.pass hknown (spans_append hdone hspan st')
  have hentries := hpassed.entries hspan fun l hl => by
    obtain ⟨hfirst, hlast, -, hhas⟩ := ScoreState.mem_labelsAt.mp hl
    exact ⟨by rw [hfirst, hlast]; simp, by rw [hfirst, hlast]; exact hhas⟩
  refine (TableParser.yields_beginTables hclosed (hpassed.standsFor (List.prefix_refl _)) hentries
    hspan hsizes (hitems.mono fun _ _ => .mono (hext.trans hext') hknown)).bind
      fun (actives', s'') ⟨hitems', hrest⟩ => ?_
  simp only at hitems' hrest
  subst hrest
  rw [← hlocal.tracks] at hitems' hsizes
  refine yields_some ⟨hpassed.withTracks _, hitems', fun tr htr => ?_⟩
  obtain ⟨tr', htr', rfl⟩ := List.mem_map.mp htr
  rw [TableParser.size_beginWith, hsizes tr' htr']

theorem Follows.fillSpan (hclosed : ∀ t ∈ g, t.Closed)
    (h : Follows g w o order lattice done m st)
    (hdone : ∀ span ∈ done, span.1 < span.2 ∧ span.2 ≤ lattice.size)
    (hspan : first < last ∧ last ≤ lattice.size)
    (hshorter : ∀ middle, first < middle → middle < last → (middle, last) ∈ done)
    (hnew : (first, last) ∉ done) (hknows : pruner.knows last = true) :
    Yields (fillSpan? g w o order lattice pruner m (first, last))
      (Follows g w o order lattice (done ++ [(first, last)]) ·
        (ScoreState.fill order g w o lattice pruner st (first, last))) := by
  unfold fillSpan?
  simp only [Pruner.skipsSpan?_eq_some hknows, Lattice.distance?_eq_some, Option.bind_eq_bind,
    Option.bind_some]
  refine (h.fillTables hclosed hspan hshorter hnew hknows _).bind
    fun (actives, s) ⟨hitems, hs, hext⟩ => ?_
  cases hskip : pruner.skipsSpan first last with
  | true =>
    have hknown : finished done st ⊆ finished (done ++ [(first, last)]) st :=
      finished_append (fun _ _ _ => rfl) hnew
    simp only [hskip, if_true] at hs ⊢
    rw [ScoreState.fill_of_skipped hskip]
    exact yields_some ⟨hs.pass hknown (spans_append hdone hspan _),
      hitems.mono fun _ _ => .mono (List.prefix_refl _) hknown, h.sizes_advanced⟩
  | false =>
    simp only [hskip, Bool.false_eq_true, if_false] at hs hext ⊢
    rw [ScoreState.fill_of_left hskip]
    have hsized := (h.cells.withTracks (ScoreState.advanced w o lattice st first last)).sized
    obtain ⟨steps, hlocal, -⟩ := ScoreState.local_matched hsized w ⟨o, pruner, first, last⟩ hspan
      (ScoreState.matchedAt w o lattice st first last)
    exact finishSpan hclosed (hlocal.tracks.symm ▸ hitems) (hlocal.tracks.symm ▸ h.sizes_advanced)
      hs hext (fun i j hij => congrArg ScoreCell.final (hlocal.other i j hij)) hdone hspan hnew
      hknows

end Step

theorem cells_start (m : ScoreTables S) : (m.reset g o lattice.size).cells.Follows g w o order
    lattice.size (finished [] (ScoreState.start g w o lattice.size))
      (ScoreState.start g w o lattice.size) := by
  obtain ⟨hnumbers, hgoal⟩ := LabelTable.numbers_blank.number o.goal
  exact ⟨⟨hnumbers, fun id closure h => by simp [reset] at h⟩, hgoal,
    .new (.empty areEdges_none) _, .new (.empty areEdges_none) _, .new (.empty areEdges_none) _,
    .new (.empty rfl) _, .new (.empty rfl) _, ⟨rfl, rfl, rfl, rfl⟩, rfl,
    fun l hl => absurd hl.1 List.not_mem_nil⟩

theorem yields_runInside (hclosed : ∀ t ∈ g, t.Closed) (hknows : pruner.knows lattice.size = true)
    (m : ScoreTables S) : Yields (runInside? g w o order lattice pruner m)
      (Follows g w o order lattice (Chart.spansByLength lattice.size) ·
        (ScoreState.scored order g w o lattice pruner)) := by
  have hstart : (m.reset g o lattice.size).cells.Follows g w o order _ _ _ := cells_start m
  unfold runInside?
  refine (yields_startTables (hstart.standsFor (List.prefix_refl _)) hclosed lattice.size).bind
    fun actives hactives => ?_
  rw [Chart.spansByLength?_eq]
  refine yields_foldlM_prefix (P := fun done m => Follows g w o order lattice done m
    (ScoreState.upTo order g w o lattice pruner done)) ?_ ?_
  · rintro done ⟨first, last⟩ rest hsplit m hm
    have hspan := Chart.isSpan_of_split hsplit
    have hdone (span : Nat × Nat) (hmem : span ∈ done) : span.1 < span.2 ∧ span.2 ≤ lattice.size :=
      Chart.mem_spansByLength.mp (hsplit ▸ List.mem_append_left _ hmem)
    rw [ScoreState.upTo_append]
    refine hm.fillSpan hclosed hdone hspan (fun middle hfirst hlast => ?_)
      (Chart.not_mem_done hsplit) (Pruner.knows_of_le hknows hspan.2)
    exact (Chart.mem_done_iff hsplit).mpr ⟨hlast, hspan.2, Or.inl (by simp only; omega)⟩
  · refine ⟨hstart, hactives, fun tr htr => ?_⟩
    obtain ⟨t, -, rfl⟩ := List.mem_map.mp htr
    exact size_start _ _ _

end ScoreTables

end ParseForest
