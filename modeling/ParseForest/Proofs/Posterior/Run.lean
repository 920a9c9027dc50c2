import ParseForest.Proofs.Matched
import ParseForest.Proofs.Posterior.ClosureLoop
import ParseForest.Proofs.Posterior.Fill

/-!
# The run of the scoring parser

The parser is followed through the spans in the order in which it fills them. A span that is filled
does not change any more, and labels that come up later are none of its labels. So everything can
be said about the charts at the end of the run: the tracks have gone over the labels that the final
tier has there, and the cell of a span that is not pruned is what the steps at that span make of a
blank one, with one step of the first tier for every application over the span.
-/

namespace ParseForest

variable {V S E : Type} [Score S]

def Trail.arcScore (w : Weighting V S) (lattice : Lattice V) : Trail E → S
  | start => Score.one
  | entry x _ _ => x.arcScore w lattice
  | arc x p k =>
    match (lattice.arcsAt p)[k]? with
    | some a => Score.mul (x.arcScore w lattice) (w a.features)
    | none => x.arcScore w lattice

theorem Trail.arcScore_map {E' : Type} (w : Weighting V S) (lattice : Lattice V) (f : E → E')
    (x : Trail E) : (x.map f).arcScore w lattice = x.arcScore w lattice := by
  induction x with
  | start => rfl
  | entry x p e ih => exact ih
  | arc x p k ih =>
    rw [map, arcScore, arcScore]
    cases (lattice.arcsAt p)[k]? with
    | none => exact ih
    | some a => simp only [ih]

theorem Trail.load_scoredEdge (w : Weighting V S) (lattice : Lattice V) (x : Trail SpanLabel) :
    x.load (ScoredEdge.carrier w) lattice = ⟨x.entries, x.arcScore w lattice⟩ := by
  induction x with
  | start => rfl
  | entry x p e ih =>
    rw [load, ih]
    rfl
  | arc x p k ih =>
    rw [load, arcScore, ih]
    cases (lattice.arcsAt p)[k]? <;> rfl

def Application.edge (w : Weighting V S) (lattice : Lattice V) (pair : RulePair V)
    (a : Application SpanLabel) : ScoredEdge S :=
  ⟨a.parts.entries, Score.mul (a.parts.arcScore w lattice) (w pair.features)⟩

namespace ScoreState

variable (order : ClosureOrder) (g : Grammar V) (w : Weighting V S) (o : Options V)
  (lattice : Lattice V) (pruner : Pruner)

def fill (st : ScoreState V S) (s : Nat × Nat) : ScoreState V S :=
  fillSpan w o (unaryClosureIn order g w o) lattice lattice.distanceTable pruner st s

def upTo (done : List (Nat × Nat)) : ScoreState V S :=
  done.foldl (fill order g w o lattice pruner) (start g w o lattice.size)

def scored : ScoreState V S := runInside g w o (unaryClosureIn order g w o) lattice pruner

def finals : (first last : Nat) → List SpanLabel :=
  EdgeMap.labelsAt (scored order g w o lattice pruner).final
    (scored order g w o lattice pruner).labels

def advanced (st : ScoreState V S) (first last : Nat) : List (Track V (ScoredEdge S)) :=
  st.tracks.map (Track.advance (ScoredEdge.carrier w) o lattice
    (EdgeMap.labelsAt st.final st.labels) first last (lattice.distanceTable.length first last))

def matchedAt (st : ScoreState V S) (first last : Nat) : List (RulePair V × ScoredEdge S) :=
  (advanced w o lattice st first last).flatMap (Track.completed first last)

variable {order g w o lattice pruner}

theorem fillSpan_of_skipped {closure : Symbol → LabelMap S} {st : ScoreState V S}
    {first last : Nat} (h : pruner.skipsSpan first last = true) :
    st.fillSpan w o closure lattice lattice.distanceTable pruner (first, last) =
      { st with tracks := advanced w o lattice st first last } := by
  unfold fillSpan
  simp only [Site.isSkipped, h, if_true]
  rfl

theorem fillSpan_of_left {closure : Symbol → LabelMap S} {st : ScoreState V S}
    {first last : Nat} (h : pruner.skipsSpan first last = false) :
    st.fillSpan w o closure lattice lattice.distanceTable pruner (first, last) =
      (((matchedAt w o lattice st first last).foldl (buildLabel w ⟨o, pruner, first, last⟩)
        { st with tracks := advanced w o lattice st first last }).closeSpan closure
          ⟨o, pruner, first, last⟩).beginSpan w first last
            (lattice.distanceTable.length first last) := by
  unfold fillSpan
  simp only [Site.isSkipped, h, Bool.false_eq_true, if_false]
  rfl

theorem fill_of_skipped {st : ScoreState V S} {first last : Nat}
    (h : pruner.skipsSpan first last = true) :
    fill order g w o lattice pruner st (first, last) =
      { st with tracks := advanced w o lattice st first last } := fillSpan_of_skipped h

theorem fill_of_left {st : ScoreState V S} {first last : Nat}
    (h : pruner.skipsSpan first last = false) :
    fill order g w o lattice pruner st (first, last) =
      (((matchedAt w o lattice st first last).foldl (buildLabel w ⟨o, pruner, first, last⟩)
        { st with tracks := advanced w o lattice st first last }).closeSpan
          (unaryClosureIn order g w o) ⟨o, pruner, first, last⟩).beginSpan w first last
            (lattice.distanceTable.length first last) := fillSpan_of_left h

theorem upTo_append (done : List (Nat × Nat)) (s : Nat × Nat) :
    upTo order g w o lattice pruner (done ++ [s]) =
      fill order g w o lattice pruner (upTo order g w o lattice pruner done) s := by
  rw [upTo, List.foldl_append]
  rfl

omit [Score S] in
theorem mem_labelsAt {F : Type} {tier : Chart (EdgeMap F)} {labels : List Symbol}
    {first last : Nat} {l : SpanLabel} : l ∈ EdgeMap.labelsAt tier labels first last ↔
      l.first = first ∧ l.last = last ∧ l.label ∈ labels ∧
        (tier.get first last).has l.label = true := by
  unfold EdgeMap.labelsAt EdgeMap.among
  rw [List.mem_map]
  constructor
  · rintro ⟨label, hlabel, rfl⟩
    exact ⟨rfl, rfl, (List.mem_filter.mp hlabel).1, (List.mem_filter.mp hlabel).2⟩
  · rintro ⟨rfl, rfl, hmem, hhas⟩
    exact ⟨l.label, List.mem_filter.mpr ⟨hmem, hhas⟩, rfl⟩

variable (order g w o) in
theorem exists_filled {st : ScoreState V S} (h : st.Sized lattice.size) {first last : Nat}
    (hspan : first < last ∧ last ≤ lattice.size) (hblank : st.cell first last = ScoreCell.blank)
    (hleft : pruner.skipsSpan first last = false) :
    ∃ builds closes finals, ∃ st' : ScoreState V S,
      Local lattice.size first last { st with tracks := advanced w o lattice st first last }
        (builds ++ (closes ++ finals)) st' ∧
      fill order g w o lattice pruner st (first, last) =
        st'.beginSpan w first last (lattice.distanceTable.length first last) ∧
      Closes (unaryClosureIn order g w o) ⟨o, pruner, first, last⟩ builds closes finals ∧
      ((∀ m ∈ matchedAt w o lattice st first last, ∀ t ∈ m.2.tails,
          ¬(t.first = first ∧ t.last = last)) →
        builds = (matchedAt w o lattice st first last).filterMap
          (buildStep? w ⟨o, pruner, first, last⟩ st.insideOf)) := by
  have hsized : Sized lattice.size { st with tracks := advanced w o lattice st first last } :=
    ⟨h.built, h.closed, h.final, h.inside⟩
  obtain ⟨builds, hlocal, hbuild, hbuilds⟩ := local_matched hsized w ⟨o, pruner, first, last⟩ hspan
    (matchedAt w o lattice st first last)
  rw [fill_of_left hleft]
  generalize (matchedAt w o lattice st first last).foldl (buildLabel w ⟨o, pruner, first, last⟩)
    { st with tracks := advanced w o lattice st first last } = st' at hlocal
  have hcell : st'.cell first last = ScoreCell.after builds := by
    have hold : ScoreState.cell { st with tracks := advanced w o lattice st first last } first
        last = ScoreCell.blank := hblank
    rw [hlocal.cell, hold]
    rfl
  obtain ⟨closes, finals, hclose, hcloses⟩ := local_closeSpan hlocal.sized
    (unaryClosureIn order g w o)
    ⟨o, pruner, first, last⟩ hspan hcell fun s hs => ⟨hlocal.known s hs, hbuild s hs⟩
  exact ⟨builds, closes, finals, _, hlocal.trans hclose, rfl, hcloses, hbuilds⟩

structure Tidy (lattice : Lattice V) (done : List (Nat × Nat)) (st : ScoreState V S) : Prop where
  sized : st.Sized lattice.size
  nodup : st.labels.Nodup
  blank : ∀ i j, (i, j) ∉ done → st.cell i j = ScoreCell.blank
  outside : st.outside = Chart.new lattice.size
  known : ∀ i j l, (st.final.get i j).has l = true → l ∈ st.labels

theorem tidy_start : Tidy lattice [] (start g w o lattice.size) := by
  have hblank : ∀ i j, (start g w o lattice.size).cell i j = ScoreCell.blank := by
    intro i j
    simp only [cell, start, Chart.get_new]
    rfl
  refine ⟨⟨rfl, rfl, rfl, rfl⟩, List.nodup_singleton _, fun i j _ => hblank i j, rfl,
    fun i j l hl => ?_⟩
  have hfinal : (start g w o lattice.size).final.get i j = [] :=
    congrArg ScoreCell.final (hblank i j)
  rw [hfinal] at hl
  cases hl

structure Filled (lattice : Lattice V) (done : List (Nat × Nat)) (s : Nat × Nat)
    (st st' : ScoreState V S) : Prop where
  tidy : Tidy lattice (done ++ [s]) st'
  other : ∀ i j, (i, j) ≠ s → st'.cell i j = st.cell i j
  labels : st.labels <+: st'.labels

variable (order g w o pruner) in
theorem filled_fill {done : List (Nat × Nat)} {st : ScoreState V S} (h : Tidy lattice done st)
    {s : Nat × Nat} (hspan : s.1 < s.2 ∧ s.2 ≤ lattice.size) (hs : s ∉ done) :
    Filled lattice done s st (fill order g w o lattice pruner st s) := by
  obtain ⟨first, last⟩ := s
  have hmem : ∀ i j, (i, j) ∉ done ++ [(first, last)] → (i, j) ∉ done ∧ (i, j) ≠ (first, last) := by
    intro i j hij
    rw [List.mem_append, not_or, List.mem_singleton] at hij
    exact hij
  cases hskip : pruner.skipsSpan first last with
  | true =>
    rw [fill_of_skipped hskip]
    refine ⟨⟨⟨h.sized.built, h.sized.closed, h.sized.final, h.sized.inside⟩, h.nodup,
      fun i j hij => h.blank i j (hmem i j hij).1, h.outside, h.known⟩, fun i j _ => rfl,
      List.prefix_refl _⟩
  | false =>
    obtain ⟨builds, closes, finals, st', hlocal, hfill, -⟩ :=
      exists_filled order g w o h.sized hspan (h.blank first last hs) hskip
    rw [hfill]
    have hother : ∀ i j, (i, j) ≠ (first, last) → st'.cell i j = st.cell i j := fun i j hij =>
      hlocal.other i j fun heq => hij (Prod.ext heq.1 heq.2)
    refine ⟨⟨⟨hlocal.sized.built, hlocal.sized.closed, hlocal.sized.final, hlocal.sized.inside⟩,
      hlocal.nodup h.nodup, fun i j hij => ?_, hlocal.outside.trans h.outside,
      fun i j l hl => ?_⟩, hother, hlocal.labels⟩
    · obtain ⟨hdone, hne⟩ := hmem i j hij
      exact (hother i j hne).trans (h.blank i j hdone)
    · change (st'.final.get i j).has l = true at hl
      change l ∈ st'.labels
      by_cases heq : (i, j) = (first, last)
      · cases heq
        have hcell : st'.final.get first last =
            (ScoreCell.after (builds ++ (closes ++ finals))).unary true := by
          refine congrArg ScoreCell.final (hlocal.cell.trans ?_)
          rw [show ScoreState.cell { st with tracks := advanced w o lattice st first last } first
            last = ScoreCell.blank from h.blank first last hs]
          rfl
        rw [hcell, ScoreCell.has_unary] at hl
        obtain ⟨e, x, hstep⟩ := hl
        exact hlocal.known _ hstep
      · have hfinal : st'.final.get i j = st.final.get i j :=
          congrArg ScoreCell.final (hother i j heq)
        rw [hfinal] at hl
        exact hlocal.labels.subset (h.known i j l hl)

variable (order g w o pruner) in
theorem tidy_upTo {done rest : List (Nat × Nat)}
    (hsplit : Chart.spansByLength lattice.size = done ++ rest) :
    Tidy lattice done (upTo order g w o lattice pruner done) := by
  induction done using List.reverseRecOn generalizing rest with
  | nil => exact tidy_start
  | append_singleton done s ih =>
    have hsplit : Chart.spansByLength lattice.size = done ++ s :: rest := by
      rw [hsplit, List.append_assoc]
      rfl
    rw [upTo_append]
    exact (filled_fill order g w o pruner (ih hsplit) (Chart.isSpan_of_split hsplit)
      (Chart.not_mem_done hsplit)).tidy

variable (order g w o pruner) in
theorem stable_upTo {done rest : List (Nat × Nat)}
    (hsplit : Chart.spansByLength lattice.size = done ++ rest) :
    (upTo order g w o lattice pruner done).labels <+: (scored order g w o lattice pruner).labels ∧
      ∀ i j, (i, j) ∉ rest →
        (upTo order g w o lattice pruner done).cell i j =
          (scored order g w o lattice pruner).cell i j := by
  induction rest generalizing done with
  | nil =>
    rw [List.append_nil] at hsplit
    rw [← hsplit]
    exact ⟨List.prefix_refl _, fun i j _ => rfl⟩
  | cons s rest ih =>
    have htidy := tidy_upTo order g w o pruner hsplit
    have hfilled := filled_fill order g w o pruner htidy
      (Chart.isSpan_of_split hsplit) (Chart.not_mem_done hsplit)
    obtain ⟨hlabels, hcells⟩ := ih (Chart.split_after hsplit).1
    rw [upTo_append] at hlabels hcells
    refine ⟨hfilled.labels.trans hlabels, fun i j hij => ?_⟩
    rw [List.mem_cons, not_or] at hij
    rw [← hcells i j hij.2, hfilled.other i j hij.1]

variable (order g w o pruner) in
theorem cell_upTo {done rest : List (Nat × Nat)}
    (hsplit : Chart.spansByLength lattice.size = done ++ rest) {i j : Nat} (hij : (i, j) ∉ rest) :
    (upTo order g w o lattice pruner done).cell i j =
      (scored order g w o lattice pruner).cell i j :=
  (stable_upTo order g w o pruner hsplit).2 i j hij

variable (order g w o lattice pruner) in
theorem tidy_scored : Tidy lattice (Chart.spansByLength lattice.size)
    (scored order g w o lattice pruner) := tidy_upTo order g w o pruner (List.append_nil _).symm

variable (order g w o pruner) in
theorem labelsAt_upTo {done rest : List (Nat × Nat)}
    (hsplit : Chart.spansByLength lattice.size = done ++ rest) {i j : Nat} (hij : (i, j) ∉ rest) :
    EdgeMap.labelsAt (upTo order g w o lattice pruner done).final
        (upTo order g w o lattice pruner done).labels i j =
      finals order g w o lattice pruner i j := by
  have htidy := tidy_upTo order g w o pruner hsplit
  obtain ⟨new, hnew⟩ := (stable_upTo order g w o pruner hsplit).1
  have hnodup := (tidy_scored order g w o lattice pruner).nodup
  have hfinal : (upTo order g w o lattice pruner done).final.get i j =
      (scored order g w o lattice pruner).final.get i j :=
    congrArg ScoreCell.final (cell_upTo order g w o pruner hsplit hij)
  have hlate : new.filter ((scored order g w o lattice pruner).final.get i j).has = [] := by
    refine List.filter_eq_nil_iff.mpr fun l hl hhas => ?_
    rw [← hfinal] at hhas
    rw [← hnew] at hnodup
    exact (List.nodup_append.mp hnodup).2.2 l (htidy.known i j l hhas) l hl rfl
  unfold finals EdgeMap.labelsAt EdgeMap.among
  rw [hfinal, ← hnew, List.filter_append, hlate, List.append_nil]

theorem nodup_finals (i j : Nat) : (finals order g w o lattice pruner i j).Nodup := by
  refine ((tidy_scored order g w o lattice pruner).nodup.filter _).map fun l l' h => ?_
  exact (SpanLabel.mk.inj h).2.2

theorem mem_finals {first last : Nat} {l : SpanLabel} :
    l ∈ finals order g w o lattice pruner first last ↔ l.first = first ∧ l.last = last ∧
      ((scored order g w o lattice pruner).final.get first last).has l.label = true := by
  unfold finals
  rw [mem_labelsAt]
  refine and_congr_right fun _ => and_congr_right fun _ => and_iff_right_of_imp fun h => ?_
  exact (tidy_scored order g w o lattice pruner).known _ _ _ h

section

variable {done rest : List (Nat × Nat)} {first last : Nat}
  (hsplit : Chart.spansByLength lattice.size = done ++ (first, last) :: rest)
include hsplit

theorem advanced_eq (htracks : (upTo order g w o lattice pruner done).tracks = g.map fun t =>
      Track.after (ScoredEdge.carrier w) o lattice (finals order g w o lattice pruner) t done) :
    advanced w o lattice (upTo order g w o lattice pruner done) first last = g.map fun t =>
      (Track.after (ScoredEdge.carrier w) o lattice (finals order g w o lattice pruner) t
        done).advance
        (ScoredEdge.carrier w) o lattice (finals order g w o lattice pruner) first last
          (lattice.distanceTable.length first last) := by
  rw [advanced, htracks, List.map_map]
  refine List.map_congr_left fun t _ => ?_
  refine Track.advance_congr fun m hm hml => labelsAt_upTo order g w o pruner hsplit fun hmem => ?_
  have hs := Chart.isSpan_of_split hsplit
  have hdone : (m, last) ∈ done := (Chart.mem_done_iff hsplit).mpr
    ⟨hml, hs.2, Or.inl (by simp only; omega)⟩
  exact Chart.disjoint_rest hsplit hdone hmem

theorem tracks_step (htracks : (upTo order g w o lattice pruner done).tracks = g.map fun t =>
      Track.after (ScoredEdge.carrier w) o lattice (finals order g w o lattice pruner) t done) :
    (upTo order g w o lattice pruner (done ++ [(first, last)])).tracks = g.map fun t =>
      Track.after (ScoredEdge.carrier w) o lattice (finals order g w o lattice pruner) t
        (done ++ [(first, last)]) := by
  obtain ⟨hs, hrest⟩ := Chart.split_after hsplit
  have hlabels := labelsAt_upTo order g w o pruner hs hrest
  have hafter : ∀ t : RuleTable V, Track.after (ScoredEdge.carrier w) o lattice
      (finals order g w o lattice pruner) t (done ++ [(first, last)]) =
      ((Track.after (ScoredEdge.carrier w) o lattice (finals order g w o lattice pruner) t
        done).advance
        (ScoredEdge.carrier w) o lattice (finals order g w o lattice pruner) first last
          (lattice.distanceTable.length first last)).beginWith (ScoredEdge.carrier w)
            (finals order g w o lattice pruner first last) first last
              (lattice.distanceTable.length first last) := by
    intro t
    rw [Track.after, List.foldl_append]
    rfl
  have hadvanced := advanced_eq hsplit htracks
  have htidy := tidy_upTo order g w o pruner hsplit
  have hblank := htidy.blank first last (Chart.not_mem_done hsplit)
  rw [upTo_append] at hlabels ⊢
  cases hskip : pruner.skipsSpan first last with
  | true =>
    rw [fill_of_skipped hskip] at hlabels ⊢
    have hnone : finals order g w o lattice pruner first last = [] := by
      have hfinal : (upTo order g w o lattice pruner done).final.get first last = [] :=
        congrArg ScoreCell.final hblank
      rw [← hlabels, EdgeMap.labelsAt, EdgeMap.among, hfinal]
      simp [EdgeMap.has, LabelMap.get?]
    simp only
    rw [hadvanced]
    refine List.map_congr_left fun t _ => ?_
    rw [hafter, hnone, Track.beginWith_nil]
  | false =>
    obtain ⟨builds, closes, ends, st', hlocal, hfill, -⟩ :=
      exists_filled order g w o htidy.sized (Chart.isSpan_of_split hsplit) hblank hskip
    rw [hfill] at hlabels ⊢
    change EdgeMap.labelsAt st'.final st'.labels first last = _ at hlabels
    change st'.tracks.map (Track.beginWith (ScoredEdge.carrier w)
      (EdgeMap.labelsAt st'.final st'.labels first last) first last _) = _
    rw [hlabels, hlocal.tracks, hadvanced, List.map_map]
    refine List.map_congr_left fun t _ => ?_
    rw [hafter]
    rfl

end

theorem tracks_upTo {done rest : List (Nat × Nat)}
    (hsplit : Chart.spansByLength lattice.size = done ++ rest) :
    (upTo order g w o lattice pruner done).tracks = g.map fun t =>
      Track.after (ScoredEdge.carrier w) o lattice (finals order g w o lattice pruner) t done := by
  induction done using List.reverseRecOn generalizing rest with
  | nil => rfl
  | append_singleton done s ih =>
    have hsplit : Chart.spansByLength lattice.size = done ++ s :: rest := by
      rw [hsplit, List.append_assoc]
      rfl
    exact tracks_step hsplit (ih hsplit)

def Builds (g : Grammar V) (w : Weighting V S) (lattice : Lattice V) (site : Site V)
    (entries : (first last : Nat) → Set SpanLabel) (insideOf : SpanLabel → S)
    (builds : List (ScoreStep S)) : Prop :=
  ∀ s, s ∈ builds ↔ ∃ (a : Application SpanLabel) (pair : RulePair V),
    a.Fits SpanLabel.label g site.options lattice entries site.first site.last ∧
    ¬a.parts.Begins (site.first, site.last) site.first site.last ∧ g.pair? a.rule = some pair ∧
    site.skips (site.ruleOf pair).lhs = false ∧
    s = .build (site.ruleOf pair).lhs (a.edge w lattice pair)
      (Score.mul (Score.product Score.one (a.parts.entries.map insideOf))
        (a.edge w lattice pair).score)

section

variable {done rest : List (Nat × Nat)} {first last : Nat}
  (hsplit : Chart.spansByLength lattice.size = done ++ (first, last) :: rest)
include hsplit

theorem enumerates_matchedAt : Enumerates (Application.result? (ScoredEdge.carrier w) g lattice)
    (fun a =>
      a.Fits SpanLabel.label g o lattice (listed (finals order g w o lattice pruner)) first last ∧
      ¬a.parts.Begins (first, last) first last ∧ (g.pair? a.rule).isSome = true)
    (matchedAt w o lattice (upTo order g w o lattice pruner done) first last) := by
  have hmatched := Track.enumerates_matched (c := ScoredEdge.carrier w) (o := o) (g := g)
    (@nodup_finals _ _ _ order g w o lattice pruner) hsplit
  rw [← advanced_eq hsplit (tracks_upTo hsplit)] at hmatched
  exact hmatched

theorem inside_of_mem_matchedAt {m : RulePair V × ScoredEdge S}
    (hm : m ∈ matchedAt w o lattice (upTo order g w o lattice pruner done) first last)
    {t : SpanLabel}
    (ht : t ∈ m.2.tails) :
    t.last - t.first < last - first ∧ t.first < t.last ∧ t.last ≤ lattice.size := by
  obtain ⟨a, ⟨⟨table, -, hover, -⟩, hbegins, -⟩, hresult⟩ :=
    ((enumerates_matchedAt hsplit).mem_iff m).mp hm
  obtain ⟨pair, -, rfl⟩ := Option.map_eq_some_iff.mp hresult
  rw [Trail.load_scoredEdge] at ht
  obtain ⟨p, q, hplaced⟩ := Trail.exists_placed ht last
  obtain ⟨hp, hpq, hq, hmem⟩ := hover.mem_placed hplaced
  obtain ⟨rfl, rfl, -⟩ := mem_finals.mp hmem
  exact ⟨hover.placed_inside hbegins hplaced, hpq,
    Nat.le_trans hq (Chart.isSpan_of_split hsplit).2⟩

theorem insideOf_of_mem_matchedAt {m : RulePair V × ScoredEdge S}
    (hm : m ∈ matchedAt w o lattice (upTo order g w o lattice pruner done) first last) :
    m.2.tails.map (upTo order g w o lattice pruner done).insideOf =
      m.2.tails.map (scored order g w o lattice pruner).insideOf := by
  refine List.map_congr_left fun t ht => insideOf_eq
    (cell_upTo order g w o pruner hsplit fun hmem => ?_)
  obtain ⟨hlt, hpq, hq⟩ := inside_of_mem_matchedAt hsplit hm ht
  -- the spans of the tails are shorter and do not come again
  have hdone : (t.first, t.last) ∈ done := (Chart.mem_done_iff hsplit).mpr ⟨hpq, hq, Or.inl hlt⟩
  exact Chart.disjoint_rest hsplit hdone hmem

theorem builds_matchedAt :
    Builds g w lattice ⟨o, pruner, first, last⟩ (listed (finals order g w o lattice pruner))
      (scored order g w o lattice pruner).insideOf
      ((matchedAt w o lattice (upTo order g w o lattice pruner done) first last).filterMap
        (buildStep? w ⟨o, pruner, first, last⟩ (upTo order g w o lattice pruner done).insideOf)) := by
  intro s
  rw [List.mem_filterMap]
  constructor
  · rintro ⟨m, hm, hstep⟩
    have hsame := insideOf_of_mem_matchedAt hsplit hm
    obtain ⟨a, ⟨hfits, hbegins, -⟩, hresult⟩ :=
      ((enumerates_matchedAt hsplit).mem_iff m).mp hm
    obtain ⟨pair, hpair, rfl⟩ := Option.map_eq_some_iff.mp hresult
    rw [buildStep?, hsame, Trail.load_scoredEdge] at hstep
    simp only at hstep
    split at hstep
    · cases hstep
    · rename_i hskips
      cases hstep
      exact ⟨a, pair, hfits, hbegins, hpair, Bool.eq_false_iff.mpr hskips, rfl⟩
  · rintro ⟨a, pair, hfits, hbegins, hpair, hskips, rfl⟩
    have hresult : a.result? (ScoredEdge.carrier w) g lattice =
        some (pair, a.parts.load (ScoredEdge.carrier w) lattice) := by
      rw [Application.result?, hpair]
      rfl
    have hm : (pair, a.parts.load (ScoredEdge.carrier w) lattice) ∈
        matchedAt w o lattice (upTo order g w o lattice pruner done) first last :=
      ((enumerates_matchedAt hsplit).mem_iff _).mpr
        ⟨a, ⟨hfits, hbegins, by rw [hpair]; rfl⟩, hresult⟩
    refine ⟨_, hm, ?_⟩
    rw [buildStep?, insideOf_of_mem_matchedAt hsplit hm, Trail.load_scoredEdge]
    simp only [hskips, Bool.false_eq_true, if_false]
    rfl

end

variable (order g w o) in
theorem exists_steps {first last : Nat} (hspan : first < last ∧ last ≤ lattice.size)
    (hleft : pruner.skipsSpan first last = false) :
    ∃ builds closes ends,
      (scored order g w o lattice pruner).cell first last =
        ScoreCell.after (builds ++ (closes ++ ends)) ∧
      Builds g w lattice ⟨o, pruner, first, last⟩ (listed (finals order g w o lattice pruner))
        (scored order g w o lattice pruner).insideOf builds ∧
      Closes (unaryClosureIn order g w o) ⟨o, pruner, first, last⟩ builds closes ends := by
  obtain ⟨done, rest, hsplit⟩ := Chart.exists_split hspan
  obtain ⟨hs, hrest⟩ := Chart.split_after hsplit
  have htidy := tidy_upTo order g w o pruner hsplit
  have hblank := htidy.blank first last (Chart.not_mem_done hsplit)
  obtain ⟨builds, closes, ends, st', hlocal, hfill, hcloses, hbuilds⟩ :=
    exists_filled order g w o htidy.sized hspan hblank hleft
  have hbuilds := hbuilds fun m hm t ht heq => by
    have hlt := (inside_of_mem_matchedAt hsplit hm ht).1
    rw [heq.1, heq.2] at hlt
    exact Nat.lt_irrefl _ hlt
  refine ⟨builds, closes, ends, ?_, hbuilds ▸ builds_matchedAt hsplit, hcloses⟩
  rw [← cell_upTo order g w o pruner hs hrest, upTo_append, hfill]
  refine hlocal.cell.trans ?_
  have hold : ScoreState.cell { upTo order g w o lattice pruner done with
      tracks := advanced w o lattice (upTo order g w o lattice pruner done) first last } first last =
        ScoreCell.blank := hblank
  rw [hold]
  rfl

theorem cell_of_not_span {first last : Nat} (h : ¬(first < last ∧ last ≤ lattice.size)) :
    (scored order g w o lattice pruner).cell first last = ScoreCell.blank :=
  (tidy_scored order g w o lattice pruner).blank first last fun hmem =>
    h (Chart.mem_spansByLength.mp hmem)

theorem cell_of_skipped {first last : Nat} (hskip : pruner.skipsSpan first last = true) :
    (scored order g w o lattice pruner).cell first last = ScoreCell.blank := by
  by_cases hspan : first < last ∧ last ≤ lattice.size
  · obtain ⟨done, rest, hsplit⟩ := Chart.exists_split hspan
    obtain ⟨hs, hrest⟩ := Chart.split_after hsplit
    rw [← cell_upTo order g w o pruner hs hrest, upTo_append, fill_of_skipped hskip]
    exact (tidy_upTo order g w o pruner hsplit).blank first last (Chart.not_mem_done hsplit)
  · exact cell_of_not_span hspan

theorem isLeft_of_cell {first last : Nat}
    (h : (scored order g w o lattice pruner).cell first last ≠ ScoreCell.blank) :
    (first < last ∧ last ≤ lattice.size) ∧ pruner.skipsSpan first last = false := by
  refine ⟨?_, ?_⟩
  · by_contra hspan
    exact h (cell_of_not_span hspan)
  · rw [← Bool.not_eq_true]
    exact fun hskip => h (cell_of_skipped hskip)

theorem isLeft_of_has_final {first last : Nat} {label : Symbol}
    (h : ((scored order g w o lattice pruner).final.get first last).has label = true) :
    (first < last ∧ last ≤ lattice.size) ∧ pruner.skipsSpan first last = false := by
  have hnot : (scored order g w o lattice pruner).cell first last ≠ ScoreCell.blank := by
    intro hblank
    have hfinal : (scored order g w o lattice pruner).final.get first last = [] :=
      congrArg ScoreCell.final hblank
    rw [hfinal] at h
    cases h
  exact isLeft_of_cell hnot

end ScoreState

end ParseForest
