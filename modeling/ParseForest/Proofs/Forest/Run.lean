import ParseForest.Proofs.Forest.Closure

/-!
# The run of the forest parser

The parser is followed through the spans in the order in which it fills them. After each span its
forest is recorded in a ledger of genuine entries: applications that fit a span which is not
pruned and whose label is not pruned. Of these the ledger has every one that is not a unary rule
over its span. The constituents of a span are all there when the span has been filled, so the
entries are stated over the constituents of the finished run.
-/

namespace ParseForest

variable {V : Type} [Scalar V]

namespace SpanBuild

/-- What holds of a span and is kept by every application holds when the span is closed. -/
theorem close_induction {P : SpanBuild V → Prop} {site : Site V} {g : Grammar V}
    (happly : ∀ b level pair used, P b → P (b.apply site level pair used)) (distance : Nat)
    {b : SpanBuild V} (h : P b) : P (b.close site g distance) := by
  have hfold : ∀ (l : List (RulePair V)) (level : Nat) (used : Match V) (b : SpanBuild V), P b →
      P (l.foldl (fun b pair => b.apply site level pair used) b) := by
    intro l level used
    induction l with
    | nil => exact fun b hb => hb
    | cons pair l ih => exact fun b hb => ih _ (happly b level pair used hb)
  have hunary : ∀ (t : RuleTable V) (l : List Constituent) (b : SpanBuild V), P b →
      P (l.foldl (applyUnary site t) b) := by
    intro t l
    induction l with
    | nil => exact fun b hb => hb
    | cons c l ih => exact fun b hb => ih _ (hfold _ _ _ b hb)
  have hround : ∀ (frontier : List Constituent) (b : SpanBuild V), P b →
      P (b.round site g distance frontier) := by
    intro frontier
    unfold round
    induction g.filter fun t => t.covers distance with
    | nil => exact fun b hb => hb
    | cons t l ih => exact fun b hb => ih _ (hunary t frontier b hb)
  have hfrom : ∀ (fuel stagnant done : Nat) (b : SpanBuild V), P b →
      P (closeFrom site g distance fuel stagnant done b) := by
    intro fuel
    induction fuel with
    | zero => exact fun _ _ b hb => hb
    | succ fuel ih =>
      intro stagnant done b hb
      have hr := hround (b.found.drop done) b hb
      rw [closeFrom]
      simp only
      split
      · exact hb
      · split
        · exact ih _ _ _ hr
        · split
          · exact hr
          · exact ih _ _ _ hr
  unfold close
  split
  · exact h
  · exact hfrom _ _ _ b h

theorem applyAll_induction {P : SpanBuild V → Prop} {site : Site V}
    (happly : ∀ b level pair used, P b → P (b.apply site level pair used))
    (matched : List (RulePair V × Match V)) {b : SpanBuild V} (h : P b) :
    P (b.applyAll site matched) := by
  unfold applyAll
  induction matched generalizing b with
  | nil => exact h
  | cons m matched ih => exact ih (happly b 0 m.1 m.2 h)

def Fresh (b : SpanBuild V) : Prop :=
  b.found.Nodup ∧ ∀ c ∈ b.found, c.node < b.graph.nodes.size

theorem Fresh.apply {b : SpanBuild V} (h : b.Fresh) (site : Site V) (level : Nat)
    (pair : RulePair V) (used : Match V) : (b.apply site level pair used).Fresh := by
  cases hskip : site.skips (site.ruleOf pair).lhs with
  | true =>
    rw [apply_of_skips _ _ _ _ _ hskip]
    exact h
  | false =>
    rw [apply_eq _ _ _ _ _ hskip]
    cases b.find? (site.ruleOf pair).lhs level with
    | some c =>
      refine ⟨h.1, fun d hd => ?_⟩
      simp only [Hypergraph.size_nodes_extend]
      exact h.2 d hd
    | none =>
      constructor
      · refine List.nodup_append.mpr ⟨h.1, by simp, fun d hd e he heq => ?_⟩
        rw [List.mem_singleton.mp he] at heq
        have hlt := h.2 d hd
        rw [heq] at hlt
        exact Nat.lt_irrefl _ hlt
      · intro d hd
        simp only [Hypergraph.size_nodes_extend, Hypergraph.size_nodes_addNode]
        rcases List.mem_append.mp hd with hd | hd
        · exact Nat.lt_succ_of_lt (h.2 d hd)
        · rw [List.mem_singleton.mp hd]
          exact Nat.lt_succ_self _

omit [Scalar V] in
theorem perm_sorted (b : SpanBuild V) : b.sorted.Perm b.found := List.mergeSort_perm _ _

end SpanBuild

namespace ForestState

variable (g : Grammar V) (o : Options V) (lattice : Lattice V) (pruner : Pruner)

def fill (st : ForestState V) (s : Nat × Nat) : ForestState V :=
  fillSpan g o lattice lattice.distanceTable pruner st s

def upTo (done : List (Nat × Nat)) : ForestState V :=
  done.foldl (fill g o lattice pruner) (start g lattice.size)

def cells : (first last : Nat) → List Constituent := (run g o lattice pruner).found.get

def advanced (st : ForestState V) (first last : Nat) : List (Track V (Match V)) :=
  st.tracks.map (Track.advance Match.carrier o lattice st.found.get first last
    (lattice.distanceTable.length first last))

def applied (st : ForestState V) (first last : Nat) : SpanBuild V :=
  (SpanBuild.mk st.graph []).applyAll ⟨o, pruner, first, last⟩
    ((advanced o lattice st first last).flatMap (Track.completed first last))

def built (st : ForestState V) (first last : Nat) : SpanBuild V :=
  ((SpanBuild.mk st.graph []).applyAll ⟨o, pruner, first, last⟩
    ((advanced o lattice st first last).flatMap (Track.completed first last))).close
      ⟨o, pruner, first, last⟩ g (lattice.distanceTable.length first last)

variable {g o lattice pruner}

theorem fill_of_skipped {st : ForestState V} {first last : Nat}
    (h : pruner.skipsSpan first last = true) :
    fill g o lattice pruner st (first, last) =
      ⟨advanced o lattice st first last, st.found, st.graph⟩ := by
  unfold fill fillSpan
  simp only [Site.isSkipped, h, if_true]
  rfl

theorem fill_of_not_skipped {st : ForestState V} {first last : Nat}
    (h : pruner.skipsSpan first last = false) :
    fill g o lattice pruner st (first, last) =
      let build := built g o lattice pruner st first last
      ⟨(advanced o lattice st first last).map (Track.beginWith Match.carrier build.sorted first last
          (lattice.distanceTable.length first last)),
        st.found.set first last build.sorted, build.graph⟩ := by
  unfold fill fillSpan
  simp only [Site.isSkipped, h, Bool.false_eq_true, if_false]
  rfl

theorem size_fill (st : ForestState V) (s : Nat × Nat) :
    (fill g o lattice pruner st s).found.size = st.found.size := by
  cases h : pruner.skipsSpan s.1 s.2 with
  | true => rw [show s = (s.1, s.2) from rfl, fill_of_skipped h]
  | false =>
    rw [show s = (s.1, s.2) from rfl, fill_of_not_skipped h]
    exact Chart.size_modify _ _ _ _

theorem get_fill_other (st : ForestState V) {s : Nat × Nat} {i j : Nat} (hij : (i, j) ≠ s) :
    (fill g o lattice pruner st s).found.get i j = st.found.get i j := by
  cases h : pruner.skipsSpan s.1 s.2 with
  | true => rw [show s = (s.1, s.2) from rfl, fill_of_skipped h]
  | false =>
    rw [show s = (s.1, s.2) from rfl, fill_of_not_skipped h]
    exact Chart.get_modify_other _ _ fun hs => hij (Prod.ext hs.1 hs.2)

theorem get_foldl_fill (st : ForestState V) {spans : List (Nat × Nat)} {i j : Nat}
    (hij : (i, j) ∉ spans) :
    (spans.foldl (fill g o lattice pruner) st).found.get i j = st.found.get i j := by
  induction spans generalizing st with
  | nil => rfl
  | cons s spans ih =>
    rw [List.mem_cons, not_or] at hij
    rw [List.foldl_cons, ih _ hij.2, get_fill_other st hij.1]

theorem upTo_append (done : List (Nat × Nat)) (s : Nat × Nat) :
    upTo g o lattice pruner (done ++ [s]) =
      fill g o lattice pruner (upTo g o lattice pruner done) s := by
  rw [upTo, List.foldl_append]
  rfl

theorem run_eq_upTo :
    run g o lattice pruner = upTo g o lattice pruner (Chart.spansByLength lattice.size) := by
  have hfill : fillSpan g o lattice lattice.distanceTable pruner = fill g o lattice pruner := by
    funext st s
    rw [fill]
  rw [run, upTo, hfill]

theorem get_upTo {done rest : List (Nat × Nat)}
    (hsplit : Chart.spansByLength lattice.size = done ++ rest) {i j : Nat} (hij : (i, j) ∉ rest) :
    (upTo g o lattice pruner done).found.get i j = cells g o lattice pruner i j := by
  have hrun : run g o lattice pruner = rest.foldl (fill g o lattice pruner)
      (upTo g o lattice pruner done) := by
    rw [run_eq_upTo, hsplit, upTo, List.foldl_append]
    rfl
  rw [cells, hrun, get_foldl_fill _ hij]

theorem size_upTo (done : List (Nat × Nat)) :
    (upTo g o lattice pruner done).found.size = lattice.size := by
  induction done using List.reverseRecOn with
  | nil => rfl
  | append_singleton done s ih => rw [upTo_append, size_fill, ih]

theorem isSpan_upTo {done rest : List (Nat × Nat)} {first last : Nat}
    (hsplit : Chart.spansByLength lattice.size = done ++ (first, last) :: rest) :
    (upTo g o lattice pruner done).found.IsSpan first last := by
  have hs := Chart.isSpan_of_split hsplit
  exact ⟨Nat.le_of_lt hs.1, by rw [size_upTo]; exact hs.2⟩

theorem cells_eq_sorted {done rest : List (Nat × Nat)} {first last : Nat}
    (hsplit : Chart.spansByLength lattice.size = done ++ (first, last) :: rest)
    (hskip : pruner.skipsSpan first last = false) : cells g o lattice pruner first last =
      (built g o lattice pruner (upTo g o lattice pruner done) first last).sorted := by
  obtain ⟨hdone, hrest⟩ := Chart.split_after hsplit
  rw [← get_upTo hdone hrest, upTo_append, fill_of_not_skipped hskip]
  exact Chart.get_modify_self _ _ (isSpan_upTo hsplit)

theorem perm_cells_built {done rest : List (Nat × Nat)} {first last : Nat}
    (hsplit : Chart.spansByLength lattice.size = done ++ (first, last) :: rest)
    (hskip : pruner.skipsSpan first last = false) : (cells g o lattice pruner first last).Perm
      (built g o lattice pruner (upTo g o lattice pruner done) first last).found := by
  rw [cells_eq_sorted hsplit hskip]
  exact SpanBuild.perm_sorted _

theorem get_upTo_blank {done : List (Nat × Nat)} {i j : Nat} (hij : (i, j) ∉ done) :
    (upTo g o lattice pruner done).found.get i j = [] := by
  rw [upTo, get_foldl_fill _ hij]
  exact Chart.get_new _ _ _

theorem fresh_built (st : ForestState V) (first last : Nat) :
    (built g o lattice pruner st first last).Fresh := by
  refine SpanBuild.close_induction (P := SpanBuild.Fresh)
    (fun b level pair used hb => hb.apply _ level pair used) _ ?_
  refine SpanBuild.applyAll_induction (P := SpanBuild.Fresh)
    (fun b level pair used hb => hb.apply _ level pair used) _ ?_
  exact ⟨List.nodup_nil, fun c hc => by cases hc⟩

theorem nodup_upTo (done : List (Nat × Nat)) (i j : Nat) :
    ((upTo g o lattice pruner done).found.get i j).Nodup := by
  induction done using List.reverseRecOn with
  | nil =>
    rw [get_upTo_blank List.not_mem_nil]
    exact List.nodup_nil
  | append_singleton done s ih =>
    rw [upTo_append]
    by_cases hs : (i, j) = s
    · subst hs
      cases h : pruner.skipsSpan i j with
      | true =>
        rw [fill_of_skipped h]
        exact ih
      | false =>
        rw [fill_of_not_skipped h]
        simp only [Chart.set]
        by_cases hspan : (upTo g o lattice pruner done).found.IsSpan i j
        · rw [Chart.get_modify_self _ _ hspan, (SpanBuild.perm_sorted _).nodup_iff]
          exact (fresh_built _ i j).1
        · simp only [Chart.modify, if_neg hspan]
          exact ih
    · rw [get_fill_other _ hs]
      exact ih

theorem nodup_cells (i j : Nat) : (cells g o lattice pruner i j).Nodup := nodup_upTo _ i j

/-- The entry applies a rule pair over a span that is not pruned, and its label is not pruned. -/
structure Genuine (g : Grammar V) (o : Options V) (lattice : Lattice V) (pruner : Pruner)
    (entries : (first last : Nat) → Set Constituent) (a : Entry) : Prop where
  span : a.place.first < a.place.last ∧ a.place.last ≤ lattice.size
  spanLeft : pruner.skipsSpan a.place.first a.place.last = false
  labelLeft : pruner.skipsLabel a.place.first a.place.last a.place.label = false
  label : ∃ pair, g.pair? a.step.rule = some pair ∧ (pair.side o.yieldSource).lhs = a.place.label
  fits : a.step.Fits Constituent.label g o lattice entries a.place.first a.place.last

variable (g o lattice pruner)

structure Ran (done : List (Nat × Nat)) (st : ForestState V) (ledger : List Entry) : Prop where
  tracks : st.tracks = g.map fun t =>
    Track.after Match.carrier o lattice (cells g o lattice pruner) t done
  recorded : Recorded g o lattice st.found.get st.graph ledger
  derived : ∀ i j, ∀ c ∈ st.found.get i j, ∃ a ∈ ledger, a.place = ⟨i, j, c.label⟩ ∧
    a.step.parts.level = c.level
  genuine : ∀ a ∈ ledger, (a.place.first, a.place.last) ∈ done ∧
    Genuine g o lattice pruner (listed (cells g o lattice pruner)) a
  complete : ∀ a, Genuine g o lattice pruner (listed (cells g o lattice pruner)) a →
    (a.place.first, a.place.last) ∈ done →
    ¬a.step.parts.Begins (a.place.first, a.place.last) a.place.first a.place.last → a ∈ ledger
  labels : 0 < o.forestStagnation →
    ∀ a, Genuine g o lattice pruner (listed (cells g o lattice pruner)) a →
      (a.place.first, a.place.last) ∈ done →
      ∃ c ∈ cells g o lattice pruner a.place.first a.place.last, c.label = a.place.label
  unary : ∀ a, Genuine g o lattice pruner (listed (cells g o lattice pruner)) a →
    (a.place.first, a.place.last) ∈ done → ∀ c, a.step.parts = .entry .start a.place.first c →
      c.level < o.forestStagnation → a ∈ ledger
  layers : ∀ a, Genuine g o lattice pruner (listed (cells g o lattice pruner)) a →
    (a.place.first, a.place.last) ∈ done → ∀ c, a.step.parts = .entry .start a.place.first c →
      (∃ d ∈ cells g o lattice pruner a.place.first a.place.last, d.level = c.level + 1) →
        a ∈ ledger
  nodup : ledger.Nodup

variable {g o lattice pruner}

theorem ran_start : Ran g o lattice pruner [] (start g lattice.size) [] := by
  have hblank : (start g lattice.size : ForestState V).found.get = fun _ _ => [] := by
    funext i j
    exact Chart.get_new _ _ _
  refine ⟨rfl, ?_, fun i j c hc => ?_, ?_, ?_, ?_, ?_, ?_, List.nodup_nil⟩
  · rw [hblank]
    exact recorded_empty g o lattice
  · rw [hblank] at hc
    cases hc
  · intro a ha
    cases ha
  · intro a _ ha
    cases ha
  · intro _ a _ ha
    cases ha
  · intro a _ ha
    cases ha
  · intro a _ ha
    cases ha

theorem advanced_eq {done rest : List (Nat × Nat)} {first last : Nat}
    (hsplit : Chart.spansByLength lattice.size = done ++ (first, last) :: rest)
    {ledger : List Entry} (h : Ran g o lattice pruner done (upTo g o lattice pruner done) ledger) :
    advanced o lattice (upTo g o lattice pruner done) first last = g.map fun t =>
      (Track.after Match.carrier o lattice (cells g o lattice pruner) t done).advance Match.carrier
        o lattice (cells g o lattice pruner) first last
          (lattice.distanceTable.length first last) := by
  rw [advanced, h.tracks, List.map_map]
  refine List.map_congr_left fun t _ => ?_
  refine Track.advance_congr fun m hm hml => get_upTo hsplit fun hmem => ?_
  have hs := Chart.isSpan_of_split hsplit
  have hdone : (m, last) ∈ done := (Chart.mem_done_iff hsplit).mpr
    ⟨hml, hs.2, Or.inl (by simp only; omega)⟩
  exact Chart.disjoint_rest hsplit hdone hmem

omit [Scalar V] in
theorem Genuine.entry?_eq {entries : (first last : Nat) → Set Constituent} {a : Entry}
    (h : Genuine g o lattice pruner entries a) :
    a.step.entry? g ⟨o, pruner, a.place.first, a.place.last⟩ = some a := by
  obtain ⟨pair, hp, hlabel⟩ := h.label
  rw [Application.entry?, hp, Option.bind_some]
  simp only [Site.skips, Site.ruleOf, hlabel, h.labelLeft, Bool.false_eq_true, if_false]

omit [Scalar V] in
theorem genuine_of_entry? {entries : (first last : Nat) → Set Constituent} {first last : Nat}
    (hspan : first < last ∧ last ≤ lattice.size) (hleft : pruner.skipsSpan first last = false)
    {e : Application Constituent} {a : Entry}
    (ha : e.entry? g ⟨o, pruner, first, last⟩ = some a)
    (hfits : e.Fits Constituent.label g o lattice entries first last) :
    Genuine g o lattice pruner entries a ∧ a.place.first = first ∧ a.place.last = last := by
  obtain ⟨hstep, pair, hp, hskip, hplace⟩ := Building.eq_of_recorded ha
  subst hstep
  rw [hplace]
  refine ⟨⟨?_, ?_, ?_, ?_, ?_⟩, rfl, rfl⟩
  · rw [hplace]
    exact hspan
  · rw [hplace]
    exact hleft
  · rw [hplace]
    exact hskip
  · rw [hplace]
    exact ⟨pair, hp, rfl⟩
  · rw [hplace]
    exact hfits

omit [Scalar V] in
theorem fits_of_unaryStep {first last : Nat} (hspan : first < last ∧ last ≤ lattice.size)
    {found : List Constituent} {entries : (first last : Nat) → Set Constituent}
    (hfound : ∀ c ∈ found, c ∈ entries first last) {a : Entry}
    (h : Building.UnaryStep g ⟨o, pruner, first, last⟩ (lattice.distanceTable.length first last)
      found a) :
    a.step.Fits Constituent.label g o lattice entries first last := by
  obtain ⟨-, t, c, hc, ht, hcov, hparts, hstate, hroot⟩ := h
  have hzero := t.covers_mono (Nat.zero_le _) hcov
  refine ⟨t, ht, ?_, ?_⟩
  · rw [hparts]
    exact ⟨⟨rfl, Nat.lt_of_lt_of_le hspan.1 hspan.2, hzero⟩, hspan.1, hspan.2, hfound c hc, hcov⟩
  · rw [hparts, hstate, Trail.state?, Trail.state?, Option.bind_some, if_neg hroot]

omit [Scalar V] in
theorem unaryStep_of_genuine {entries : (first last : Nat) → Set Constituent} {a : Entry}
    (h : Genuine g o lattice pruner entries a) {c : Constituent}
    (hparts : a.step.parts = .entry .start a.place.first c) :
    c ∈ entries a.place.first a.place.last ∧
      Building.UnaryStep g ⟨o, pruner, a.place.first, a.place.last⟩
        (lattice.distanceTable.length a.place.first a.place.last) [c] a := by
  obtain ⟨t, ht, hover, hstate⟩ := h.fits
  rw [hparts] at hover hstate
  obtain ⟨-, -, -, hc, hcov⟩ := hover
  rw [Trail.state?, Trail.state?, Option.bind_some] at hstate
  split at hstate
  · cases hstate
  · rename_i hroot
    exact ⟨hc, h.entry?_eq, t, c, List.mem_singleton_self c, ht, hcov, hparts,
      (Option.some.inj hstate).symm, hroot⟩

omit [Scalar V] in
theorem level_eq_zero {t : RuleTable V} {entries : (first last : Nat) → Set Constituent}
    {first last : Nat} {x : Trail Constituent} (h : x.Over t o lattice entries first last)
    (hx : ¬x.Begins (first, last) first last) : x.level = 0 := by
  rw [h.begins_iff] at hx
  cases x with
  | start => rfl
  | arc x p k => rfl
  | entry x p c =>
    cases x with
    | start =>
      obtain ⟨⟨rfl, -⟩, -⟩ := h
      exact absurd ⟨c, rfl⟩ hx
    | entry x q d => rfl
    | arc x q k => rfl

omit [Scalar V] in
/-- The matched rule pairs are recorded as the genuine entries that do not begin at the span. -/
theorem mem_matched_iff {entries : (first last : Nat) → Set Constituent} {first last : Nat}
    (hspan : first < last ∧ last ≤ lattice.size) (hleft : pruner.skipsSpan first last = false)
    {xs : List (Application Constituent)}
    (hxs : ∀ a, a ∈ xs ↔ a.Fits Constituent.label g o lattice entries first last ∧
      ¬a.parts.Begins (first, last) first last ∧ (g.pair? a.rule).isSome = true) {a : Entry} :
    a ∈ xs.filterMap (Application.entry? g ⟨o, pruner, first, last⟩) ↔
      Genuine g o lattice pruner entries a ∧ (a.place.first = first ∧ a.place.last = last) ∧
        ¬a.step.parts.Begins (first, last) first last := by
  rw [List.mem_filterMap]
  constructor
  · rintro ⟨e, he, hentry⟩
    obtain ⟨hfits, hbegins, -⟩ := (hxs e).mp he
    obtain ⟨hgen, hplace⟩ := genuine_of_entry? hspan hleft hentry hfits
    rw [(Building.eq_of_recorded hentry).1]
    exact ⟨hgen, hplace, hbegins⟩
  · rintro ⟨hgen, ⟨hfirst, hlast⟩, hbegins⟩
    have hentry := hgen.entry?_eq
    have hfits := hgen.fits
    obtain ⟨pair, hp, -⟩ := hgen.label
    rw [hfirst, hlast] at hentry hfits
    refine ⟨a.step, (hxs a.step).mpr ⟨hfits, hbegins, ?_⟩, hentry⟩
    rw [hp]
    rfl

omit [Scalar V] in
theorem nodup_matched {site : Site V} {xs : List (Application Constituent)} (hnd : xs.Nodup) :
    (xs.filterMap (Application.entry? g site)).Nodup := by
  refine hnd.filterMap fun e e' a ha ha' => ?_
  rw [← (Building.eq_of_recorded ha).1, ← (Building.eq_of_recorded ha').1]

omit [Scalar V] in
theorem Genuine.level_eq_zero {entries : (first last : Nat) → Set Constituent} {a : Entry}
    (h : Genuine g o lattice pruner entries a)
    (hbegins : ¬a.step.parts.Begins (a.place.first, a.place.last) a.place.first a.place.last) :
    a.step.parts.level = 0 := by
  obtain ⟨t, -, hover, -⟩ := h.fits
  exact ForestState.level_eq_zero hover hbegins

variable (g o lattice pruner) in
structure Adds (first last : Nat) (new : List Entry) : Prop where
  genuine : ∀ a ∈ new, Genuine g o lattice pruner (listed (cells g o lattice pruner)) a ∧
    a.place.first = first ∧ a.place.last = last
  complete : ∀ a, Genuine g o lattice pruner (listed (cells g o lattice pruner)) a →
    a.place.first = first → a.place.last = last →
      ¬a.step.parts.Begins (first, last) first last → a ∈ new
  labels : 0 < o.forestStagnation →
    ∀ a, Genuine g o lattice pruner (listed (cells g o lattice pruner)) a →
      a.place.first = first → a.place.last = last →
        ∃ c ∈ cells g o lattice pruner first last, c.label = a.place.label
  unary : ∀ a, Genuine g o lattice pruner (listed (cells g o lattice pruner)) a →
    a.place.first = first → a.place.last = last → ∀ c, a.step.parts = .entry .start first c →
      c.level < o.forestStagnation → a ∈ new
  layers : ∀ a, Genuine g o lattice pruner (listed (cells g o lattice pruner)) a →
    a.place.first = first → a.place.last = last → ∀ c, a.step.parts = .entry .start first c →
      (∃ d ∈ cells g o lattice pruner first last, d.level = c.level + 1) → a ∈ new
  nodup : new.Nodup

theorem exists_matched {done rest : List (Nat × Nat)} {first last : Nat}
    (hsplit : Chart.spansByLength lattice.size = done ++ (first, last) :: rest)
    {ledger : List Entry} (h : Ran g o lattice pruner done (upTo g o lattice pruner done) ledger) :
    let st := upTo g o lattice pruner done
    ∃ xs : List (Application Constituent), xs.Nodup ∧
      (∀ a, a ∈ xs ↔ a.Fits Constituent.label g o lattice (listed (cells g o lattice pruner)) first
          last ∧ ¬a.parts.Begins (first, last) first last ∧ (g.pair? a.rule).isSome = true) ∧
      xs.filterMap (Application.result? Match.carrier g lattice) =
        (advanced o lattice st first last).flatMap (Track.completed first last) ∧
      ∀ a ∈ xs, a.parts.level = 0 ∧ ∀ d ∈ a.parts.entries, ∃ p q, d ∈ st.found.get p q ∧
        first ≤ p ∧ p < q ∧ q ≤ last ∧ q - p < last - first := by
  intro st
  have hspan := Chart.isSpan_of_split hsplit
  obtain ⟨xs, hnd, hmem, hmatched⟩ := Track.enumerates_matched (c := Match.carrier) (o := o) (g := g)
    (@nodup_cells _ _ g o lattice pruner) hsplit
  refine ⟨xs, hnd, hmem, by rw [hmatched, advanced_eq hsplit h], fun a ha => ?_⟩
  obtain ⟨⟨t, -, hover, -⟩, hbegins, -⟩ := (hmem a).mp ha
  refine ⟨level_eq_zero hover hbegins, fun d hd => ?_⟩
  obtain ⟨p, q, hplaced⟩ := Trail.exists_placed hd last
  have hinside := hover.placed_inside hbegins hplaced
  obtain ⟨hp, hpq, hq, hd⟩ := hover.mem_placed hplaced
  -- the part lies strictly inside the span, so its span comes before this one
  have hdone : (p, q) ∈ done := (Chart.mem_done_iff hsplit).mpr
    ⟨hpq, Nat.le_trans hq hspan.2, Or.inl hinside⟩
  refine ⟨p, q, ?_, hp, hpq, hq, hinside⟩
  rw [get_upTo hsplit (Chart.disjoint_rest hsplit hdone)]
  exact hd

theorem building_start {done rest : List (Nat × Nat)} {first last : Nat}
    (hsplit : Chart.spansByLength lattice.size = done ++ (first, last) :: rest)
    {ledger : List Entry} (h : Ran g o lattice pruner done (upTo g o lattice pruner done) ledger) :
    Building g lattice ⟨o, pruner, first, last⟩ (upTo g o lattice pruner done).found.get
      ⟨(upTo g o lattice pruner done).graph, []⟩ ledger := by
  refine ⟨?_, fun c hc => (by cases hc), List.nodup_nil⟩
  change Recorded g o lattice (cellsWith _ first last []) _ ledger
  rw [cellsWith_eq_self (get_upTo_blank (Chart.not_mem_done hsplit))]
  exact h.recorded

theorem exists_applied {done rest : List (Nat × Nat)} {first last : Nat}
    (hsplit : Chart.spansByLength lattice.size = done ++ (first, last) :: rest)
    {ledger : List Entry} (h : Ran g o lattice pruner done (upTo g o lattice pruner done) ledger) :
    let st := upTo g o lattice pruner done
    let b := applied o lattice pruner st first last
    let site : Site V := ⟨o, pruner, first, last⟩
    ∃ xs : List (Application Constituent), xs.Nodup ∧
      (∀ a, a ∈ xs ↔ a.Fits Constituent.label g o lattice (listed (cells g o lattice pruner)) first
          last ∧ ¬a.parts.Begins (first, last) first last ∧ (g.pair? a.rule).isSome = true) ∧
      Building g lattice site st.found.get b
        (ledger ++ xs.filterMap (Application.entry? g site)) ∧
      ∀ c ∈ b.found, c.level = 0 := by
  intro st b site
  obtain ⟨xs, hnd, hmem, hmatched, hparts⟩ := exists_matched hsplit h
  have hlevel : ∀ a ∈ xs, a.parts.level = 0 := fun a ha => (hparts a ha).1
  have hbelow : ∀ a ∈ xs, ∀ d ∈ a.parts.entries, d.node < st.graph.nodes.size := by
    intro a ha d hd
    obtain ⟨p, q, hd, -⟩ := (hparts a ha).2 d hd
    exact h.recorded.bound p q d hd
  obtain ⟨hb, -, new, hfound, hnew⟩ := (building_start hsplit h).foldl_applyNamed xs
    st.graph.nodes.size 0 hlevel (Nat.le_refl _) hbelow fun c hc => by cases hc
  have happly : xs.foldl (SpanBuild.applyNamed g lattice site) ⟨st.graph, []⟩ = b := by
    rw [SpanBuild.foldl_applyNamed_eq, Application.filterMap_ruleStep? hlevel, hmatched,
      List.foldl_map]
    rfl
  rw [happly] at hb hfound
  rw [List.nil_append] at hfound
  exact ⟨xs, hnd, hmem, hb, fun c hc => (hnew c (hfound ▸ hc)).1⟩

theorem exists_built {done rest : List (Nat × Nat)} {first last : Nat}
    (hsplit : Chart.spansByLength lattice.size = done ++ (first, last) :: rest)
    {ledger : List Entry} (h : Ran g o lattice pruner done (upTo g o lattice pruner done) ledger) :
    let st := upTo g o lattice pruner done
    let b := built g o lattice pruner st first last
    let site : Site V := ⟨o, pruner, first, last⟩
    ∃ (xs : List (Application Constituent)) (unary : List Entry), xs.Nodup ∧
      (∀ a, a ∈ xs ↔ a.Fits Constituent.label g o lattice (listed (cells g o lattice pruner)) first
          last ∧ ¬a.parts.Begins (first, last) first last ∧ (g.pair? a.rule).isSome = true) ∧
      Building g lattice site st.found.get b
        (ledger ++ (xs.filterMap (Application.entry? g site) ++ unary)) ∧
      (unary.Nodup ∧ ∀ a ∈ unary, Building.UnaryStep g site
        (lattice.distanceTable.length first last) b.found a ∧ 0 < a.step.parts.level) ∧
      (∀ d ∈ b.found, ∀ c ∈ b.found, d.level = c.level + 1 → ∀ a, Building.UnaryStep g site
        (lattice.distanceTable.length first last) [c] a → a ∈ unary) ∧
      (0 < o.forestStagnation →
        Building.ClosedUnder g site (lattice.distanceTable.length first last) b.found b.found ∧
          ∀ c ∈ b.found, c.level < o.forestStagnation → ∀ a, Building.UnaryStep g site
            (lattice.distanceTable.length first last) [c] a → a ∈ unary) := by
  intro st b site
  obtain ⟨xs, hnd, hmem, hb, hbase⟩ := exists_applied hsplit h
  obtain ⟨unary, new', hb', hfound', hsteps, hlayers, hclosed⟩ :=
    hb.close (lattice.distanceTable.length first last) hbase
  rw [List.append_assoc] at hb'
  refine ⟨xs, unary, hnd, hmem, hb', hsteps, fun d hd c hc hdc => ?_,
    fun hpos => ⟨(hclosed hpos).1, fun c hc => (hclosed hpos).2 c hc (Nat.zero_le _)⟩⟩
  refine hlayers d ?_ c hc hdc
  refine (List.mem_append.mp (hfound'.1 ▸ hd)).resolve_left fun hd => ?_
  have hzero := hbase d hd
  omega

section

variable {done rest : List (Nat × Nat)} {first last : Nat}
  (hsplit : Chart.spansByLength lattice.size = done ++ (first, last) :: rest)
include hsplit

theorem tracks_step {ledger : List Entry}
    (h : Ran g o lattice pruner done (upTo g o lattice pruner done) ledger) :
    (fill g o lattice pruner (upTo g o lattice pruner done) (first, last)).tracks = g.map fun t =>
      Track.after Match.carrier o lattice (cells g o lattice pruner) t
        (done ++ [(first, last)]) := by
  have hrest : (first, last) ∉ rest := by
    have hs : Chart.spansByLength lattice.size = (done ++ [(first, last)]) ++ rest := by
      rw [hsplit, List.append_assoc]
      rfl
    exact Chart.disjoint_rest hs (List.mem_append_right _ List.mem_cons_self)
  have hcell : (fill g o lattice pruner (upTo g o lattice pruner done) (first, last)).found.get
      first last = cells g o lattice pruner first last := by
    rw [← upTo_append]
    exact get_upTo (by rw [hsplit, List.append_assoc]; rfl) hrest
  have hspan : (upTo g o lattice pruner done).found.IsSpan first last := by
    have hs := Chart.isSpan_of_split hsplit
    exact ⟨Nat.le_of_lt hs.1, by rw [size_upTo]; exact hs.2⟩
  have hafter : ∀ t, Track.after Match.carrier o lattice (cells g o lattice pruner) t
      (done ++ [(first, last)]) = ((Track.after Match.carrier o lattice (cells g o lattice pruner) t
        done).advance Match.carrier o lattice (cells g o lattice pruner) first last
        (lattice.distanceTable.length first last)).beginWith Match.carrier
          (cells g o lattice pruner first last) first last
            (lattice.distanceTable.length first last) := by
    intro t
    rw [Track.after, List.foldl_append]
    rfl
  cases hskip : pruner.skipsSpan first last with
  | true =>
    rw [fill_of_skipped hskip] at hcell ⊢
    simp only at hcell
    rw [get_upTo_blank (Chart.not_mem_done hsplit)] at hcell
    rw [advanced_eq hsplit h]
    refine List.map_congr_left fun t _ => ?_
    rw [hafter, ← hcell, Track.beginWith_nil]
  | false =>
    rw [fill_of_not_skipped hskip] at hcell ⊢
    simp only at hcell ⊢
    rw [Chart.get_set _ _ _ _ _ _ hspan, if_pos ⟨rfl, rfl⟩] at hcell
    rw [advanced_eq hsplit h, List.map_map, hcell]
    refine List.map_congr_left fun t _ => ?_
    rw [hafter]
    rfl

theorem ran_step_of_skipped {ledger : List Entry}
    (h : Ran g o lattice pruner done (upTo g o lattice pruner done) ledger)
    (hskip : pruner.skipsSpan first last = true) :
    Ran g o lattice pruner (done ++ [(first, last)])
      (fill g o lattice pruner (upTo g o lattice pruner done) (first, last)) ledger := by
  have htracks := tracks_step hsplit h
  have hnot : ∀ a, Genuine g o lattice pruner (listed (cells g o lattice pruner)) a →
      (a.place.first, a.place.last) ∈ done ++ [(first, last)] →
      (a.place.first, a.place.last) ∈ done := by
    intro a ha hmem
    rcases List.mem_append.mp hmem with hmem | hmem
    · exact hmem
    · have heq := List.mem_singleton.mp hmem
      have hleft := ha.spanLeft
      rw [(Prod.mk.inj heq).1, (Prod.mk.inj heq).2, hskip] at hleft
      cases hleft
  rw [fill_of_skipped hskip] at htracks ⊢
  refine ⟨htracks, h.recorded, h.derived, fun a ha => ?_, fun a ha hmem => ?_,
    fun hpos a ha hmem => ?_, fun a ha hmem => ?_, fun a ha hmem => ?_, h.nodup⟩
  · obtain ⟨hmem, hgen⟩ := h.genuine a ha
    exact ⟨List.mem_append_left _ hmem, hgen⟩
  · exact h.complete a ha (hnot a ha hmem)
  · exact h.labels hpos a ha (hnot a ha hmem)
  · exact h.unary a ha (hnot a ha hmem)
  · exact h.layers a ha (hnot a ha hmem)

/-- What a span that is left adds to the ledger: the matched rule pairs, then the unary rules. -/
theorem exists_adds {ledger : List Entry}
    (h : Ran g o lattice pruner done (upTo g o lattice pruner done) ledger)
    (hskip : pruner.skipsSpan first last = false) :
    ∃ new, Adds g o lattice pruner first last new ∧
      Building g lattice ⟨o, pruner, first, last⟩ (upTo g o lattice pruner done).found.get
        (built g o lattice pruner (upTo g o lattice pruner done) first last) (ledger ++ new) := by
  have hspan := Chart.isSpan_of_split hsplit
  obtain ⟨xs, unary, hnd, hxs, hbuild, ⟨hndUnary, hunary⟩, hlayers, hclosed⟩ :=
    exists_built hsplit h
  have hfound : ∀ c, c ∈ cells g o lattice pruner first last ↔
      c ∈ (built g o lattice pruner (upTo g o lattice pruner done) first last).found :=
    fun c => (perm_cells_built hsplit hskip).mem_iff
  have hmatched : ∀ a, a ∈ xs.filterMap (Application.entry? g ⟨o, pruner, first, last⟩) ↔
      Genuine g o lattice pruner (listed (cells g o lattice pruner)) a ∧
        (a.place.first = first ∧ a.place.last = last) ∧
          ¬a.step.parts.Begins (first, last) first last :=
    fun a => mem_matched_iff hspan hskip hxs
  refine ⟨_, ⟨fun a ha => ?_, fun a ha hfirst hlast hbegins => ?_, fun hpos a ha hfirst hlast => ?_,
    fun a ha hfirst hlast c hparts hlow => ?_, fun a ha hfirst hlast c hparts hup => ?_, ?_⟩,
    hbuild⟩
  · rcases List.mem_append.mp ha with ha | ha
    · obtain ⟨hgen, hplace, -⟩ := (hmatched a).mp ha
      exact ⟨hgen, hplace⟩
    · have hstep := (hunary a ha).1
      exact genuine_of_entry? hspan hskip hstep.1
        (fits_of_unaryStep hspan (fun c hc => (hfound c).mpr hc) hstep)
  · exact List.mem_append_left _ ((hmatched a).mpr ⟨ha, ⟨hfirst, hlast⟩, hbegins⟩)
  · by_cases hbegins : a.step.parts.Begins (first, last) first last
    · obtain ⟨pair, hp, hlabel⟩ := ha.label
      have hfits := ha.fits
      have hleft := ha.labelLeft
      rw [hfirst, hlast] at hfits
      rw [← hlabel, hfirst, hlast] at hleft
      obtain ⟨c, hc, -, t, ht, hcov, hpair⟩ := hfits.exists_unary hbegins hp
      obtain ⟨d, hd, hdl⟩ := (hclosed hpos).1 c ((hfound c).mp hc) t ht hcov pair hpair hleft
      exact ⟨d, (hfound d).mpr hd, hdl.trans hlabel⟩
    · have hmem := List.mem_append_right ledger (List.mem_append_left unary
        ((hmatched a).mpr ⟨ha, ⟨hfirst, hlast⟩, hbegins⟩))
      obtain ⟨e, he⟩ := List.getElem?_of_mem hmem
      obtain ⟨-, c, -, hc, hlabel, -⟩ := hbuild.recorded.edge e a he
      rw [hfirst, hlast, cellsWith_self] at hc
      exact ⟨c, (hfound c).mpr hc, hlabel⟩
  · obtain ⟨hc, hstep⟩ := unaryStep_of_genuine ha (hparts.trans (by rw [hfirst]))
    rw [hfirst, hlast] at hc hstep
    exact List.mem_append_right _
      ((hclosed (Nat.zero_lt_of_lt hlow)).2 c ((hfound c).mp hc) hlow a hstep)
  · obtain ⟨hc, hstep⟩ := unaryStep_of_genuine ha (hparts.trans (by rw [hfirst]))
    obtain ⟨d, hd, hdc⟩ := hup
    rw [hfirst, hlast] at hc hstep
    exact List.mem_append_right _
      (hlayers d ((hfound d).mp hd) c ((hfound c).mp hc) hdc a hstep)
  · -- A matched rule pair is of level zero, a unary rule is not.
    refine List.nodup_append.mpr ⟨nodup_matched hnd, hndUnary, fun a ha a' ha' heq => ?_⟩
    obtain ⟨hgen, ⟨hfirst, hlast⟩, hbegins⟩ := (hmatched a).mp ha
    rw [← hfirst, ← hlast] at hbegins
    have hlevel := (hunary a' ha').2
    rw [← heq, hgen.level_eq_zero hbegins] at hlevel
    exact Nat.lt_irrefl _ hlevel

theorem ran_step_of_left {ledger : List Entry}
    (h : Ran g o lattice pruner done (upTo g o lattice pruner done) ledger)
    (hskip : pruner.skipsSpan first last = false) :
    ∃ ledger', Ran g o lattice pruner (done ++ [(first, last)])
      (fill g o lattice pruner (upTo g o lattice pruner done) (first, last)) ledger' := by
  have htracks := tracks_step hsplit h
  obtain ⟨new, hnew, hbuild⟩ := exists_adds hsplit h hskip
  rw [fill_of_not_skipped hskip] at htracks ⊢
  simp only at htracks ⊢
  generalize built g o lattice pruner (upTo g o lattice pruner done) first last = b at *
  -- only the cell of the span changes, and its constituents are listed in another order
  have hget : ∀ i j c, c ∈ ((upTo g o lattice pruner done).found.set first last b.sorted).get i j ↔
      c ∈ cellsWith (upTo g o lattice pruner done).found.get first last b.found i j := by
    intro i j c
    rw [Chart.get_set _ _ _ _ _ _ (isSpan_upTo hsplit)]
    by_cases hij : i = first ∧ j = last
    · rw [if_pos hij, hij.1, hij.2, cellsWith_self, b.perm_sorted.mem_iff]
    · rw [if_neg hij, cellsWith_other _ _ hij]
  have hcases : ∀ a : Entry, (a.place.first, a.place.last) ∈ done ++ [(first, last)] →
      (a.place.first, a.place.last) ∈ done ∨ a.place.first = first ∧ a.place.last = last := by
    intro a hmem
    exact (List.mem_append.mp hmem).imp_right fun hmem => Prod.mk.inj (List.mem_singleton.mp hmem)
  refine ⟨_, htracks, hbuild.recorded.congr fun i j c => (hget i j c).symm, fun i j c hc => ?_,
    fun a ha => ?_, fun a ha hmem hbegins => ?_, fun hpos a ha hmem => ?_,
    fun a ha hmem c hparts hlow => ?_, fun a ha hmem c hparts hup => ?_, ?_⟩
  · rw [hget] at hc
    by_cases hij : i = first ∧ j = last
    · rw [hij.1, hij.2, cellsWith_self] at hc
      rw [hij.1, hij.2]
      exact hbuild.derived c hc
    · rw [cellsWith_other _ _ hij] at hc
      obtain ⟨a, ha, hrest⟩ := h.derived i j c hc
      exact ⟨a, List.mem_append_left _ ha, hrest⟩
  · rcases List.mem_append.mp ha with ha | ha
    · obtain ⟨hmem, hgen⟩ := h.genuine a ha
      exact ⟨List.mem_append_left _ hmem, hgen⟩
    · obtain ⟨hgen, hfirst, hlast⟩ := hnew.genuine a ha
      rw [hfirst, hlast]
      exact ⟨List.mem_append_right _ (List.mem_singleton.mpr rfl), hgen⟩
  · rcases hcases a hmem with hmem | ⟨hfirst, hlast⟩
    · exact List.mem_append_left _ (h.complete a ha hmem hbegins)
    · rw [hfirst, hlast] at hbegins
      exact List.mem_append_right _ (hnew.complete a ha hfirst hlast hbegins)
  · rcases hcases a hmem with hmem | ⟨hfirst, hlast⟩
    · exact h.labels hpos a ha hmem
    · rw [hfirst, hlast]
      exact hnew.labels hpos a ha hfirst hlast
  · rcases hcases a hmem with hmem | ⟨hfirst, hlast⟩
    · exact List.mem_append_left _ (h.unary a ha hmem c hparts hlow)
    · rw [hfirst] at hparts
      exact List.mem_append_right _ (hnew.unary a ha hfirst hlast c hparts hlow)
  · rcases hcases a hmem with hmem | ⟨hfirst, hlast⟩
    · exact List.mem_append_left _ (h.layers a ha hmem c hparts hup)
    · rw [hfirst] at hparts
      rw [hfirst, hlast] at hup
      exact List.mem_append_right _ (hnew.layers a ha hfirst hlast c hparts hup)
  · refine List.nodup_append.mpr ⟨h.nodup, hnew.nodup, fun a ha a' ha' heq => ?_⟩
    obtain ⟨hmem, -⟩ := h.genuine a ha
    obtain ⟨-, hfirst, hlast⟩ := hnew.genuine a' ha'
    rw [heq, hfirst, hlast] at hmem
    exact Chart.not_mem_done hsplit hmem

end

theorem exists_ran {done rest : List (Nat × Nat)}
    (hsplit : Chart.spansByLength lattice.size = done ++ rest) :
    ∃ ledger, Ran g o lattice pruner done (upTo g o lattice pruner done) ledger := by
  induction done using List.reverseRecOn generalizing rest with
  | nil => exact ⟨[], ran_start⟩
  | append_singleton done s ih =>
    rw [List.append_assoc] at hsplit
    obtain ⟨ledger, h⟩ := ih hsplit
    rw [upTo_append]
    have hsplit' : Chart.spansByLength lattice.size = done ++ (s.1, s.2) :: rest := hsplit
    cases hskip : pruner.skipsSpan s.1 s.2 with
    | true => exact ⟨ledger, ran_step_of_skipped hsplit' h hskip⟩
    | false => exact ran_step_of_left hsplit' h hskip

theorem Ran.exists_derived {ledger : List Entry}
    (h : Ran g o lattice pruner (Chart.spansByLength lattice.size) (run g o lattice pruner) ledger)
    {i j : Nat} {c : Constituent} (hc : c ∈ cells g o lattice pruner i j) :
    ∃ a ∈ ledger, Genuine g o lattice pruner (listed (cells g o lattice pruner)) a ∧
      a.place = ⟨i, j, c.label⟩ ∧ a.step.parts.level = c.level ∧
        ∀ d ∈ a.step.parts.entries, d.node < c.node := by
  obtain ⟨a, ha, hplace, hlevel⟩ := h.derived i j c hc
  obtain ⟨e, he⟩ := List.getElem?_of_mem ha
  obtain ⟨pair, c', -, hc', hlabel', hlevel', -, hbelow⟩ := h.recorded.edge e a he
  rw [hplace] at hc' hlabel'
  have heq := h.recorded.distinct i j c' c hc' hc hlabel' (hlevel'.trans hlevel)
  rw [heq] at hbelow
  exact ⟨a, ha, (h.genuine a ha).2, hplace, hlevel, hbelow⟩

theorem Ran.exists_entry {ledger : List Entry}
    (h : Ran g o lattice pruner (Chart.spansByLength lattice.size) (run g o lattice pruner) ledger)
    {i j : Nat} {c : Constituent} (hc : c ∈ cells g o lattice pruner i j) :
    ∃ a, Genuine g o lattice pruner (listed (cells g o lattice pruner)) a ∧
      a.place = ⟨i, j, c.label⟩ ∧ ∀ d ∈ a.step.parts.entries, d.node < c.node := by
  obtain ⟨a, -, hgen, hplace, -, hbelow⟩ := h.exists_derived hc
  exact ⟨a, hgen, hplace, hbelow⟩

end ForestState

end ParseForest
