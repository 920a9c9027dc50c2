import ParseForest.Proofs.Posterior.Run
import ParseForest.Proofs.Tables.Closures
import ParseForest.Proofs.Tables.Matching

/-!
# The inside pass with its tables

A scoring parser keeps the three tiers, the inside and the outside scores in charts of arrays, at
the numbers of labels, and makes edges and items of numbers too. Every access to a chart, to the
labels and to a rule table is checked here. Spans are filled one by one, and every edge that is
found leads to labels over spans that have been filled before. So the tables follow the state of
the scoring parser, and no access fails.
-/

namespace ParseForest

variable {V S : Type}

structure TableTail where
  first : Nat
  last : Nat
  id : Nat

structure TableEdge (S : Type) where
  tails : List TableTail
  score : S

structure IdEdge (S : Type) where
  tail : Nat
  score : S

structure ScoreCells (S : Type) where
  cache : ClosureCache S
  goal : Nat
  built : Chart (Array (Array (TableEdge S)))
  closed : Chart (Array (Array (IdEdge S)))
  final : Chart (Array (Array (IdEdge S)))
  inside : Chart (Array S)
  outside : Chart (Array S)

structure ScoreTables (S : Type) where
  actives : ItemCharts (TableEdge S)
  cells : ScoreCells S

namespace ScoreCells

variable [Score S] (g : Grammar V) (w : Weighting V S) (o : Options V) (order : ClosureOrder)
  (site : Site V)

def carrier (s : ScoreCells S) : TableCarrier V TableTail (TableEdge S) where
  label? t := s.cache.labels.symbols[t.id]?
  start := ⟨[], Score.one⟩
  overEntry e t := { e with tails := e.tails ++ [t] }
  overArc e a := { e with score := Score.mul e.score (w a.features) }

omit [Score S] in
def entries? (s : ScoreCells S) (first last : Nat) : Option (List TableTail) := do
  let cell ← s.final.get? first last
  return (nonEmpty cell).map fun id => ⟨first, last, id⟩

def product? (s : ScoreCells S) (start : S) (tails : List TableTail) : Option S :=
  tails.foldlM (fun acc t => do
    let cell ← s.inside.get? t.first t.last
    return Score.mul acc (scoreAt cell t.id)) start

def raiseInside? (id : Nat) (score : S) (s : ScoreCells S) : Option (ScoreCells S) := do
  let inside ← s.inside.alter? site.first site.last Score.zero id (Score.best · score)
  return { s with inside }

def buildLabel? (used : TableEdge S) (tails : S) (s : ScoreCells S) (pair : RulePair V) :
    Option (ScoreCells S) := do
  let label := (site.ruleOf pair).lhs
  let skip ← site.pruner.skipsLabel? site.first site.last label
  if skip then return s
  else
    let (labels, id) := s.cache.labels.number label
    let score := Score.mul used.score (w pair.features)
    let built ← s.built.alter? site.first site.last #[] id (·.push { used with score })
    raiseInside? site id (Score.mul tails score)
      { s with cache := { s.cache with labels }, built }

def parser : TableParser V TableTail (TableEdge S) (ScoreCells S) where
  carrier := carrier w
  entries? := entries?
  build? s pairs used :=
    if pairs.isEmpty then some s
    else do
      let tails ← s.product? Score.one used.tails
      pairs.foldlM (buildLabel? w site used tails) s

omit [Score S] in
def addUnary? (toFinal : Bool) (id : Nat) (e : IdEdge S) (s : ScoreCells S) :
    Option (ScoreCells S) :=
  if toFinal then do
    let final ← s.final.alter? site.first site.last #[] id (·.push e)
    return { s with final }
  else do
    let closed ← s.closed.alter? site.first site.last #[] id (·.push e)
    return { s with closed }

def reachLabel? (toFinal : Bool) (child : Nat) (tail : S) (s : ScoreCells S)
    (reached : Nat × S) : Option (ScoreCells S) := do
  let label ← s.cache.labels.symbols[reached.1]?
  let skip ← site.pruner.skipsLabel? site.first site.last label
  if skip then return s
  else
    let s ← addUnary? site toFinal reached.1 ⟨child, reached.2⟩ s
    raiseInside? site reached.1 (Score.mul tail reached.2) s

def closeLabel? (toFinal : Bool) (s : ScoreCells S) (child : Nat) : Option (ScoreCells S) := do
  let (cache, closure) ← s.cache.closure? g w o order child
  let cell ← s.inside.get? site.first site.last
  closure.foldlM (reachLabel? site toFinal child (scoreAt cell child)) { s with cache }

def closeSpan? (s : ScoreCells S) : Option (ScoreCells S) := do
  let cell ← s.built.get? site.first site.last
  let s ← (nonEmpty cell).foldlM (closeLabel? g w o order site false) s
  let cell ← s.closed.get? site.first site.last
  (nonEmpty cell).foldlM (closeLabel? g w o order site true) s

end ScoreCells

/-! ## The tables follow the state -/

structure TableTail.Names (labels : List Symbol) (known : Set SpanLabel) (t : TableTail)
    (l : SpanLabel) : Prop where
  first : t.first = l.first
  last : t.last = l.last
  id : labels[t.id]? = some l.label
  known : l ∈ known

structure TableEdge.Like (labels : List Symbol) (known : Set SpanLabel) (e : TableEdge S)
    (f : ScoredEdge S) : Prop where
  tails : List.Forall₂ (TableTail.Names labels known) e.tails f.tails
  score : e.score = f.score

structure IdEdge.Like (labels : List Symbol) (e : IdEdge S) (f : UnaryEdge S) : Prop where
  tail : labels[e.tail]? = some f.tail
  score : e.score = f.score

section

variable {labels labels' : List Symbol} {known known' : Set SpanLabel}

theorem TableTail.Names.mono (hlabels : labels <+: labels') (hknown : known ⊆ known')
    {t : TableTail} {l : SpanLabel} (h : t.Names labels known l) : t.Names labels' known' l :=
  ⟨h.first, h.last, getElem?_of_extends hlabels h.id, hknown h.known⟩

theorem TableEdge.Like.mono (hlabels : labels <+: labels') (hknown : known ⊆ known')
    {e : TableEdge S} {f : ScoredEdge S} (h : e.Like labels known f) : e.Like labels' known' f :=
  ⟨h.tails.imp fun _ _ => .mono hlabels hknown, h.score⟩

theorem IdEdge.Like.mono (hlabels : labels <+: labels') {e : IdEdge S} {f : UnaryEdge S}
    (h : e.Like labels f) : e.Like labels' f :=
  ⟨getElem?_of_extends hlabels h.tail, h.score⟩

end

namespace ScoreCells

variable [Score S]

structure Follows (g : Grammar V) (w : Weighting V S) (o : Options V) (order : ClosureOrder)
    (size : Nat) (known : Set SpanLabel) (s : ScoreCells S) (st : ScoreState V S) : Prop where
  cache : s.cache.Good g w o order st.labels
  goal : st.labels[s.goal]? = some o.goal
  built : Chart.Cellwise (Stored st.labels #[] (AreEdges (TableEdge.Like st.labels known)))
    s.built st.built
  closed : Chart.Cellwise (Stored st.labels #[] (AreEdges (IdEdge.Like st.labels)))
    s.closed st.closed
  final : Chart.Cellwise (Stored st.labels #[] (AreEdges (IdEdge.Like st.labels)))
    s.final st.final
  inside : Chart.Cellwise (Stored st.labels Score.zero IsScore) s.inside st.inside
  outside : Chart.Cellwise (Stored st.labels Score.zero IsScore) s.outside st.outside
  sized : st.Sized size
  reach : st.outside.size = size
  spans : ∀ l ∈ known, l.first < l.last ∧ l.last ≤ size

variable {g : Grammar V} {w : Weighting V S} {o : Options V} {order : ClosureOrder} {size : Nat}
  {known : Set SpanLabel} {s : ScoreCells S} {st : ScoreState V S} {site : Site V}

namespace Follows

theorem grow (h : Follows g w o order size known s st) {labels : List Symbol}
    {cache : ClosureCache S} (hext : st.labels <+: labels)
    (hcache : cache.Good g w o order labels) :
    Follows g w o order size known { s with cache } { st with labels } := by
  have hnodup := hcache.numbers.nodup
  have hscores : ∀ {c d}, Chart.Cellwise (Stored st.labels Score.zero (IsScore (S := S))) c d →
      Chart.Cellwise (Stored labels Score.zero IsScore) c d := fun h => h.grow rfl hext hnodup
  have hids : ∀ {c d}, Chart.Cellwise (Stored st.labels #[]
      (AreEdges (IdEdge.Like (S := S) st.labels))) c d →
      Chart.Cellwise (Stored labels #[] (AreEdges (IdEdge.Like labels))) c d := fun h =>
    (h.grow areEdges_none hext hnodup).mono fun _ _ hc =>
      hc.mono (AreEdges.mono fun _ _ => .mono hext)
  exact ⟨hcache, getElem?_of_extends hext h.goal,
    (h.built.grow areEdges_none hext hnodup).mono fun _ _ hc =>
      hc.mono (AreEdges.mono fun _ _ => .mono hext subset_rfl),
    hids h.closed, hids h.final, hscores h.inside, hscores h.outside,
    ⟨h.sized.built, h.sized.closed, h.sized.final, h.sized.inside⟩, h.reach, h.spans⟩

theorem withTracks (h : Follows g w o order size known s st)
    (tracks : List (Track V (ScoredEdge S))) :
    Follows g w o order size known s { st with tracks } :=
  ⟨h.cache, h.goal, h.built, h.closed, h.final, h.inside, h.outside,
    ⟨h.sized.built, h.sized.closed, h.sized.final, h.sized.inside⟩, h.reach, h.spans⟩

theorem pass (h : Follows g w o order size known s st) {known' : Set SpanLabel}
    (hknown : known ⊆ known') (hspans : ∀ l ∈ known', l.first < l.last ∧ l.last ≤ size) :
    Follows g w o order size known' s st :=
  { h with
    built := h.built.mono fun _ _ hc => hc.mono (AreEdges.mono fun _ _ =>
      .mono (List.prefix_refl _) hknown)
    spans := hspans }

theorem product (h : Follows g w o order size known s st) {tails' : List TableTail}
    {tails : List SpanLabel} (htails : List.Forall₂ (TableTail.Names st.labels known) tails' tails)
    (start : S) : s.product? start tails' =
      some (Score.product start (tails.map st.insideOf)) := by
  rw [Score.product, List.foldl_map]
  refine (yields_foldlM (R := Eq) (fun x y t l hxy ht => ?_) htails rfl).eq_some
  have hl := h.spans _ ht.known
  have hspan : s.inside.IsSpan t.first t.last := by
    refine h.inside.isSpan_iff.mpr ?_
    rw [ht.first, ht.last]
    exact ⟨Nat.le_of_lt hl.1, h.sized.inside ▸ hl.2⟩
  rw [Chart.get?_eq_some_get hspan, hxy]
  refine yields_some (congrArg _ ?_)
  rw [ht.first, ht.last]
  exact (h.inside.cell l.first l.last).scoreAt_eq ht.id

theorem inside_eq (h : Follows g w o order size known s st) {first last id : Nat} {label : Symbol}
    (hid : st.labels[id]? = some label) :
    scoreAt (s.inside.get first last) id = st.insideOf ⟨first, last, label⟩ :=
  (h.inside.cell first last).scoreAt_eq hid

theorem raiseInside (h : Follows g w o order size known s st)
    (hspan : site.first < site.last ∧ site.last ≤ size) {id : Nat} {label : Symbol}
    (hid : st.labels[id]? = some label) (score : S) :
    Yields (raiseInside? site id score s) fun r => r.final = s.final ∧
      Follows g w o order size known r (st.raiseInside ⟨site.first, site.last, label⟩ score) := by
  have hinside := (h.sized.isSpan hspan).2.2.2
  refine (h.inside.alter hinside h.cache.numbers.nodup hid (isScore_best score)).bind
    fun inside hinside => yields_some ⟨rfl, ?_⟩
  exact ⟨h.cache, h.goal, h.built, h.closed, h.final, hinside, h.outside,
    ⟨h.sized.built, h.sized.closed, h.sized.final, (Chart.size_modify ..).trans h.sized.inside⟩,
    h.reach, h.spans⟩

theorem addUnary (h : Follows g w o order size known s st)
    (hspan : site.first < site.last ∧ site.last ≤ size) (toFinal : Bool) {id : Nat}
    {label : Symbol} (hid : st.labels[id]? = some label) {e : IdEdge S} {f : UnaryEdge S}
    (hef : e.Like st.labels f) :
    Yields (addUnary? site toFinal id e s) (Follows g w o order size known ·
      (st.addUnary toFinal ⟨site.first, site.last, label⟩ f)) := by
  obtain ⟨-, hclosed, hfinal, -⟩ := h.sized.isSpan hspan
  unfold addUnary? ScoreState.addUnary
  cases toFinal with
  | false =>
    refine (h.closed.alter hclosed h.cache.numbers.nodup hid (areEdges_push hef)).bind
      fun closed hclosed => yields_some ?_
    exact ⟨h.cache, h.goal, h.built, hclosed, h.final, h.inside, h.outside,
      ⟨h.sized.built, (Chart.size_modify ..).trans h.sized.closed, h.sized.final,
        h.sized.inside⟩, h.reach, h.spans⟩
  | true =>
    refine (h.final.alter hfinal h.cache.numbers.nodup hid (areEdges_push hef)).bind
      fun final hfinal => yields_some ?_
    exact ⟨h.cache, h.goal, h.built, h.closed, hfinal, h.inside, h.outside,
      ⟨h.sized.built, h.sized.closed, (Chart.size_modify ..).trans h.sized.final,
        h.sized.inside⟩, h.reach, h.spans⟩

theorem buildLabel (h : Follows g w o order size known s st)
    (hspan : site.first < site.last ∧ site.last ≤ size)
    (hknows : site.pruner.knows site.last = true) {used' : TableEdge S} {used : ScoredEdge S}
    (hused : used'.Like st.labels known used) (pair : RulePair V) :
    Yields (buildLabel? w site used' (Score.product Score.one (used.tails.map st.insideOf)) s pair)
      fun r => r.final = s.final ∧
        Follows g w o order size known r (ScoreState.buildLabel w site st (pair, used)) := by
  unfold buildLabel? ScoreState.buildLabel
  simp only [Pruner.skipsLabel?_eq_some hknows, Option.bind_eq_bind, Option.bind_some]
  cases hskip : site.pruner.skipsLabel site.first site.last (site.ruleOf pair).lhs with
  | true =>
    have hskips : site.skips (site.ruleOf pair).lhs = true := hskip
    simp only [hskips, if_true]
    exact yields_some ⟨rfl, h⟩
  | false =>
    have hskips : site.skips (site.ruleOf pair).lhs = false := hskip
    simp only [hskips, Bool.false_eq_true, if_false]
    generalize (site.ruleOf pair).lhs = label
    obtain ⟨hnumbers, hid⟩ := h.cache.numbers.number label
    have hext := ScoreState.noteLabel_extends st.labels label
    have hgrown := h.grow hext (h.cache.grow hext hnumbers)
    have hbuilt := (h.sized.isSpan hspan).1
    have hscore : Score.mul used'.score (w pair.features) =
        Score.mul used.score (w pair.features) := by rw [hused.score]
    have hedge : TableEdge.Like (noteLabel st.labels label) known
        { used' with score := Score.mul used'.score (w pair.features) }
        { used with score := Score.mul used.score (w pair.features) } :=
      ⟨(hused.mono hext subset_rfl).tails, hscore⟩
    refine (hgrown.built.alter hbuilt hnumbers.nodup hid (areEdges_push hedge)).bind
      fun built hbuilt => ?_
    have hadded : Follows g w o order size known
        { s with cache := { s.cache with labels := (s.cache.labels.number label).1 }, built }
        (st.addBuilt ⟨site.first, site.last, label⟩
          { used with score := Score.mul used.score (w pair.features) }) :=
      ⟨hgrown.cache, hgrown.goal, hbuilt, hgrown.closed, hgrown.final, hgrown.inside,
        hgrown.outside, ⟨(Chart.size_modify ..).trans h.sized.built, h.sized.closed,
          h.sized.final, h.sized.inside⟩, h.reach, h.spans⟩
    rw [hscore]
    exact hadded.raiseInside hspan hid _

/-- Rule pairs that one item matches build their labels. The scores of the tails are read once: the
tails are over spans that have been filled, so building changes none of them. -/
theorem build (h : Follows g w o order size known s st)
    (hspan : site.first < site.last ∧ site.last ≤ size)
    (hknows : site.pruner.knows site.last = true)
    (hnew : ∀ l ∈ known, ¬(l.first = site.first ∧ l.last = site.last))
    {used' : TableEdge S} {used : ScoredEdge S} (hused : used'.Like st.labels known used)
    (pairs : List (RulePair V)) :
    Yields ((parser w site).build? s pairs used') fun r => r.final = s.final ∧
      Follows g w o order size known r
        (pairs.foldl (fun st pair => ScoreState.buildLabel w site st (pair, used)) st) ∧
      st.labels <+:
        (pairs.foldl (fun st pair => ScoreState.buildLabel w site st (pair, used)) st).labels := by
  let R (r : ScoreCells S) (t : ScoreState V S) : Prop := r.final = s.final ∧
    Follows g w o order size known r t ∧ st.labels <+: t.labels ∧
      used.tails.map t.insideOf = used.tails.map st.insideOf
  have hstep (r : ScoreCells S) (t : ScoreState V S) (pair : RulePair V) (hr : R r t) :
      Yields (buildLabel? w site used' (Score.product Score.one (used.tails.map st.insideOf)) r pair)
        (R · (ScoreState.buildLabel w site t (pair, used))) := by
    obtain ⟨hfinal, hfollows, hext, htails⟩ := hr
    obtain ⟨steps, hlocal, -⟩ := ScoreState.local_matched hfollows.sized w site hspan [(pair, used)]
    rw [← htails]
    refine (hfollows.buildLabel hspan hknows (hused.mono hext subset_rfl) pair).mono
      fun r' ⟨hfinal', hfollows'⟩ => ⟨hfinal'.trans hfinal, hfollows',
        hext.trans hlocal.labels, ?_⟩
    rw [← htails]
    exact List.map_congr_left fun l hl => ScoreState.insideOf_eq (hlocal.other _ _
      (hnew l (forall_mem_of_forall₂ (fun _ _ ht => ht.known) hused.tails l hl)))
  have hstart : R s st := ⟨rfl, h, List.prefix_refl _, rfl⟩
  unfold parser
  simp only [h.product hused.tails]
  cases pairs with
  | nil => exact yields_some ⟨rfl, h, List.prefix_refl _⟩
  | cons pair pairs =>
    exact (yields_foldlM_same (fun r t pair _ => hstep r t pair) hstart).mono
      fun _ hr => ⟨hr.1, hr.2.1, hr.2.2.1⟩

/-! ### Closures -/

theorem reachLabel (h : Follows g w o order size known s st)
    (hspan : site.first < site.last ∧ site.last ≤ size)
    (hknows : site.pruner.knows site.last = true) (toFinal : Bool) {child : Nat} {name : Symbol}
    (hchild : st.labels[child]? = some name) (tail : S) {a : Nat × S} {b : Symbol × S}
    (hab : IdScores.Names st.labels a b) :
    Yields (reachLabel? site toFinal child tail s a) fun r =>
      Follows g w o order size known r (ScoreState.reachLabel site toFinal name tail st b) ∧
        (ScoreState.reachLabel site toFinal name tail st b).labels = st.labels := by
  unfold reachLabel? ScoreState.reachLabel
  rw [h.cache.numbers.symbol, hab.1]
  simp only [Pruner.skipsLabel?_eq_some hknows, Option.bind_eq_bind, Option.bind_some]
  cases hskip : site.pruner.skipsLabel site.first site.last b.1 with
  | true =>
    have hskips : site.skips b.1 = true := hskip
    simp only [hskips, if_true]
    exact yields_some ⟨h, trivial⟩
  | false =>
    have hskips : site.skips b.1 = false := hskip
    have hlabels (f : UnaryEdge S) :
        (st.addUnary toFinal ⟨site.first, site.last, b.1⟩ f).labels = st.labels := by
      cases toFinal <;> rfl
    simp only [hskips, Bool.false_eq_true, if_false]
    have hedge : IdEdge.Like st.labels ⟨child, a.2⟩ ⟨name, b.2⟩ := ⟨hchild, hab.2⟩
    refine (h.addUnary hspan toFinal hab.1 hedge).bind fun s' hs' => ?_
    rw [hab.2]
    exact (hs'.raiseInside hspan ((hlabels _).symm ▸ hab.1) _).mono
      fun r hr => ⟨hr.2, hlabels _⟩

theorem closeLabel (hclosed : ∀ t ∈ g, t.Closed) (h : Follows g w o order size known s st)
    (hspan : site.first < site.last ∧ site.last ≤ size)
    (hknows : site.pruner.knows site.last = true) (toFinal : Bool) {child : Nat} {name : Symbol}
    (hchild : st.labels[child]? = some name) :
    Yields (closeLabel? g w o order site toFinal s child) fun r =>
      Follows g w o order size known r
        (ScoreState.closeLabel (unaryClosureIn order g w o) site toFinal st name) ∧
        st.labels <+:
          (ScoreState.closeLabel (unaryClosureIn order g w o) site toFinal st name).labels := by
  have hext := IdRound.prefix_noted st.labels (unaryClosureIn order g w o name)
  have hinside : s.inside.IsSpan site.first site.last := by
    refine h.inside.isSpan_iff.mpr ⟨by omega, ?_⟩
    rw [h.sized.inside]
    exact hspan.2
  unfold closeLabel?
  refine (ClosureCache.yields_closure hclosed h.cache hchild).bind
    fun (cache, closure) ⟨hcache, hclosure⟩ => ?_
  simp only
  rw [Chart.get?_eq_some_get hinside, Option.bind_eq_bind, Option.bind_some, h.inside_eq hchild]
  let labels := IdRound.noted st.labels (unaryClosureIn order g w o name)
  let R (r : ScoreCells S) (t : ScoreState V S) : Prop :=
    Follows g w o order size known r t ∧ t.labels = labels
  have hstep (r : ScoreCells S) (t : ScoreState V S) (a : Nat × S) (b : Symbol × S) (hr : R r t)
      (hab : IdScores.Names labels a b) :
      Yields (reachLabel? site toFinal child (st.insideOf ⟨site.first, site.last, name⟩) r a)
        (R · (ScoreState.reachLabel site toFinal name
          (st.insideOf ⟨site.first, site.last, name⟩) t b)) :=
    (hr.1.reachLabel hspan hknows toFinal (hr.2.symm ▸ getElem?_of_extends hext hchild) _
      (hr.2.symm ▸ hab)).mono fun r' hr' => ⟨hr'.1, hr'.2.trans hr.2⟩
  have hstart : R { s with cache } { st with labels } := ⟨h.grow hext hcache, rfl⟩
  exact (yields_foldlM hstep hclosure hstart).mono fun r hr => ⟨hr.1, hr.2.symm ▸ hext⟩

theorem closeLabels (hclosed : ∀ t ∈ g, t.Closed) (h : Follows g w o order size known s st)
    (hspan : site.first < site.last ∧ site.last ≤ size)
    (hknows : site.pruner.knows site.last = true) (toFinal : Bool) {ids : List Nat}
    {names : List Symbol}
    (hids : List.Forall₂ (fun id name => st.labels[id]? = some name) ids names) :
    Yields (ids.foldlM (closeLabel? g w o order site toFinal) s) fun r =>
      Follows g w o order size known r
        (names.foldl (ScoreState.closeLabel (unaryClosureIn order g w o) site toFinal) st) ∧
        st.labels <+: (names.foldl
          (ScoreState.closeLabel (unaryClosureIn order g w o) site toFinal) st).labels := by
  let R (r : ScoreCells S) (t : ScoreState V S) : Prop :=
    Follows g w o order size known r t ∧ st.labels <+: t.labels
  have hstep (r : ScoreCells S) (t : ScoreState V S) (id : Nat) (name : Symbol) (hr : R r t)
      (hid : st.labels[id]? = some name) :
      Yields (closeLabel? g w o order site toFinal r id)
        (R · (ScoreState.closeLabel (unaryClosureIn order g w o) site toFinal t name)) :=
    (hr.1.closeLabel hclosed hspan hknows toFinal (getElem?_of_extends hr.2 hid)).mono
      fun r' hr' => ⟨hr'.1, hr.2.trans hr'.2⟩
  exact yields_foldlM (R := R) hstep hids ⟨h, List.prefix_refl _⟩

theorem closeSpan (hclosed : ∀ t ∈ g, t.Closed) (h : Follows g w o order size known s st)
    (hspan : site.first < site.last ∧ site.last ≤ size)
    (hknows : site.pruner.knows site.last = true) :
    Yields (closeSpan? g w o order site s) fun r =>
      Follows g w o order size known r
        (ScoreState.closeSpan (unaryClosureIn order g w o) site st) ∧
        st.labels <+: (ScoreState.closeSpan (unaryClosureIn order g w o) site st).labels := by
  obtain ⟨hbuilt, -, -, -⟩ := h.sized.isSpan hspan
  unfold closeSpan? ScoreState.closeSpan
  rw [Chart.get?_eq_some_get (h.built.isSpan_iff.mpr hbuilt)]
  have hids := (h.built.cell site.first site.last).nonEmpty_among h.cache.numbers.nodup
  refine (h.closeLabels hclosed hspan hknows false hids).bind fun s' ⟨hs', hext⟩ => ?_
  generalize ((st.built.get site.first site.last).among st.labels).foldl
    (ScoreState.closeLabel (unaryClosureIn order g w o) site false) st = st' at hs' hext
  obtain ⟨-, hmiddle, -, -⟩ := hs'.sized.isSpan hspan
  rw [Chart.get?_eq_some_get (hs'.closed.isSpan_iff.mpr hmiddle)]
  have hids' := (hs'.closed.cell site.first site.last).nonEmpty_among hs'.cache.numbers.nodup
  exact (hs'.closeLabels hclosed hspan hknows true hids').mono
    fun r hr => ⟨hr.1, hext.trans hr.2⟩

/-! ### Entries -/

theorem entries (h : Follows g w o order size known s st) {first last : Nat}
    (hspan : first < last ∧ last ≤ size)
    (hknown : ∀ l ∈ EdgeMap.labelsAt st.final st.labels first last, l ∈ known) :
    Yields (s.entries? first last) (List.Forall₂ (TableTail.Names st.labels known) ·
      (EdgeMap.labelsAt st.final st.labels first last)) := by
  have hfinal := (h.sized.isSpan hspan).2.2.1
  have hids := (h.final.cell first last).nonEmpty_among h.cache.numbers.nodup
  unfold entries?
  rw [Chart.get?_eq_some_get (h.final.isSpan_iff.mpr hfinal)]
  refine yields_some (List.forall₂_map_left_iff.mpr (List.forall₂_map_right_iff.mpr ?_))
  exact (forall₂_mem_right hids).imp fun id label ⟨hid, hlabel⟩ =>
    ⟨rfl, rfl, hid, hknown ⟨first, last, label⟩ (List.mem_map_of_mem hlabel)⟩

theorem standsFor {base : List Symbol} (h : Follows g w o order size known s st)
    (hext : base <+: st.labels) : (s.carrier w).StandsFor (ScoredEdge.carrier w)
      (TableTail.Names base known) (TableEdge.Like base known) where
  label t _ ht := (h.cache.numbers.symbol t.id).trans (getElem?_of_extends hext ht.id)
  start := ⟨.nil, rfl⟩
  overEntry _ _ _ _ hef ht := ⟨List.rel_append hef.tails (.cons ht .nil), hef.score⟩
  overArc _ _ a hef := ⟨hef.tails, congrArg (Score.mul · (w a.features)) hef.score⟩

end Follows

end ScoreCells

end ParseForest
