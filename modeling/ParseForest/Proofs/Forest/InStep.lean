import Mathlib.Logic.ExistsUnique
import ParseForest.Proofs.Forest.Graph
import ParseForest.Proofs.Hypergraph.Isomorphic
import ParseForest.Proofs.RuleTable.Read

/-!
# Constituents and nodes in step

The constituents of the spans and the graph over them grow together: each node belongs to one
constituent of one span, and no two constituents of a span share label and level. An edge of level
zero leads to shorter spans, a unary edge one level down within its span. So tails come before
their heads.

All of this can be read off a ledger that accounts for every constituent.
-/

namespace ParseForest

variable {V : Type}

/-- The constituents of the spans and the graph over them are in step. -/
structure InStep (cells : Nat → Nat → List Constituent) (graph : Hypergraph V) : Prop where
  entry : ∀ n : Nat, n < graph.nodes.size → ∃! x : Nat × Nat × Constituent,
    x.2.2 ∈ cells x.1 x.2.1 ∧ x.2.2.node = n
  bound : ∀ i j, ∀ c ∈ cells i j, c.node < graph.nodes.size
  nodup : ∀ i j, (cells i j).Nodup
  distinct : ∀ i j, ∀ c ∈ cells i j, ∀ d ∈ cells i j, c.label = d.label → c.level = d.level → c = d
  derived : ∀ n : Nat, n < graph.nodes.size → ∃ e : Nat, e < graph.edges.size ∧
    (graph.edge e).head = some n ∧ e ∈ (graph.node n).edges
  below : ∀ e : Nat, e < graph.edges.size → ∃ n : Nat, n < graph.nodes.size ∧
    (graph.edge e).head = some n ∧ e ∈ (graph.node n).edges ∧
      ∀ t ∈ (graph.edge e).tails, (show Nat from t) < n
  unary : ∀ e : Nat, e < graph.edges.size → ∀ i j, ∀ c ∈ cells i j,
    (graph.edge e).head = some c.node → ∀ level, c.level = level + 1 →
      ∃ d ∈ cells i j, d.level = level ∧ (graph.edge e).tails = [d.node]
  inside : ∀ e : Nat, e < graph.edges.size → ∀ i j, ∀ c ∈ cells i j,
    (graph.edge e).head = some c.node → c.level = 0 → ∀ t ∈ (graph.edge e).tails,
      ∃ p q, (∃ d ∈ cells p q, d.node = t) ∧ i ≤ p ∧ p < q ∧ q ≤ j ∧ q - p < j - i

/-- The parts of an application over a span are where its rule takes them from: over the span itself
for a unary rule, otherwise strictly inside it. -/
structure Trail.TakenFrom (cells : Nat → Nat → List Constituent) (first last : Nat)
    (x : Trail Constituent) : Prop where
  unary : ∀ p c, x = .entry .start p c → c ∈ cells first last
  inside : x.level = 0 → ∀ d ∈ x.entries, ∃ p q, d ∈ cells p q ∧
    first ≤ p ∧ p < q ∧ q ≤ last ∧ q - p < last - first

namespace Trail

variable {cells : Nat → Nat → List Constituent} {first last : Nat} {x : Trail Constituent}

theorem eq_entry_of_level {level : Nat} (h : x.level = level + 1) :
    ∃ p c, x = .entry .start p c ∧ c.level = level := by
  cases x with
  | start => cases h
  | arc x p k => cases h
  | entry x p c =>
    cases x with
    | start => exact ⟨p, c, rfl, Nat.succ.inj h⟩
    | entry x q d => cases h
    | arc x q k => cases h

theorem takenFrom_entry {p : Nat} {c : Constituent} (hc : c ∈ cells first last) :
    (Trail.entry .start p c).TakenFrom cells first last where
  unary _ _ heq := by
    cases heq
    exact hc
  inside hlevel := by cases hlevel

theorem takenFrom_of_inside (hlevel : x.level = 0)
    (h : ∀ d ∈ x.entries, ∃ p q, d ∈ cells p q ∧ first ≤ p ∧ p < q ∧ q ≤ last ∧
      q - p < last - first) : x.TakenFrom cells first last where
  unary _ _ heq := by
    rw [heq] at hlevel
    cases hlevel
  inside _ := h

theorem TakenFrom.mono {cells' : Nat → Nat → List Constituent}
    (hsub : ∀ i j, ∀ c ∈ cells i j, c ∈ cells' i j) (h : x.TakenFrom cells first last) :
    x.TakenFrom cells' first last where
  unary p c heq := hsub _ _ c (h.unary p c heq)
  inside hlevel d hd := by
    obtain ⟨p, q, hd, hrest⟩ := h.inside hlevel d hd
    exact ⟨p, q, hsub p q d hd, hrest⟩

end Trail

variable [Scalar V]

/-- Every constituent is accounted for by an entry of the ledger, and the parts of every entry are
where its rule takes them from. -/
structure Accounted (g : Grammar V) (o : Options V) (lattice : Lattice V)
    (cells : Nat → Nat → List Constituent) (graph : Hypergraph V) (ledger : List Entry) :
    Prop where
  recorded : Recorded g o lattice cells graph ledger
  derived : ∀ i j, ∀ c ∈ cells i j, ∃ a ∈ ledger, a.place = ⟨i, j, c.label⟩ ∧
    a.step.parts.level = c.level
  parts : ∀ a ∈ ledger, a.step.parts.TakenFrom cells a.place.first a.place.last
  nodup : ∀ i j, (cells i j).Nodup

namespace Accounted

variable {g : Grammar V} {o : Options V} {lattice : Lattice V}
  {cells : Nat → Nat → List Constituent} {graph : Hypergraph V} {ledger : List Entry}

theorem exists_entry (h : Accounted g o lattice cells graph ledger) {e : Nat}
    (he : e < graph.edges.size) {i j : Nat} {c : Constituent} (hc : c ∈ cells i j)
    (hhead : (graph.edge e).head = some c.node) :
    ∃ (x : Trail Constituent) (pair : RulePair V), x.level = c.level ∧ x.TakenFrom cells i j ∧
      (graph.edge e).tails = orderTails pair.source (x.entries.map Constituent.node) := by
  rw [h.recorded.size] at he
  obtain ⟨pair, d, -, hd, -, hlevel, hedge, -⟩ :=
    h.recorded.edge e _ (List.getElem?_eq_getElem he)
  have hnode : d.node = c.node := by
    rw [hedge] at hhead
    exact Option.some.inj hhead
  obtain ⟨rfl, rfl, rfl⟩ := h.recorded.once _ _ _ _ d c hd hc hnode
  refine ⟨_, pair, hlevel.symm, h.parts _ (List.getElem_mem he), ?_⟩
  rw [hedge, ← load_tails lattice]
  rfl

theorem inStep (h : Accounted g o lattice cells graph ledger) : InStep cells graph where
  entry n hn := by
    obtain ⟨i, j, c, hc, rfl⟩ := h.recorded.known n hn
    refine ⟨(i, j, c), ⟨hc, rfl⟩, ?_⟩
    rintro ⟨i', j', c'⟩ ⟨hc', hnode⟩
    obtain ⟨rfl, rfl, rfl⟩ := h.recorded.once i' j' i j c' c hc' hc hnode
    rfl
  bound := h.recorded.bound
  nodup := h.nodup
  distinct i j c hc d hd := h.recorded.distinct i j c d hc hd
  derived n hn := by
    obtain ⟨e, he⟩ := h.recorded.exists_edge h.derived hn
    obtain ⟨hlt, -, hhead⟩ := (h.recorded.linked.listed n e).mp he
    exact ⟨e, hlt, hhead, he⟩
  below e he := by
    have hlt := he
    rw [h.recorded.size] at hlt
    obtain ⟨pair, c, -, hc, -, -, hedge, -⟩ :=
      h.recorded.edge e _ (List.getElem?_eq_getElem hlt)
    have hhead : (graph.edge e).head = some c.node := by
      rw [hedge]
      rfl
    have hn := h.recorded.bound _ _ c hc
    have hlisted := (h.recorded.linked.listed c.node e).mpr ⟨he, hn, hhead⟩
    exact ⟨c.node, hn, hhead, hlisted, fun t ht => h.recorded.tail_lt hlisted ht⟩
  unary e he i j c hc hhead level hlevel := by
    obtain ⟨x, pair, hx, hfrom, htails⟩ := h.exists_entry he hc hhead
    obtain ⟨p, d, rfl, hd⟩ := Trail.eq_entry_of_level (hx.trans hlevel)
    exact ⟨d, hfrom.unary p d rfl, hd, htails⟩
  inside e he i j c hc hhead hlevel t ht := by
    obtain ⟨x, pair, hx, hfrom, htails⟩ := h.exists_entry he hc hhead
    rw [htails] at ht
    obtain ⟨d, hd, rfl⟩ := List.mem_map.mp (mem_of_mem_orderTails ht)
    obtain ⟨p, q, hd, hspan⟩ := hfrom.inside (hx.trans hlevel) d hd
    exact ⟨p, q, ⟨d, hd, rfl⟩, hspan⟩

end Accounted

/-! ## Growing

The steps of a span may be cut anywhere. What has been taken then is some of the steps of one level,
on top of whole levels.
-/

structure Growing (g : Grammar V) (lattice : Lattice V) (site : Site V)
    (cells : Nat → Nat → List Constituent) (b : SpanBuild V) (ledger : List Entry) : Prop
    extends Building g lattice site cells b ledger where
  accounted : Accounted g site.options lattice (cellsWith cells site.first site.last b.found) b.graph
    ledger

namespace Growing

variable {g : Grammar V} {lattice : Lattice V} {site : Site V} {distance : Nat}
  {cells : Nat → Nat → List Constituent} {b : SpanBuild V} {ledger : List Entry}

theorem grow (h : Growing g lattice site cells b ledger) {after : SpanBuild V}
    {new : List Constituent} {added : List Entry}
    (hafter : Building g lattice site cells after (ledger ++ added))
    (hfound : after.found = b.found ++ new)
    (hadded : ∀ a ∈ added, a.place.first = site.first ∧ a.place.last = site.last ∧
      a.step.parts.TakenFrom (cellsWith cells site.first site.last b.found) site.first site.last) :
    Growing g lattice site cells after (ledger ++ added) := by
  have hsub : ∀ i j, ∀ c ∈ cellsWith cells site.first site.last b.found i j,
      c ∈ cellsWith cells site.first site.last after.found i j := by
    intro i j c hc
    by_cases hij : i = site.first ∧ j = site.last
    · obtain ⟨rfl, rfl⟩ := hij
      rw [cellsWith_self] at hc ⊢
      rw [hfound]
      exact List.mem_append_left _ hc
    · rw [cellsWith_other _ _ hij] at hc ⊢
      exact hc
  refine ⟨hafter, hafter.recorded, fun i j c hc => ?_, fun a ha => ?_, fun i j => ?_⟩
  · by_cases hij : i = site.first ∧ j = site.last
    · obtain ⟨rfl, rfl⟩ := hij
      rw [cellsWith_self] at hc
      exact hafter.derived c hc
    · have hold := h.accounted.derived i j c
      rw [cellsWith_other _ _ hij] at hc hold
      obtain ⟨a, ha, hrest⟩ := hold hc
      exact ⟨a, List.mem_append_left _ ha, hrest⟩
  · rcases List.mem_append.mp ha with ha | ha
    · exact (h.accounted.parts a ha).mono hsub
    · obtain ⟨hfirst, hlast, hparts⟩ := hadded a ha
      rw [hfirst, hlast]
      exact hparts.mono hsub
  · by_cases hij : i = site.first ∧ j = site.last
    · obtain ⟨rfl, rfl⟩ := hij
      rw [cellsWith_self]
      exact hafter.nodup
    · have hold := h.accounted.nodup i j
      rw [cellsWith_other _ _ hij] at hold ⊢
      exact hold

theorem foldl_take (h : Growing g lattice site cells b ledger) (base level : Nat)
    (hsize : base ≤ b.graph.nodes.size) (hbase : ∀ c ∈ b.found, c.level = level → base ≤ c.node)
    {as : List (Application Constituent)}
    (has : ∀ a ∈ as, a.parts.level = level ∧ (∀ d ∈ a.parts.entries, d.node < base) ∧
      a.parts.TakenFrom (cellsWith cells site.first site.last b.found) site.first site.last)
    {taken left : List (RuleStep V)}
    (hsteps : as.filterMap (Application.ruleStep? g lattice) = taken ++ left) :
    ∃ ledger' new, Growing g lattice site cells (taken.foldl (RuleStep.take site) b) ledger' ∧
      (taken.foldl (RuleStep.take site) b).found = b.found ++ new ∧
      ∀ c ∈ new, c.level = level := by
  obtain ⟨chosen, others, rfl, rfl, -⟩ := List.filterMap_eq_append_iff.mp hsteps
  have hchosen : ∀ a ∈ chosen, a ∈ chosen ++ others := fun a ha => List.mem_append_left _ ha
  obtain ⟨hb, -, new, hfound, hnew⟩ := h.toBuilding.foldl_applyNamed chosen base level
    (fun a ha => (has a (hchosen a ha)).1) hsize (fun a ha => (has a (hchosen a ha)).2.1) hbase
  rw [SpanBuild.foldl_applyNamed_eq] at hb hfound
  refine ⟨_, new, h.grow hb hfound fun a ha => ?_, hfound, fun c hc => (hnew c hc).1⟩
  obtain ⟨e, he, hentry⟩ := List.mem_filterMap.mp ha
  obtain ⟨rfl, pair, -, -, hplace⟩ := Building.eq_of_recorded hentry
  rw [hplace]
  exact ⟨rfl, rfl, (has _ (hchosen _ he)).2.2⟩

theorem round_take (h : Growing g lattice site cells b ledger) {done level : Nat}
    (hlayered : Building.Layered b.found done level) {taken left : List (RuleStep V)}
    (hsteps : SpanBuild.roundSteps g distance (b.found.drop done) = taken ++ left) :
    ∃ ledger' new, Growing g lattice site cells (taken.foldl (RuleStep.take site) b) ledger' ∧
      (taken.foldl (RuleStep.take site) b).found = b.found ++ new ∧
      ∀ c ∈ new, c.level = level + 1 := by
  rw [← SpanBuild.filterMap_roundApplications lattice site] at hsteps
  have hbase : ∀ c ∈ b.found, c.level = level + 1 → b.graph.nodes.size ≤ c.node := fun c hc hl =>
    absurd (hl ▸ Nat.lt_succ_self level) (Nat.not_lt_of_le (hlayered.level_le c hc))
  refine h.foldl_take b.graph.nodes.size (level + 1) (Nat.le_refl _) hbase (fun a ha => ?_) hsteps
  obtain ⟨hlevel, hbelow, c, hc, hparts⟩ := h.toBuilding.of_mem_roundApplications
    (fun c hc => (hlayered.mem_frontier_iff c).mp hc) ha
  refine ⟨hlevel, hbelow, hparts ▸ Trail.takenFrom_entry ?_⟩
  rw [cellsWith_self]
  exact hc

theorem closeFrom_take (fuel stagnant done level : Nat) (h : Growing g lattice site cells b ledger)
    (hlayered : Building.Layered b.found done level) {taken left : List (RuleStep V)}
    (hsteps : b.closeFromSteps site g distance fuel stagnant done = taken ++ left) :
    ∃ ledger', Growing g lattice site cells (taken.foldl (RuleStep.take site) b) ledger' := by
  induction fuel generalizing stagnant done level b ledger taken with
  | zero =>
    rw [(List.append_eq_nil_iff.mp hsteps.symm).1]
    exact ⟨ledger, h⟩
  | succ fuel ih =>
    rw [SpanBuild.closeFromSteps] at hsteps
    split at hsteps
    · rw [(List.append_eq_nil_iff.mp hsteps.symm).1]
      exact ⟨ledger, h⟩
    · simp only at hsteps
      rcases List.append_eq_append_iff.mp hsteps with ⟨more, rfl, hrest⟩ | ⟨others, hround, -⟩
      · -- the whole round and some steps of the rounds after it
        obtain ⟨after, new, hafter, hfound, hnew⟩ :=
          h.round_take hlayered (List.append_nil _).symm
        have hnext := hlayered.next hnew
        rw [← hfound] at hnext
        rw [SpanBuild.foldl_roundSteps] at hafter hnext
        rw [List.foldl_append, SpanBuild.foldl_roundSteps]
        split at hrest
        · exact ih _ _ _ hafter hnext hrest
        · split at hrest
          · rw [(List.append_eq_nil_iff.mp hrest.symm).1]
            exact ⟨after, hafter⟩
          · exact ih _ _ _ hafter hnext hrest
      · obtain ⟨ledger', -, hgrowing, -⟩ := h.round_take hlayered hround
        exact ⟨ledger', hgrowing⟩

theorem close_take (h : Growing g lattice site cells b ledger)
    (hlevels : ∀ c ∈ b.found, c.level = 0)
    {taken left : List (RuleStep V)} (hsteps : b.closeSteps site g distance = taken ++ left) :
    ∃ ledger', Growing g lattice site cells (taken.foldl (RuleStep.take site) b) ledger' := by
  rw [SpanBuild.closeSteps] at hsteps
  split at hsteps
  · rw [(List.append_eq_nil_iff.mp hsteps.symm).1]
    exact ⟨ledger, h⟩
  · exact h.closeFrom_take _ 0 0 0 ⟨fun c hc => (by cases hc), hlevels⟩ hsteps

end Growing

/-! ## The run -/

namespace ForestState

variable {g : Grammar V} {o : Options V} {lattice : Lattice V} {pruner : Pruner}

theorem Ran.accounted {done rest : List (Nat × Nat)} {ledger : List Entry}
    (hsplit : Chart.spansByLength lattice.size = done ++ rest)
    (h : Ran g o lattice pruner done (upTo g o lattice pruner done) ledger) :
    Accounted g o lattice (upTo g o lattice pruner done).found.get
      (upTo g o lattice pruner done).graph ledger where
  recorded := h.recorded
  derived := h.derived
  nodup := nodup_upTo done
  parts a ha := by
    obtain ⟨hdone, hgenuine⟩ := h.genuine a ha
    obtain ⟨t, -, hover, -⟩ := hgenuine.fits
    by_cases hbegins : a.step.parts.Begins (a.place.first, a.place.last) a.place.first a.place.last
    · obtain ⟨c, hparts⟩ := hover.begins_iff.mp hbegins
      rw [hparts] at hover ⊢
      obtain ⟨-, -, -, hc, -⟩ := hover
      refine Trail.takenFrom_entry ?_
      rw [get_upTo hsplit (Chart.disjoint_rest hsplit hdone)]
      exact hc
    · refine Trail.takenFrom_of_inside (level_eq_zero hover hbegins) fun d hd => ?_
      obtain ⟨p, q, hplaced⟩ := Trail.exists_placed hd a.place.last
      have hinside := hover.placed_inside hbegins hplaced
      obtain ⟨hp, hpq, hq, hd⟩ := hover.mem_placed hplaced
      refine ⟨p, q, ?_, hp, hpq, hq, hinside⟩
      rw [get_upTo hsplit (Chart.not_mem_rest_of_shorter hsplit hdone hinside)]
      exact hd

def spanSteps (g : Grammar V) (o : Options V) (lattice : Lattice V) (pruner : Pruner)
    (st : ForestState V) (first last : Nat) : List (RuleStep V) :=
  let site : Site V := ⟨o, pruner, first, last⟩
  if site.isSkipped then []
  else
    let matched := (advanced o lattice st first last).flatMap (Track.completed first last)
    matched.map RuleStep.ofMatched ++
      ((SpanBuild.mk st.graph []).applyAll site matched).closeSteps site g
        (lattice.distanceTable.length first last)

theorem spanSteps_of_skipped {first last : Nat} (h : pruner.skipsSpan first last = true)
    (st : ForestState V) : spanSteps g o lattice pruner st first last = [] := by
  simp only [spanSteps, Site.isSkipped, h, if_true]

theorem spanSteps_of_not_skipped {first last : Nat} (h : pruner.skipsSpan first last = false)
    (st : ForestState V) :
    let matched := (advanced o lattice st first last).flatMap (Track.completed first last)
    spanSteps g o lattice pruner st first last = matched.map RuleStep.ofMatched ++
      ((SpanBuild.mk st.graph []).applyAll ⟨o, pruner, first, last⟩ matched).closeSteps
        ⟨o, pruner, first, last⟩ g (lattice.distanceTable.length first last) := by
  simp only [spanSteps, Site.isSkipped, h, Bool.false_eq_true, if_false]

section

variable {done rest : List (Nat × Nat)} {first last : Nat}
  (hsplit : Chart.spansByLength lattice.size = done ++ (first, last) :: rest)
include hsplit

theorem foldl_spanSteps :
    let st := upTo g o lattice pruner done
    let after := (spanSteps g o lattice pruner st first last).foldl
      (RuleStep.take ⟨o, pruner, first, last⟩) ⟨st.graph, []⟩
    (upTo g o lattice pruner (done ++ [(first, last)])).graph = after.graph ∧
      ∀ i j, ((upTo g o lattice pruner (done ++ [(first, last)])).found.get i j).Perm
        (cellsWith st.found.get first last after.found i j) := by
  intro st after
  rw [upTo_append]
  cases hskip : pruner.skipsSpan first last with
  | true =>
    have hafter : after = ⟨st.graph, []⟩ := by
      simp only [after, spanSteps_of_skipped hskip, List.foldl_nil]
    rw [fill_of_skipped hskip, hafter]
    refine ⟨rfl, fun i j => ?_⟩
    rw [cellsWith_eq_self (get_upTo_blank (Chart.not_mem_done hsplit))]
  | false =>
    have hafter : after = built g o lattice pruner st first last := by
      simp only [after, spanSteps_of_not_skipped hskip]
      rw [List.foldl_append, List.foldl_map]
      exact SpanBuild.foldl_closeSteps _ _
    rw [fill_of_not_skipped hskip, hafter]
    refine ⟨rfl, fun i j => ?_⟩
    simp only
    rw [Chart.get_set _ _ _ _ _ _ (isSpan_upTo hsplit)]
    by_cases hij : i = first ∧ j = last
    · obtain ⟨rfl, rfl⟩ := hij
      rw [cellsWith_self, if_pos ⟨rfl, rfl⟩]
      exact SpanBuild.perm_sorted _
    · rw [cellsWith_other _ _ hij, if_neg hij]

theorem growing_start {ledger : List Entry}
    (h : Ran g o lattice pruner done (upTo g o lattice pruner done) ledger) :
    Growing g lattice ⟨o, pruner, first, last⟩ (upTo g o lattice pruner done).found.get
      ⟨(upTo g o lattice pruner done).graph, []⟩ ledger := by
  refine ⟨building_start hsplit h, ?_⟩
  change Accounted g o lattice (cellsWith _ first last []) _ ledger
  rw [cellsWith_eq_self (get_upTo_blank (Chart.not_mem_done hsplit))]
  exact h.accounted hsplit

theorem exists_growing_matched {taken left : List (RuleStep V)} {ledger : List Entry}
    (h : Ran g o lattice pruner done (upTo g o lattice pruner done) ledger)
    (hsteps : ((advanced o lattice (upTo g o lattice pruner done) first last).flatMap
      (Track.completed first last)).map RuleStep.ofMatched = taken ++ left) :
    let b := taken.foldl (RuleStep.take ⟨o, pruner, first, last⟩)
      ⟨(upTo g o lattice pruner done).graph, []⟩
    ∃ ledger', Growing g lattice ⟨o, pruner, first, last⟩ (upTo g o lattice pruner done).found.get b
      ledger' ∧ ∀ c ∈ b.found, c.level = 0 := by
  intro b
  obtain ⟨xs, -, -, hmatched, hparts⟩ := exists_matched hsplit h
  rw [← hmatched, ← Application.filterMap_ruleStep? fun a ha => (hparts a ha).1] at hsteps
  have hgrowing := (growing_start hsplit h).foldl_take
    (upTo g o lattice pruner done).graph.nodes.size
    0 (Nat.le_refl _) (fun c hc => by cases hc) (fun a ha => ?_) hsteps
  · obtain ⟨ledger', new, hb, hfound, hnew⟩ := hgrowing
    rw [List.nil_append] at hfound
    exact ⟨ledger', hb, hfound ▸ hnew⟩
  · obtain ⟨hlevel, hinside⟩ := hparts a ha
    refine ⟨hlevel, fun d hd => ?_, ?_⟩
    · obtain ⟨p, q, hd, -⟩ := hinside d hd
      exact h.recorded.bound p q d hd
    · change a.parts.TakenFrom (cellsWith _ first last []) first last
      rw [cellsWith_eq_self (get_upTo_blank (Chart.not_mem_done hsplit))]
      exact Trail.takenFrom_of_inside hlevel hinside

theorem exists_growing {taken left : List (RuleStep V)}
    (hsteps : spanSteps g o lattice pruner (upTo g o lattice pruner done) first last =
      taken ++ left) :
    ∃ ledger, Growing g lattice ⟨o, pruner, first, last⟩ (upTo g o lattice pruner done).found.get
      (taken.foldl (RuleStep.take ⟨o, pruner, first, last⟩)
        ⟨(upTo g o lattice pruner done).graph, []⟩) ledger := by
  obtain ⟨ledger, hran⟩ : ∃ ledger, Ran g o lattice pruner done (upTo g o lattice pruner done)
    ledger := exists_ran hsplit
  cases hskip : pruner.skipsSpan first last with
  | true =>
    rw [spanSteps_of_skipped hskip] at hsteps
    rw [(List.append_eq_nil_iff.mp hsteps.symm).1]
    exact ⟨ledger, growing_start hsplit hran⟩
  | false =>
    simp only [spanSteps_of_not_skipped hskip] at hsteps
    rcases List.append_eq_append_iff.mp hsteps with ⟨more, rfl, hclose⟩ | ⟨others, hmatch, -⟩
    · obtain ⟨after, hafter, hlevels⟩ :=
        exists_growing_matched hsplit hran (List.append_nil _).symm
      rw [List.foldl_append]
      rw [List.foldl_map] at hafter hlevels ⊢
      exact hafter.close_take hlevels hclose
    · obtain ⟨after, hafter, -⟩ := exists_growing_matched hsplit hran hmatch
      exact ⟨after, hafter⟩

end

variable (g o lattice pruner) in
/-- Constituents and nodes are in step after each rule application of a run. A rule application that
is not skipped adds its edge to the constituent of its label and level, so those of unary rules lead
one level down within their span and all others to shorter spans. Thus the sort of the graph with its
goal drops what the goal does not reach, and nothing else. -/
theorem inStep_run :
    (∀ done first last rest, Chart.spansByLength lattice.size = done ++ (first, last) :: rest →
      let st := upTo g o lattice pruner done
      let next := upTo g o lattice pruner (done ++ [(first, last)])
      let site : Site V := ⟨o, pruner, first, last⟩
      let steps := spanSteps g o lattice pruner st first last
      let after := fun taken : List (RuleStep V) =>
        taken.foldl (RuleStep.take site) ⟨st.graph, []⟩
      (next.graph = (after steps).graph ∧ ∀ i j, (next.found.get i j).Perm
        (cellsWith st.found.get first last (after steps).found i j)) ∧
      ∀ taken left, steps = taken ++ left →
        InStep (cellsWith st.found.get first last (after taken).found) (after taken).graph ∧
        ∀ s more, left = s :: more → site.skips (site.ruleOf s.pair).lhs = false →
          s.Adds site (after taken) (after (taken ++ [s]))) ∧
    (goalCells g o lattice pruner ≠ [] →
      let st := run g o lattice pruner
      let graph := goalGraph g o lattice pruner
      (InStep (cells g o lattice pruner) st.graph ∧
        Topped o lattice.size st.graph (goalCells g o lattice pruner) graph ∧
        (∀ n : Nat, n < graph.nodes.size → n ≠ st.root.node → ∃! x : Nat × Nat × Constituent,
          x.2.2 ∈ cells g o lattice pruner x.1 x.2.1 ∧ x.2.2.node = n) ∧
        (∀ i j, ∀ c ∈ cells g o lattice pruner i j, c.node ≠ st.root.node) ∧
        graph.goal = some st.root.node ∧ graph.Descending) ∧
      graph.KeepsReached st.root.node ∧ forest g o lattice pruner = graph.sorted) := by
  constructor
  · intro done first last rest hsplit st next site steps after
    refine ⟨foldl_spanSteps hsplit, fun taken left hsteps => ?_⟩
    obtain ⟨ledger, hgrowing⟩ := exists_growing hsplit hsteps
    refine ⟨hgrowing.accounted.inStep, fun s more _ hskip => ?_⟩
    have hlast : after (taken ++ [s]) = s.take site (after taken) := List.foldl_concat _ _ _ _
    rw [hlast]
    exact RuleStep.adds_take hskip _
  · intro hne st graph
    obtain ⟨ledger, h⟩ := exists_finished hne
    obtain ⟨c, hc⟩ := List.exists_mem_of_ne_nil _ hne
    have hcells : InStep (cells g o lattice pruner) st.graph :=
      (Ran.accounted (List.append_nil (Chart.spansByLength lattice.size)).symm h.ran).inStep
    refine ⟨⟨hcells, h.topped, fun n hn hroot => hcells.entry n ?_, fun i j c hc =>
      Nat.ne_of_lt (hcells.bound i j c hc), h.root, h.descending⟩,
      h.descending.keepsReached h.topped.linked.owned h.tailsInside (h.root_lt _ h.root) h.root,
      forest_of_mem_goalCells hc⟩
    rw [h.topped.nodes] at hn
    exact (Nat.lt_succ_iff_lt_or_eq.mp hn).resolve_right hroot

omit [Scalar V] in
/-- A unary rule that derives the goal from itself is applied once, one level up. -/
theorem inStep_run_of_cycle :
    let g := [RuleTable.ofText "[S] ||| a\n[S] ||| [S,1]"]
    let o := Options.standard
    let lattice := Lattice.ofWords [⟨"a"⟩]
    let st := upTo g o lattice .none []
    let steps := spanSteps g o lattice .none st 0 1
    (Chart.spansByLength lattice.size = [] ++ (0, 1) :: [] ∧ steps.map RuleStep.level = [0, 1] ∧
      goalCells g o lattice .none ≠ []) ∧
      (∀ k, let b := (steps.take k).foldl (RuleStep.take ⟨o, .none, 0, 1⟩) ⟨st.graph, []⟩
        InStep (cellsWith st.found.get 0 1 b.found) b.graph) ∧
      (goalGraph g o lattice .none).KeepsReached (run g o lattice .none).root.node := by
  intro g o lattice st steps
  have hsplit : Chart.spansByLength lattice.size = [] ++ (0, 1) :: [] := rfl
  have hlevels : steps.map RuleStep.level = [0, 1] := by decide +kernel
  have hgoal : (goalCells g o lattice .none).length = 2 :=
    (perm_goalCells hsplit rfl).length_eq.trans (by decide +kernel)
  have hne : goalCells g o lattice .none ≠ [] := List.ne_nil_of_length_pos (by rw [hgoal]; decide)
  obtain ⟨hspans, hsorted⟩ := inStep_run g o lattice .none
  exact ⟨⟨hsplit, hlevels, hne⟩, fun k => ((hspans [] 0 1 [] hsplit).2 (steps.take k) (steps.drop k)
    (List.take_append_drop k steps).symm).1, (hsorted hne).2.1⟩

end ForestState

end ParseForest
