import ParseForest.Proofs.Forest.Steps
import ParseForest.Proofs.LeftSides

/-!
# Closing a span under unary rules

A round applies the unary rules to the constituents of the round before, one level up. However
the rounds end, every edge that they add is an application of a unary rule to a constituent of the
span. When at least one round without a new label is allowed, the rounds do not end before the
labels are closed under the unary rules: a round without a new label has applied the rules to all
labels there are, and the bound on the number of rounds is never what ends them.
-/

namespace ParseForest

variable {V : Type} [Scalar V]

namespace SpanBuild

variable {g : Grammar V} {lattice : Lattice V} {site : Site V}

def unaryApplications (site : Site V) (i : Nat) (t : RuleTable V) (c : Constituent) :
    List (Application Constituent) :=
  (List.range (t.unaryRules c.label).length).map fun k =>
    ⟨⟨i, t.next RuleTable.root c.label, k⟩, .entry .start site.first c⟩

def roundApplications (g : Grammar V) (site : Site V) (distance : Nat)
    (frontier : List Constituent) : List (Application Constituent) :=
  (g.zipIdx.filter fun ti => ti.1.covers distance).flatMap fun ti =>
    frontier.flatMap (unaryApplications site ti.2 ti.1)

omit [Scalar V] in
theorem getElem?_unaryRules {i : Nat} {t : RuleTable V} (ht : g[i]? = some t) {label : Symbol}
    {k : Nat} (hk : k < (t.unaryRules label).length) :
    g.pair? ⟨i, t.next RuleTable.root label, k⟩ = (t.unaryRules label)[k]? ∧
      t.next RuleTable.root label ≠ RuleTable.root := by
  rw [Grammar.pair?, ht, Option.bind_some]
  unfold RuleTable.unaryRules at *
  by_cases hroot : t.next RuleTable.root label = RuleTable.root
  · simp only [if_pos hroot, List.length_nil] at hk
    exact absurd hk (Nat.not_lt_zero k)
  · simp only [if_neg hroot]
    exact ⟨trivial, hroot⟩

theorem filterMap_unaryApplications {i : Nat} {t : RuleTable V} (ht : g[i]? = some t)
    (c : Constituent) :
    (unaryApplications site i t c).filterMap (Application.ruleStep? g lattice) =
      (t.unaryRules c.label).map (RuleStep.ofUnary c) := by
  rw [unaryApplications, List.filterMap_map]
  conv_rhs => rw [← Enumerates.filterMap_getElem?_range (t.unaryRules c.label)]
  rw [List.map_filterMap]
  refine List.filterMap_congr fun k hk => ?_
  obtain ⟨hpair, -⟩ := getElem?_unaryRules ht (List.mem_range.mp hk)
  simp only [Function.comp_apply, Application.ruleStep?, Application.result?, hpair, Option.map_map]
  rfl

variable (lattice site) in
theorem filterMap_roundApplications (distance : Nat) (frontier : List Constituent) :
    (roundApplications g site distance frontier).filterMap (Application.ruleStep? g lattice) =
      roundSteps g distance frontier := by
  have hzip : g.filter (fun t => t.covers distance) =
      (g.zipIdx.filter fun ti => ti.1.covers distance).map (·.1) := by
    conv_lhs => rw [← List.zipIdx_map_fst 0 g]
    rw [List.filter_map]
    rfl
  rw [roundApplications, roundSteps, hzip, List.filterMap_flatMap, List.flatMap_map]
  refine List.flatMap_congr fun ti hti => ?_
  have hmem := (List.mem_filter.mp hti).1
  rw [List.filterMap_flatMap]
  refine List.flatMap_congr fun c _ => ?_
  exact filterMap_unaryApplications (List.mem_zipIdx_iff_getElem?.mp hmem) c

theorem foldl_roundApplications (distance : Nat) (frontier : List Constituent) (b : SpanBuild V) :
    (roundApplications g site distance frontier).foldl (applyNamed g lattice site) b =
      b.round site g distance frontier := by
  rw [foldl_applyNamed_eq, filterMap_roundApplications, foldl_roundSteps]

omit [Scalar V] in
theorem mem_roundApplications {distance : Nat} {frontier : List Constituent}
    {a : Application Constituent} (ha : a ∈ roundApplications g site distance frontier) :
    ∃ t, ∃ c ∈ frontier, g[a.rule.table]? = some t ∧ t.covers distance = true ∧
      a.parts = .entry .start site.first c ∧ a.rule.state = t.next RuleTable.root c.label ∧
      t.next RuleTable.root c.label ≠ RuleTable.root := by
  obtain ⟨⟨t, i⟩, hti, ha⟩ := List.mem_flatMap.mp ha
  obtain ⟨hti, hcov⟩ := List.mem_filter.mp hti
  obtain ⟨c, hc, ha⟩ := List.mem_flatMap.mp ha
  obtain ⟨k, hk, rfl⟩ := List.mem_map.mp ha
  have ht := List.mem_zipIdx_iff_getElem?.mp hti
  have hne := (getElem?_unaryRules ht (List.mem_range.mp hk)).2
  exact ⟨t, c, hc, ht, hcov, rfl, rfl, hne⟩

omit [Scalar V] in
theorem nodup_roundApplications {distance : Nat} {frontier : List Constituent}
    (hnd : frontier.Nodup) : (roundApplications g site distance frontier).Nodup := by
  have hindices : (g.zipIdx.filter fun ti => ti.1.covers distance).Pairwise
      fun ti ti' => ti.2 ≠ ti'.2 := by
    have hall : (g.zipIdx.map Prod.snd).Nodup := by
      rw [List.zipIdx_map_snd]
      exact List.nodup_range'
    exact (List.pairwise_map.mp hall).filter _
  refine List.nodup_flatMap.mpr ⟨fun ti _ => List.nodup_flatMap.mpr ⟨fun c _ => ?_, ?_⟩, ?_⟩
  · refine (List.nodup_range).map fun k k' hk => ?_
    cases hk
    rfl
  · refine hnd.imp fun {c c'} hne a ha ha' => hne ?_
    obtain ⟨k, -, rfl⟩ := List.mem_map.mp ha
    obtain ⟨k', -, heq⟩ := List.mem_map.mp ha'
    exact (Trail.entry.inj (congrArg Application.parts heq)).2.2.symm
  · refine hindices.imp fun {ti ti'} hne a ha ha' => hne ?_
    obtain ⟨c, -, ha⟩ := List.mem_flatMap.mp ha
    obtain ⟨c', -, ha'⟩ := List.mem_flatMap.mp ha'
    obtain ⟨k, -, rfl⟩ := List.mem_map.mp ha
    obtain ⟨k', -, heq⟩ := List.mem_map.mp ha'
    exact (congrArg (fun a => a.rule.table) heq).symm

omit [Scalar V] in
theorem mem_roundApplications_of_pair? {distance : Nat} {frontier : List Constituent}
    {a : Application Constituent} {t : RuleTable V} (ht : g[a.rule.table]? = some t)
    (hcov : t.covers distance = true) {c : Constituent} (hc : c ∈ frontier)
    (hparts : a.parts = .entry .start site.first c)
    (hstate : a.rule.state = t.next RuleTable.root c.label)
    (hroot : t.next RuleTable.root c.label ≠ RuleTable.root) {pair : RulePair V}
    (hpair : g.pair? a.rule = some pair) : a ∈ roundApplications g site distance frontier := by
  obtain ⟨⟨i, s, k⟩, parts⟩ := a
  cases hparts
  cases hstate
  rw [Grammar.pair?, ht, Option.bind_some] at hpair
  refine List.mem_flatMap.mpr ⟨(t, i), List.mem_filter.mpr ?_, List.mem_flatMap.mpr ?_⟩
  · exact ⟨List.mem_zipIdx_iff_getElem?.mpr ht, hcov⟩
  · refine ⟨c, hc, List.mem_map.mpr ⟨k, List.mem_range.mpr ?_, rfl⟩⟩
    rw [RuleTable.unaryRules, if_neg hroot]
    exact (List.getElem?_eq_some_iff.mp hpair).1

omit [Scalar V] in
theorem exists_roundApplication {distance : Nat} {frontier : List Constituent} {t : RuleTable V}
    (ht : t ∈ g) (hcov : t.covers distance = true) {c : Constituent} (hc : c ∈ frontier)
    {pair : RulePair V} (hpair : pair ∈ t.unaryRules c.label) :
    ∃ a ∈ roundApplications g site distance frontier, g.pair? a.rule = some pair := by
  obtain ⟨i, hi⟩ := List.getElem?_of_mem ht
  obtain ⟨k, hk⟩ := List.getElem?_of_mem hpair
  obtain ⟨hp, hroot⟩ := getElem?_unaryRules hi (List.getElem?_eq_some_iff.mp hk).1
  exact ⟨⟨⟨i, t.next RuleTable.root c.label, k⟩, .entry .start site.first c⟩,
    mem_roundApplications_of_pair? hi hcov hc rfl rfl hroot (hp.trans hk), hp.trans hk⟩

theorem exists_found_round (site : Site V) (g : Grammar V) (distance : Nat)
    (frontier : List Constituent) (b : SpanBuild V) :
    ∃ new, (b.round site g distance frontier).found = b.found ++ new ∧
      ∀ c ∈ new, c.label ∈ g.leftSides site.options ∧ ∃ d ∈ frontier, c.level = d.level + 1 := by
  rw [← foldl_roundSteps]
  obtain ⟨new, hfound, hnew⟩ := exists_found_foldl site (roundSteps g distance frontier) b
  refine ⟨new, hfound, fun c hc => ?_⟩
  obtain ⟨s, hs, hlabel, hlevel⟩ := hnew c hc
  obtain ⟨t, ht, d, hd, pair, hpair, rfl⟩ := of_mem_roundSteps hs
  refine ⟨?_, d, hd, hlevel⟩
  rw [hlabel]
  exact Grammar.mem_leftSides
    (Grammar.mem_pairs_of_mem_unaryRules (Grammar.mem_unaryRules ht hpair))

end SpanBuild

namespace Building

variable {g : Grammar V} {lattice : Lattice V} {site : Site V} {distance : Nat}
  {cells : Nat → Nat → List Constituent} {b : SpanBuild V} {ledger : List Entry}

def UnaryStep (g : Grammar V) (site : Site V) (distance : Nat) (found : List Constituent)
    (a : Entry) : Prop :=
  a.step.entry? g site = some a ∧
    ∃ t, ∃ c ∈ found, g[a.step.rule.table]? = some t ∧ t.covers distance = true ∧
      a.step.parts = .entry .start site.first c ∧
      a.step.rule.state = t.next RuleTable.root c.label ∧
      t.next RuleTable.root c.label ≠ RuleTable.root

def ClosedUnder (g : Grammar V) (site : Site V) (distance : Nat) (found done : List Constituent) :
    Prop :=
  ∀ c ∈ done, ∀ t ∈ g, t.covers distance = true → ∀ pair ∈ t.unaryRules c.label,
    site.skips (site.ruleOf pair).lhs = false → ∃ d ∈ found, d.label = (site.ruleOf pair).lhs

omit [Scalar V] in
theorem eq_of_recorded {a : Application Constituent} {e : Entry}
    (h : a.entry? g site = some e) : e.step = a ∧
      ∃ pair, g.pair? a.rule = some pair ∧ site.skips (site.ruleOf pair).lhs = false ∧
        e.place = ⟨site.first, site.last, (site.ruleOf pair).lhs⟩ := by
  rw [Application.entry?, Option.bind_eq_some_iff] at h
  obtain ⟨pair, hp, h⟩ := h
  cases hskip : site.skips (site.ruleOf pair).lhs with
  | true =>
    rw [hskip, if_pos rfl] at h
    cases h
  | false =>
    rw [hskip, if_neg Bool.false_ne_true] at h
    cases h
    exact ⟨rfl, pair, hp, hskip, rfl⟩

omit [Scalar V] in
theorem hasLabel_iff {b : SpanBuild V} {label : Symbol} :
    b.hasLabel label = true ↔ ∃ c ∈ b.found, c.label = label := by
  simp only [SpanBuild.hasLabel, List.any_eq_true, beq_iff_eq]

omit [Scalar V] in
theorem hasLabel_of_append {b after : SpanBuild V} {new : List Constituent}
    (h : after.found = b.found ++ new) (label : Symbol) (hb : b.hasLabel label = true) :
    after.hasLabel label = true := by
  rw [hasLabel_iff] at hb ⊢
  obtain ⟨c, hc, hlabel⟩ := hb
  exact ⟨c, h ▸ List.mem_append_left new hc, hlabel⟩

theorem of_mem_roundApplications (h : Building g lattice site cells b ledger)
    {frontier : List Constituent} {level : Nat}
    (hsub : ∀ c ∈ frontier, c ∈ b.found ∧ c.level = level) {a : Application Constituent}
    (ha : a ∈ SpanBuild.roundApplications g site distance frontier) :
    a.parts.level = level + 1 ∧ (∀ d ∈ a.parts.entries, d.node < b.graph.nodes.size) ∧
      ∃ c ∈ b.found, a.parts = .entry .start site.first c := by
  obtain ⟨t, c, hc, -, -, hparts, -⟩ := SpanBuild.mem_roundApplications ha
  obtain ⟨hc, hlevel⟩ := hsub c hc
  refine ⟨by rw [hparts, Trail.level, hlevel], fun d hd => ?_, c, hc, hparts⟩
  rw [hparts] at hd
  rw [List.mem_singleton.mp hd]
  have hbound := h.recorded.bound site.first site.last c
  rw [cellsWith_self] at hbound
  exact hbound hc

variable (distance) in
theorem round (h : Building g lattice site cells b ledger) (frontier : List Constituent)
    (hnd : frontier.Nodup) (level : Nat) (hsub : ∀ c ∈ frontier, c ∈ b.found ∧ c.level = level)
    (hlevels : ∀ c ∈ b.found, c.level ≤ level) :
    ∃ added new, Building g lattice site cells (b.round site g distance frontier)
        (ledger ++ added) ∧
      (b.round site g distance frontier).found = b.found ++ new ∧
      (∀ c ∈ new, c.level = level + 1 ∧ c.label ∈ g.leftSides site.options) ∧
      (added.Nodup ∧ ∀ a, a ∈ added ↔ UnaryStep g site distance frontier a) ∧
      ClosedUnder g site distance (b.found ++ new) frontier := by
  have hgrows := h.foldl_applyNamed (SpanBuild.roundApplications g site distance frontier)
    b.graph.nodes.size (level + 1) (fun a ha => (h.of_mem_roundApplications hsub ha).1)
    (Nat.le_refl _) (fun a ha => (h.of_mem_roundApplications hsub ha).2.1) fun c hc hl =>
      absurd (Nat.le_of_eq hl.symm) (Nat.not_le_of_lt (Nat.lt_succ_of_le (hlevels c hc)))
  rw [SpanBuild.foldl_roundApplications] at hgrows
  obtain ⟨hb, -, new, hfound, hnew⟩ := hgrows
  refine ⟨_, new, hb, hfound, fun c hc => ?_, ⟨?_, fun a => ⟨fun ha => ?_, fun ha => ?_⟩⟩, ?_⟩
  · obtain ⟨hl, -, e, he, heq⟩ := hnew c hc
    obtain ⟨a, -, hentry⟩ := List.mem_filterMap.mp he
    obtain ⟨-, pair, hp, -, hplace⟩ := eq_of_recorded hentry
    refine ⟨hl, List.mem_map.mpr ⟨pair, Grammar.mem_pairs_of_pair? hp, ?_⟩⟩
    rw [← heq, hplace]
    rfl
  · refine (SpanBuild.nodup_roundApplications hnd).filterMap fun e e' a ha ha' => ?_
    rw [← (eq_of_recorded ha).1, ← (eq_of_recorded ha').1]
  · obtain ⟨a', ha', hentry⟩ := List.mem_filterMap.mp ha
    obtain ⟨hstep, -⟩ := eq_of_recorded hentry
    refine ⟨by rw [hstep]; exact hentry, ?_⟩
    rw [hstep]
    exact SpanBuild.mem_roundApplications ha'
  · obtain ⟨hentry, t, c, hc, ht, hcov, hparts, hstate, hroot⟩ := ha
    obtain ⟨-, pair, hp, -⟩ := eq_of_recorded hentry
    exact List.mem_filterMap.mpr ⟨a.step, SpanBuild.mem_roundApplications_of_pair? ht hcov hc
      hparts hstate hroot hp, hentry⟩
  · intro c hc t ht hcov pair hpair hskip
    obtain ⟨a, ha, hp⟩ := SpanBuild.exists_roundApplication ht hcov hc hpair
    have hentry : a.entry? g site =
        some ⟨⟨site.first, site.last, (site.ruleOf pair).lhs⟩, a⟩ := by
      rw [Application.entry?, hp, Option.bind_some, hskip]
      rfl
    have hmem := List.mem_append_right ledger (List.mem_filterMap.mpr ⟨a, ha, hentry⟩)
    obtain ⟨e, he⟩ := List.getElem?_of_mem hmem
    obtain ⟨-, d, -, hd, hlabel, -⟩ := hb.recorded.edge e _ he
    rw [cellsWith_self, hfound] at hd
    exact ⟨d, hd, hlabel⟩

omit [Scalar V] in
theorem UnaryStep.mono {found found' : List Constituent} (hsub : ∀ c ∈ found, c ∈ found')
    {a : Entry} (h : UnaryStep g site distance found a) : UnaryStep g site distance found' a := by
  obtain ⟨hentry, t, c, hc, hrest⟩ := h
  exact ⟨hentry, t, c, hsub c hc, hrest⟩

omit [Scalar V] in
theorem ClosedUnder.mono {found found' done : List Constituent}
    (hsub : ∀ c ∈ found, c ∈ found') (h : ClosedUnder g site distance found done) :
    ClosedUnder g site distance found' done := by
  intro c hc t ht hcov pair hpair hskip
  obtain ⟨d, hd, hlabel⟩ := h c hc t ht hcov pair hpair hskip
  exact ⟨d, hsub d hd, hlabel⟩

omit [Scalar V] in
theorem ClosedUnder.append {found done done' : List Constituent}
    (h : ClosedUnder g site distance found done) (h' : ClosedUnder g site distance found done') :
    ClosedUnder g site distance found (done ++ done') := by
  intro c hc
  rcases List.mem_append.mp hc with hc | hc
  · exact h c hc
  · exact h' c hc

omit [Scalar V] in
theorem ClosedUnder.of_old_labels {found new : List Constituent}
    (hold : ∀ c ∈ new, ∃ d ∈ found, d.label = c.label)
    (h : ClosedUnder g site distance (found ++ new) found) :
    ClosedUnder g site distance (found ++ new) (found ++ new) := by
  refine h.append fun c hc t ht hcov pair hpair => ?_
  obtain ⟨d, hd, hlabel⟩ := hold c hc
  exact h d hd t ht hcov pair (hlabel ▸ hpair)

omit [Scalar V] in
theorem grew_eq_true_iff {before after : SpanBuild V} {new : List Constituent}
    (h : after.found = before.found ++ new) :
    SpanBuild.grew before after = true ↔
      ∃ c ∈ new, ∀ d ∈ before.found, d.label ≠ c.label := by
  rw [SpanBuild.grew, h, List.drop_left]
  simp [SpanBuild.hasLabel]

omit [Scalar V] in
theorem exists_label_of_not_grew {before after : SpanBuild V} {new : List Constituent}
    (h : after.found = before.found ++ new) (hgrew : ¬SpanBuild.grew before after = true) :
    ∀ c ∈ new, ∃ d ∈ before.found, d.label = c.label := by
  intro c hc
  by_contra hno
  exact hgrew ((grew_eq_true_iff h).mpr ⟨c, hc, fun d hd heq => hno ⟨d, hd, heq⟩⟩)

omit [Scalar V] in
theorem length_unknown_lt_of_grew {before after : SpanBuild V} {new : List Constituent}
    (h : after.found = before.found ++ new)
    (hnew : ∀ c ∈ new, c.label ∈ g.leftSides site.options)
    (hgrew : SpanBuild.grew before after = true) :
    (g.unknown site.options after.hasLabel).length <
      (g.unknown site.options before.hasLabel).length := by
  obtain ⟨c, hc, hlabel⟩ := (grew_eq_true_iff h).mp hgrew
  refine Grammar.length_unknown_lt (hasLabel_of_append h) (hnew c hc) ?_
    (hasLabel_iff.mpr ⟨c, h ▸ List.mem_append_right _ hc, rfl⟩)
  rw [← Bool.not_eq_true, hasLabel_iff]
  rintro ⟨d, hd, heq⟩
  exact hlabel d hd heq

omit [Scalar V] in
theorem UnaryStep.level {found : List Constituent} {level : Nat}
    (hlevel : ∀ c ∈ found, c.level = level) {a : Entry} (h : UnaryStep g site distance found a) :
    a.step.parts.level = level + 1 := by
  obtain ⟨-, t, c, hc, -, -, hparts, -⟩ := h
  rw [hparts, Trail.level, hlevel c hc]

/-- What the rounds from a level on make of a span: each application of a unary rule is added once,
and the rules have been applied to all constituents of a level or to none of them. Under a condition
the labels are closed at the end, and the rules have been applied to all constituents of the levels
below `bound`. -/
def Closes (g : Grammar V) (lattice : Lattice V) (site : Site V) (distance : Nat)
    (cells : Nat → Nat → List Constituent) (ledger : List Entry) (b last : SpanBuild V)
    (level bound : Nat) (complete : Prop) : Prop :=
  ∃ added new, Building g lattice site cells last (ledger ++ added) ∧
    (last.found = b.found ++ new ∧ ∀ c ∈ new, level < c.level) ∧
    (added.Nodup ∧ ∀ a ∈ added,
      UnaryStep g site distance last.found a ∧ level < a.step.parts.level) ∧
    (∀ d ∈ new, ∀ c ∈ last.found, d.level = c.level + 1 →
      ∀ a, UnaryStep g site distance [c] a → a ∈ added) ∧
    (complete → ClosedUnder g site distance last.found last.found ∧
      ∀ c ∈ last.found, level ≤ c.level → c.level < bound →
        ∀ a, UnaryStep g site distance [c] a → a ∈ added)

theorem Closes.refl (h : Building g lattice site cells b ledger) {level bound : Nat}
    {complete : Prop} (hclosed : complete → ClosedUnder g site distance b.found b.found ∧
      ∀ c ∈ b.found, level ≤ c.level → bound ≤ c.level) :
    Closes g lattice site distance cells ledger b b level bound complete := by
  refine ⟨[], [], ?_, ⟨(List.append_nil _).symm, fun c hc => by cases hc⟩,
    ⟨List.nodup_nil, fun a ha => by cases ha⟩, (fun d hd => by cases hd),
    fun hc => ⟨(hclosed hc).1, fun c hc' hle hlt => ?_⟩⟩
  · rw [List.append_nil]
    exact h
  · exact absurd hlt (Nat.not_lt.mpr ((hclosed hc).2 c hc' hle))

theorem Closes.weaken {last : SpanBuild V} {level bound bound' : Nat} {complete : Prop}
    (hle : bound ≤ bound')
    (h : Closes g lattice site distance cells ledger b last level bound' complete) :
    Closes g lattice site distance cells ledger b last level bound complete := by
  obtain ⟨added, new, hb, hfound, hsteps, hlayers, hclosed⟩ := h
  exact ⟨added, new, hb, hfound, hsteps, hlayers, fun hc => ⟨(hclosed hc).1, fun c hc' hlow hlt =>
    (hclosed hc).2 c hc' hlow (Nat.lt_of_lt_of_le hlt hle)⟩⟩

theorem Closes.trans {after last : SpanBuild V} {added : List Entry}
    {frontier new : List Constituent} {level bound : Nat} {complete complete' : Prop}
    (hfound : after.found = b.found ++ new) (hnew : ∀ c ∈ new, c.level = level + 1)
    (hfrontier : ∀ c, c ∈ frontier ↔ c ∈ b.found ∧ c.level = level)
    (hadded : added.Nodup ∧ ∀ a, a ∈ added ↔ UnaryStep g site distance frontier a)
    (hcomplete : complete → complete')
    (h : Closes g lattice site distance cells (ledger ++ added) after last (level + 1) bound
      complete') :
    Closes g lattice site distance cells ledger b last level bound complete := by
  obtain ⟨added', new', hb, ⟨hfound', hnew'⟩, ⟨hnd, hsteps⟩, hlayers, hclosed⟩ := h
  have hlevel : ∀ a ∈ added, a.step.parts.level = level + 1 := fun a ha =>
    UnaryStep.level (fun c hc => ((hfrontier c).mp hc).2) ((hadded.2 a).mp ha)
  -- the constituents of the level are those of the round, as all later ones are above it
  have hround : ∀ c ∈ last.found, c.level = level →
      ∀ a, UnaryStep g site distance [c] a → a ∈ added := fun c hc heq a ha => by
    refine (hadded.2 a).mpr (ha.mono fun d hd => ?_)
    rw [List.mem_singleton.mp hd]
    refine (hfrontier c).mpr ⟨?_, heq⟩
    rw [hfound', hfound] at hc
    rcases List.mem_append.mp hc with hc | hc
    · rcases List.mem_append.mp hc with hc | hc
      · exact hc
      · have := hnew c hc
        omega
    · have := hnew' c hc
      omega
  refine ⟨added ++ added', new ++ new', by rw [← List.append_assoc]; exact hb,
    ⟨by rw [hfound', hfound, List.append_assoc], fun c hc => ?_⟩, ⟨?_, fun a ha => ?_⟩,
    fun d hd c hc hdc a ha => ?_,
    fun hc => ⟨(hclosed (hcomplete hc)).1, fun c hc' hle hlt a ha => ?_⟩⟩
  · rcases List.mem_append.mp hc with hc | hc
    · exact Nat.lt_of_lt_of_eq (Nat.lt_succ_self level) (hnew c hc).symm
    · exact Nat.lt_of_succ_lt (hnew' c hc)
  · refine List.nodup_append.mpr ⟨hadded.1, hnd, fun a ha a' ha' heq => ?_⟩
    have hlt := (hsteps a' ha').2
    rw [← heq, hlevel a ha] at hlt
    exact Nat.lt_irrefl _ hlt
  · rcases List.mem_append.mp ha with ha | ha
    · refine ⟨((hadded.2 a).mp ha).mono fun c hc => ?_, by rw [hlevel a ha]; omega⟩
      rw [hfound', hfound]
      exact List.mem_append_left _ (List.mem_append_left _ ((hfrontier c).mp hc).1)
    · exact ⟨(hsteps a ha).1, Nat.lt_of_succ_lt (hsteps a ha).2⟩
  · rcases List.mem_append.mp hd with hd | hd
    · exact List.mem_append_left _ (hround c hc (by have := hnew d hd; omega) a ha)
    · exact List.mem_append_right _ (hlayers d hd c hc hdc a ha)
  · rcases Nat.lt_or_eq_of_le hle with hgt | heq
    · exact List.mem_append_right _ ((hclosed (hcomplete hc)).2 c hc' hgt hlt a ha)
    · exact List.mem_append_left _ (hround c hc' heq.symm a ha)

structure Layered (found : List Constituent) (done level : Nat) : Prop where
  past : ∀ c ∈ found.take done, c.level < level
  frontier : ∀ c ∈ found.drop done, c.level = level

omit [Scalar V] in
theorem Layered.mem_frontier_iff {found : List Constituent} {done level : Nat}
    (h : Layered found done level) (c : Constituent) :
    c ∈ found.drop done ↔ c ∈ found ∧ c.level = level := by
  refine ⟨fun hc => ⟨List.mem_of_mem_drop hc, h.frontier c hc⟩, fun ⟨hc, hl⟩ => ?_⟩
  rw [← List.take_append_drop done found] at hc
  exact (List.mem_append.mp hc).resolve_left fun hc => Nat.ne_of_lt (h.past c hc) hl

omit [Scalar V] in
theorem Layered.level_le {found : List Constituent} {done level : Nat}
    (h : Layered found done level) : ∀ c ∈ found, c.level ≤ level := by
  intro c hc
  rw [← List.take_append_drop done found] at hc
  exact (List.mem_append.mp hc).elim (fun hc => Nat.le_of_lt (h.past c hc))
    fun hc => Nat.le_of_eq (h.frontier c hc)

omit [Scalar V] in
theorem Layered.next {found new : List Constituent} {done level : Nat}
    (h : Layered found done level) (hnew : ∀ c ∈ new, c.level = level + 1) :
    Layered (found ++ new) found.length (level + 1) where
  past := by
    rw [List.take_left]
    exact fun c hc => Nat.lt_succ_of_le (h.level_le c hc)
  frontier := by
    rw [List.drop_left]
    exact hnew

omit [Scalar V] in
theorem Layered.next_of_frontier {found new : List Constituent} {done level : Nat}
    (h : Layered found done level)
    (hnew : ∀ c ∈ new, ∃ d ∈ found.drop done, c.level = d.level + 1) :
    Layered (found ++ new) found.length (level + 1) := by
  refine h.next fun c hc => ?_
  obtain ⟨d, hd, hlevel⟩ := hnew c hc
  rw [hlevel, h.frontier d hd]

variable (distance) in
/-- The rounds add applications of unary rules; with enough fuel they close the labels. The fuel
pays for the rounds that bring one of the missing labels and for the rounds that may bring none, and
only rounds that bring none end them before there is nothing to apply rules to. -/
theorem closeFrom (fuel stagnant done level : Nat) (h : Building g lattice site cells b ledger)
    (hlayered : Layered b.found done level) :
    Closes g lattice site distance cells ledger b
      (SpanBuild.closeFrom site g distance fuel stagnant done b)
      level (level + (site.options.forestStagnation - stagnant))
      (stagnant < site.options.forestStagnation ∧
        (g.unknown site.options b.hasLabel).length +
          (site.options.forestStagnation - stagnant) ≤ fuel ∧
        ClosedUnder g site distance b.found (b.found.take done)) := by
  induction fuel generalizing stagnant done level b ledger with
  | zero =>
    refine Closes.refl h ?_
    rintro ⟨hlt, hfuel, -⟩
    omega
  | succ fuel ih =>
    have hat := hlayered.mem_frontier_iff
    rw [SpanBuild.closeFrom]
    split
    · -- the last round made nothing, so every constituent has had its round
      rename_i hempty
      rw [List.isEmpty_iff] at hempty
      refine Closes.refl h ?_
      rintro ⟨-, -, hclosed⟩
      have happ := List.take_append_drop done b.found
      have hdone := hlayered.past
      rw [hempty, List.append_nil] at happ
      rw [happ] at hclosed hdone
      exact ⟨hclosed, fun c hc hle => absurd (hdone c hc) (Nat.not_lt.mpr hle)⟩
    · obtain ⟨added, new, hb, hfound, hnew, hsteps, hround⟩ := h.round distance
        (b.found.drop done) (h.nodup.sublist (List.drop_sublist _ _)) level
        (fun c hc => (hat c).mp hc) hlayered.level_le
      have hclosed : ClosedUnder g site distance b.found (b.found.take done) →
          ClosedUnder g site distance (b.found ++ new) b.found := by
        intro hprev
        have hboth := (hprev.mono fun c hc => List.mem_append_left new hc).append hround
        rw [List.take_append_drop] at hboth
        exact hboth
      simp only
      generalize b.round site g distance (b.found.drop done) = after at *
      have hcat := fun c hc => (hnew c hc).1
      have hrest := fun stagnant' => ih stagnant' b.found.length (level + 1) hb
        (hfound ▸ hlayered.next hcat)
      split
      · -- the round brought a label, which pays for it
        rename_i hgrew
        refine Closes.trans hfound hcat hat hsteps ?_ ((hrest stagnant).weaken (by omega))
        rintro ⟨hlt, hfuel, hprev⟩
        have hless := length_unknown_lt_of_grew hfound (fun c hc => (hnew c hc).2) hgrew
        refine ⟨hlt, by omega, ?_⟩
        rw [hfound, List.take_left]
        exact hclosed hprev
      · rename_i hgrew
        split
        · -- the rounds end here: the labels of this one were there before
          refine Closes.trans hfound hcat hat hsteps (fun hc => hc.2.2)
            (Closes.refl hb fun hprev : ClosedUnder g site distance b.found
              (b.found.take done) => ⟨?_, fun c _ hle => by omega⟩)
          rw [hfound]
          exact (hclosed hprev).of_old_labels (exists_label_of_not_grew hfound hgrew)
        · -- one more round may bring nothing
          have heq : level + (site.options.forestStagnation - stagnant) =
              level + 1 + (site.options.forestStagnation - (stagnant + 1)) := by omega
          rw [heq]
          refine Closes.trans hfound hcat hat hsteps ?_ (hrest (stagnant + 1))
          rintro ⟨hlt, hfuel, hprev⟩
          have hle := Grammar.length_unknown_mono (g := g) (o := site.options)
            (hasLabel_of_append hfound)
          refine ⟨by omega, by omega, ?_⟩
          rw [hfound, List.take_left]
          exact hclosed hprev

variable (distance) in
theorem close (h : Building g lattice site cells b ledger) (hlevels : ∀ c ∈ b.found, c.level = 0) :
    Closes g lattice site distance cells ledger b (b.close site g distance) 0
      site.options.forestStagnation (0 < site.options.forestStagnation) := by
  unfold SpanBuild.close
  split
  · rename_i hzero
    exact Closes.refl h fun hpos => by omega
  · have hfrom := h.closeFrom distance (SpanBuild.roundLimit site.options g) 0 0 0
      ⟨fun c hc => (by cases hc), hlevels⟩
    rw [Nat.zero_add, Nat.sub_zero] at hfrom
    obtain ⟨added, new, hb, hfound, hsteps, hlayers, hclosed⟩ := hfrom
    refine ⟨added, new, hb, hfound, hsteps, hlayers, fun hpos =>
      hclosed ⟨hpos, ?_, fun c hc => by cases hc⟩⟩
    have hunknown := g.length_unknown_le site.options b.hasLabel
    rw [SpanBuild.roundLimit]
    omega

end Building

end ParseForest
