import ParseForest.Proofs.Forest.Closure
import ParseForest.Proofs.Posterior.Fill
import ParseForest.Proofs.Tables.Matching
import ParseForest.Proofs.Tables.Sorting

/-!
# The tables of nodes

A forest parser keeps the label and the level of each node in two tables by the number of the
node, the nodes of each span in a chart, and the nodes of the span that it fills by label and
level. Here the constituents of a span are built with these tables. `Builds` links them with each
other, with the graph and with the constituents that `SpanBuild` finds: nodes and the two tables
grow in step, so a number that is read off the chart is never out of range.
-/

namespace ParseForest

variable {V : Type}

structure NodeTables where
  passives : Chart (List NodeId)
  labels : Array Symbol
  levels : Array Nat
  byKey : List ((Symbol × Nat) × NodeId)

abbrev Growth (V : Type) := NodeTables × Hypergraph V

namespace NodeTables

def Knows (n : NodeTables) (c : Constituent) : Prop :=
  n.labels[c.node]? = some c.label ∧ n.levels[c.node]? = some c.level

def Names (n : NodeTables) (id : NodeId) (c : Constituent) : Prop := id = c.node ∧ n.Knows c

theorem names_map {n : NodeTables} {l : List Constituent} (h : ∀ c ∈ l, n.Knows c) :
    List.Forall₂ n.Names (l.map Constituent.node) l :=
  List.forall₂_map_left_iff.mpr (List.forall₂_same.mpr fun c hc => ⟨rfl, h c hc⟩)

/-! ## Building -/

def makeNode? (site : Site V) (label : Symbol) (level : Nat) (s : Growth V) :
    Option (Growth V × NodeId) := do
  let id := s.2.nodes.size
  let passives ← s.1.passives.modify? site.first site.last (· ++ [id])
  let tables := ⟨passives, s.1.labels.push label, s.1.levels.push level,
    s.1.byKey ++ [((label, level), id)]⟩
  return ((tables, s.2.addNode), id)

def node? (site : Site V) (label : Symbol) (level : Nat) (s : Growth V) :
    Option (Growth V × NodeId) :=
  match s.1.byKey.lookup (label, level) with
  | some id => some (s, id)
  | none => makeNode? site label level s

def connectNode? (site : Site V) (e : EdgeId) (label : Symbol) (level : Nat) (s : Growth V) :
    Option (Growth V × NodeId) := do
  let (s, head) ← node? site label level s
  let graph ← s.2.connect? e head
  return ((s.1, graph), head)

def applyPair? [Scalar V] (site : Site V) (level : Nat) (s : Growth V) (pair : RulePair V)
    (used : Match V) : Option (Growth V × Option NodeId) := do
  let rule := site.ruleOf pair
  let skip ← site.pruner.skipsLabel? site.first site.last rule.lhs
  if skip then return (s, none)
  else
    let graph := s.2.addEdge (orderTails pair.source used.tails) (some rule)
      (FeatureVector.plus pair.features used.features)
      (AttributeVector.overlay pair.attributes (spanAttributes site.first site.last))
    let (s, head) ← connectNode? site s.2.edges.size rule.lhs level (s.1, graph)
    return (s, some head)

structure Builds (base : NodeTables) (site : Site V) (s : Growth V) (b : SpanBuild V) : Prop where
  graph : s.2 = b.graph
  labels : s.1.labels.size = b.graph.nodes.size
  levels : s.1.levels.size = b.graph.nodes.size
  byKey : s.1.byKey = b.found.map fun c => ((c.label, c.level), c.node)
  size : s.1.passives.size = base.passives.size
  here : s.1.passives.get site.first site.last = b.found.map Constituent.node
  other : ∀ i j, ¬(i = site.first ∧ j = site.last) →
    s.1.passives.get i j = base.passives.get i j
  known : ∀ c ∈ b.found, s.1.Knows c
  grows : ∀ c, base.Knows c → s.1.Knows c

def Heads (label : Symbol) (head : NodeId) (before after : SpanBuild V) : Prop :=
  ∃ c ∈ after.found, c.node = head ∧ c.label = label ∧
    (after.found = before.found ∨ after.found = before.found ++ [c])

namespace Builds

variable {base : NodeTables} {site : Site V} {s : Growth V} {b : SpanBuild V}

theorem knows_push {n : NodeTables} {c d : Constituent} (hlabels : n.labels.size = d.node)
    (hlevels : n.levels.size = d.node) (passives : Chart (List NodeId))
    (byKey : List ((Symbol × Nat) × NodeId)) (h : n.Knows c ∨ c = d) :
    Knows ⟨passives, n.labels.push d.label, n.levels.push d.level, byKey⟩ c := by
  rcases h with h | rfl
  · have hlabel := (Array.getElem?_eq_some_iff.mp h.1).1
    have hlevel := (Array.getElem?_eq_some_iff.mp h.2).1
    refine ⟨?_, ?_⟩
    · rw [Array.getElem?_push_lt hlabel, ← Array.getElem?_eq_getElem hlabel]
      exact h.1
    · rw [Array.getElem?_push_lt hlevel, ← Array.getElem?_eq_getElem hlevel]
      exact h.2
  · exact ⟨by rw [← hlabels]; simp, by rw [← hlevels]; simp⟩

theorem lookup_map (l : List Constituent) (label : Symbol) (level : Nat) :
    (l.map fun c => ((c.label, c.level), c.node)).lookup (label, level) =
      (l.find? fun c => c.label == label && c.level == level).map Constituent.node := by
  induction l with
  | nil => rfl
  | cons c l ih =>
    by_cases h : c.label = label ∧ c.level = level
    · simp [h.1, h.2]
    · have hne : ((label, level) == (c.label, c.level)) = false := by
        rw [beq_eq_false_iff_ne]
        rintro heq
        exact h ⟨(congrArg Prod.fst heq).symm, (congrArg Prod.snd heq).symm⟩
      have hne' : (c.label == label && c.level == level) = false := by simpa using h
      simp [List.lookup_cons, hne, hne', ih]

theorem lt_of_mem (h : Builds base site s b) {c : Constituent} (hc : c ∈ b.found) :
    (c.node : Nat) < b.graph.nodes.size := by
  rw [← h.labels]
  exact (Array.getElem?_eq_some_iff.mp (h.known c hc).1).1

theorem connectNode (h : Builds base site s b)
    (hspan : base.passives.IsSpan site.first site.last) {e : Nat} (he : e < b.graph.edges.size)
    (label : Symbol) (level : Nat) :
    Yields (connectNode? site e label level s) fun r =>
      Builds base site r.1 (b.connect e label level) ∧
        Heads label r.2 b (b.connect e label level) := by
  obtain ⟨n, graph⟩ := s
  obtain ⟨rfl⟩ := h.graph
  have hlookup : n.byKey.lookup (label, level) =
      (b.find? label level).map Constituent.node := by
    rw [show n.byKey = _ from h.byKey]
    exact lookup_map b.found label level
  unfold connectNode? node? SpanBuild.connect
  simp only [hlookup]
  cases hfind : b.find? label level with
  | some c =>
    obtain ⟨hc, hlabel, hlevel⟩ := SpanBuild.of_find?_eq_some hfind
    simp only [Option.map_some, Option.bind_eq_bind, Option.bind_some,
      Hypergraph.connect?_eq_some he (h.lt_of_mem hc)]
    refine yields_some ⟨⟨rfl, ?_, ?_, h.byKey, h.size, h.here, h.other, h.known, h.grows⟩,
      c, hc, rfl, hlabel, .inl rfl⟩
    · simpa using h.labels
    · simpa using h.levels
  | none =>
    have hspan' : n.passives.IsSpan site.first site.last := ⟨hspan.1, h.size ▸ hspan.2⟩
    have hconnect : b.graph.addNode.connect? e b.graph.nodes.size =
        some (b.graph.addNode.connect e b.graph.nodes.size) :=
      Hypergraph.connect?_eq_some he (by simp)
    have hpush := fun c => knows_push (d := ⟨b.graph.nodes.size, label, level⟩) (c := c) h.labels
      h.levels (n.passives.modify site.first site.last (· ++ [b.graph.nodes.size]))
      (n.byKey ++ [((label, level), b.graph.nodes.size)])
    simp only [Option.map_none, makeNode?, Chart.modify?_eq_some hspan', Option.bind_eq_bind,
      Option.bind_some, Option.pure_def, hconnect]
    refine yields_some ⟨⟨rfl, ?_, ?_, ?_, ?_, ?_, fun i j hij => ?_, fun c hc => ?_,
      fun c hc => hpush c (.inl (h.grows c hc))⟩, ⟨b.graph.nodes.size, label, level⟩, ?_, rfl, rfl,
      .inr rfl⟩
    · simpa using h.labels
    · simpa using h.levels
    · simpa using h.byKey
    · exact (Chart.size_modify ..).trans h.size
    · rw [Chart.get_modify_self _ _ hspan', h.here, List.map_append]
      rfl
    · exact (Chart.get_modify_other _ _ hij).trans (h.other i j hij)
    · exact hpush c ((List.mem_append.mp hc).imp (h.known c) List.mem_singleton.mp)
    · exact List.mem_append_right _ List.mem_cons_self

theorem apply [Scalar V] (h : Builds base site s b)
    (hspan : base.passives.IsSpan site.first site.last)
    (hknows : site.pruner.knows site.last = true) (level : Nat) (pair : RulePair V)
    (used : Match V) :
    Yields (applyPair? site level s pair used) fun r =>
      Builds base site r.1 (b.apply site level pair used) ∧
        match r.2 with
        | none => b.apply site level pair used = b
        | some head => Heads (site.ruleOf pair).lhs head b (b.apply site level pair used) := by
  unfold applyPair?
  simp only [Pruner.skipsLabel?_eq_some hknows, Option.bind_eq_bind, Option.bind_some]
  cases hskip : site.pruner.skipsLabel site.first site.last (site.ruleOf pair).lhs with
  | true =>
    have hsame := SpanBuild.apply_of_skips site level b pair used hskip
    rw [hsame]
    exact yields_some ⟨h, rfl⟩
  | false =>
    obtain ⟨graph, found⟩ := b
    unfold SpanBuild.apply
    have hskips : site.skips (site.ruleOf pair).lhs = false := hskip
    simp only [hskips, Bool.false_eq_true, if_false]
    have hadded : Builds base site (s.1, s.2.addEdge (orderTails pair.source used.tails)
        (some (site.ruleOf pair)) (FeatureVector.plus pair.features used.features)
        (AttributeVector.overlay pair.attributes (spanAttributes site.first site.last)))
        ⟨graph.addEdge (orderTails pair.source used.tails) (some (site.ruleOf pair))
          (FeatureVector.plus pair.features used.features)
          (AttributeVector.overlay pair.attributes (spanAttributes site.first site.last)),
          found⟩ :=
      ⟨by rw [h.graph], h.labels, h.levels, h.byKey, h.size, h.here, h.other, h.known, h.grows⟩
    have hedge : s.2.edges.size = graph.edges.size := by rw [h.graph]
    rw [hedge]
    exact (hadded.connectNode hspan (by simp) _ _).bind fun r hr => yields_some hr

end Builds

/-! ## Unary rules -/

section Closing

variable [Scalar V] (site : Site V)

def climb? (tail : NodeId) (level : Nat) (s : Growth V × List Symbol) (pair : RulePair V) :
    Option (Growth V × List Symbol) := do
  let (growth, head) ← applyPair? site level s.1 pair ⟨[tail], NameMap.empty⟩
  match head with
  | none => return (growth, s.2)
  | some head =>
    let label ← growth.1.labels[head]?
    return (growth, noteLabel s.2 label)

def climbFrom? (t : RuleTable V) (s : Growth V × List Symbol) (place : Nat) :
    Option (Growth V × List Symbol) := do
  let ids ← s.1.1.passives.get? site.first site.last
  let tail ← ids[place]?
  let label ← s.1.1.labels[tail]?
  let state ← t.next? RuleTable.root label
  if state = RuleTable.root then return s
  else
    let level ← s.1.1.levels[tail]?
    let pairs ← t.rulesAt? state
    pairs.foldlM (climb? site tail (level + 1)) s

def round? (g : Grammar V) (distance done stop : Nat) (s : Growth V × List Symbol) :
    Option (Growth V × List Symbol) :=
  (List.range g.length).foldlM (fun s i => do
    let t ← g[i]?
    if t.covers distance then (List.range' done (stop - done)).foldlM (climbFrom? site t) s
    else return s) s

def closeFrom? (g : Grammar V) (distance : Nat) : (fuel stagnant done : Nat) →
    Growth V × List Symbol → Option (Growth V)
  | 0, _, _, _ => none
  | fuel + 1, stagnant, done, s => do
    let ids ← s.1.1.passives.get? site.first site.last
    if done = ids.length then return s.1
    else
      let after ← round? site g distance done ids.length s
      if after.2.length = s.2.length then
        if site.options.forestStagnation ≤ stagnant + 1 then return after.1
        else closeFrom? g distance fuel (stagnant + 1) ids.length after
      else closeFrom? g distance fuel stagnant ids.length after

def close? (g : Grammar V) (distance : Nat) (s : Growth V) : Option (Growth V) :=
  if site.options.forestStagnation = 0 then some s
  else do
    let ids ← s.1.passives.get? site.first site.last
    let labels ← ids.mapM fun id => s.1.labels[id]?
    closeFrom? site g distance (SpanBuild.roundLimit site.options g) 0 0
      (s, labels.foldl noteLabel [])

def sort? (n : NodeTables) : Option NodeTables := do
  let ids ← n.passives.get? site.first site.last
  let keyed ← ids.mapM fun id => (n.labels[id]?).map fun label => (id, label)
  let sorted := keyed.mergeSort fun a b => a.2.atMost b.2
  let passives ← n.passives.set? site.first site.last (sorted.map (·.1))
  return { n with passives }

end Closing

theorem mem_noteLabel_iff {labels : List Symbol} {l label : Symbol} :
    l ∈ noteLabel labels label ↔ l ∈ labels ∨ l = label := by
  unfold noteLabel
  split
  · rename_i hmem
    rw [List.contains_iff_mem] at hmem
    exact ⟨.inl, fun h => h.elim id fun heq => heq ▸ hmem⟩
  · simp

theorem mem_foldl_noteLabel {labels more : List Symbol} {l : Symbol} :
    l ∈ more.foldl noteLabel labels ↔ l ∈ labels ∨ l ∈ more := by
  induction more generalizing labels with
  | nil => simp
  | cons label more ih => rw [List.foldl_cons, ih, mem_noteLabel_iff, List.mem_cons, or_assoc]

/-- What a round has done since `before`: constituents have come to the end, and the labels are
those of all constituents, each of them once, the new ones at the end. -/
structure Climbs (base : NodeTables) (site : Site V) (g : Grammar V) (before : SpanBuild V)
    (labels : List Symbol) (s : Growth V × List Symbol) (b : SpanBuild V) : Prop where
  builds : Builds base site s.1 b
  found : ∃ new, b.found = before.found ++ new ∧ ∀ c ∈ new, c.label ∈ g.leftSides site.options
  noted : ∀ label, label ∈ s.2 ↔ b.hasLabel label = true
  nodup : s.2.Nodup
  grown : labels <+: s.2

namespace Climbs

variable [Scalar V] {base : NodeTables} {site : Site V} {g : Grammar V} {before b : SpanBuild V}
  {labels : List Symbol} {s : Growth V × List Symbol}
  (hspan : base.passives.IsSpan site.first site.last)
  (hknows : site.pruner.knows site.last = true)

include hspan hknows

theorem climb (h : Climbs base site g before labels s b) (tail : NodeId) (level : Nat)
    {pair : RulePair V} (hpair : pair ∈ g.pairs) :
    Yields (climb? site tail level s pair) fun r =>
      Climbs base site g before labels r
        (b.apply site level pair ⟨[tail], NameMap.empty⟩) := by
  unfold climb?
  refine (h.builds.apply hspan hknows level pair _).bind fun r hr => ?_
  obtain ⟨growth, head⟩ := r
  obtain ⟨hbuilds, hhead⟩ := hr
  generalize b.apply site level pair ⟨[tail], NameMap.empty⟩ = after at *
  cases head with
  | none =>
    obtain rfl : after = b := hhead
    exact yields_some ⟨hbuilds, h.found, h.noted, h.nodup, h.grown⟩
  | some head =>
    obtain ⟨c, hc, rfl, hlabel, hfound⟩ := hhead
    have hlookup := (hbuilds.known c hc).1
    simp only at hlookup ⊢
    rw [hlookup, hlabel]
    refine yields_some ⟨hbuilds, ?_, fun label => ?_, ScoreState.nodup_noteLabel h.nodup _,
      h.grown.trans (ScoreState.noteLabel_extends _ _)⟩
    · obtain ⟨new, hnew, hsides⟩ := h.found
      rcases hfound with hfound | hfound
      · exact ⟨new, by rw [hfound, hnew], hsides⟩
      · refine ⟨new ++ [c], by rw [hfound, hnew, List.append_assoc], fun d hd => ?_⟩
        rcases List.mem_append.mp hd with hd | hd
        · exact hsides d hd
        · rw [List.mem_singleton.mp hd, hlabel]
          exact Grammar.mem_leftSides hpair
    · rw [mem_noteLabel_iff, h.noted, Building.hasLabel_iff, Building.hasLabel_iff]
      rcases hfound with hfound | hfound
      · rw [hfound]
        rw [hfound] at hc
        exact ⟨fun h => h.elim id fun heq => ⟨c, hc, hlabel.trans heq.symm⟩, .inl⟩
      · simp only [hfound, List.mem_append, List.mem_singleton, or_and_right, exists_or,
          exists_eq_left, hlabel]
        exact or_congr Iff.rfl eq_comm

theorem climbFrom (h : Climbs base site g before labels s b) {t : RuleTable V} (ht : t ∈ g)
    (hclosed : t.Closed) {place : Nat} {c : Constituent} (hc : before.found[place]? = some c) :
    Yields (climbFrom? site t s place) fun r =>
      Climbs base site g before labels r (SpanBuild.applyUnary site t b c) := by
  obtain ⟨new, hnew, -⟩ := h.found
  have hplace : b.found[place]? = some c := by
    rw [hnew, List.getElem?_append_left (List.getElem?_eq_some_iff.mp hc).1, hc]
  have hmem := List.mem_of_getElem? hplace
  have hspan' : s.1.1.passives.IsSpan site.first site.last :=
    ⟨hspan.1, h.builds.size ▸ hspan.2⟩
  have hid : (b.found.map Constituent.node)[place]? = some c.node := by simp [hplace]
  have hknown := h.builds.known c hmem
  unfold climbFrom? SpanBuild.applyUnary RuleTable.unaryRules
  rw [Chart.get?_eq_some_get hspan', h.builds.here]
  simp only [Option.bind_eq_bind, Option.bind_some, hid, hknown.1, hknown.2,
    RuleTable.next?_eq_some hclosed.root_lt]
  split
  · exact yields_some h
  · rename_i hstate
    rw [RuleTable.rulesAt?_eq_some (hclosed.next_lt _ _)]
    refine yields_foldlM_same (fun s b pair hpair h => h.climb hspan hknows _ _ ?_) h
    exact List.mem_flatMap.mpr ⟨t, ht, RuleTable.mem_pairs_of_mem_rulesAt hpair⟩

omit [Scalar V] hspan hknows in
theorem forall₂_places {A : Type} (l : List A) (done : Nat) :
    List.Forall₂ (fun i a => l[i]? = some a) (List.range' done (l.length - done))
      (l.drop done) := by
  refine List.forall₂_iff_get.mpr ⟨by simp, fun i hi hi' => ?_⟩
  rw [List.length_drop] at hi'
  have hlt : done + i < l.length := by omega
  simp [hlt]

theorem round (hclosed : ∀ t ∈ g, t.Closed) (h : Climbs base site g before labels s before)
    (distance done : Nat) :
    Yields (round? site g distance done before.found.length s) fun r =>
      Climbs base site g before labels r
        (before.round site g distance (before.found.drop done)) := by
  unfold round? SpanBuild.round
  rw [List.foldl_filter]
  have htables : List.Forall₂ (fun (i : Nat) t => g[i]? = some t) (List.range g.length) g := by
    have := forall₂_places g 0
    rwa [← List.range_eq_range', List.drop_zero] at this
  refine yields_foldlM (fun s b i t h ht => ?_) htables h
  have hmem := List.mem_of_getElem? ht
  simp only [ht, Option.bind_eq_bind, Option.bind_some]
  split
  · exact yields_foldlM (fun s b place c h hc => h.climbFrom hspan hknows hmem (hclosed t hmem) hc)
      (forall₂_places before.found done) h
  · exact yields_some h

omit [Scalar V] hspan hknows in
theorem length_eq_iff (h : Climbs base site g before labels s b)
    (hlabels : ∀ label, label ∈ labels ↔ before.hasLabel label = true) :
    s.2.length = labels.length ↔ SpanBuild.grew before b = false := by
  obtain ⟨new, hnew, -⟩ := h.found
  rw [← Bool.not_eq_true, Building.grew_eq_true_iff hnew]
  constructor
  · rintro hlength ⟨c, hc, hnone⟩
    have heq := h.grown.eq_of_length hlength.symm
    have hlabel := (h.noted c.label).mpr
      (Building.hasLabel_iff.mpr ⟨c, hnew ▸ List.mem_append_right _ hc, rfl⟩)
    rw [← heq, hlabels, Building.hasLabel_iff] at hlabel
    obtain ⟨d, hd, hsame⟩ := hlabel
    exact hnone d hd hsame
  · intro hold
    refine Nat.le_antisymm (List.subperm_of_subset h.nodup fun label hlabel => ?_).length_le
      h.grown.length_le
    rw [h.noted, Building.hasLabel_iff] at hlabel
    obtain ⟨c, hc, rfl⟩ := hlabel
    rw [hlabels, Building.hasLabel_iff]
    rcases List.mem_append.mp (hnew ▸ hc) with hc | hc
    · exact ⟨c, hc, rfl⟩
    · by_contra hnone
      exact hold ⟨c, hc, fun d hd heq => hnone ⟨d, hd, heq⟩⟩

end Climbs

section Close

variable [Scalar V] {base : NodeTables} {site : Site V} {g : Grammar V}
  (hspan : base.passives.IsSpan site.first site.last)
  (hknows : site.pruner.knows site.last = true) (hclosed : ∀ t ∈ g, t.Closed)

include hspan hknows hclosed

/-- The rounds end before the fuel does: a round brings one of the left-hand sides that are
missing, or is one of those that may bring none. -/
theorem Builds.closeFrom (distance fuel stagnant done : Nat) {s : Growth V × List Symbol}
    {b : SpanBuild V} (h : Builds base site s.1 b)
    (hlabels : ∀ label, label ∈ s.2 ↔ b.hasLabel label = true) (hnodup : s.2.Nodup)
    (hdone : done ≤ b.found.length) (hstag : stagnant < site.options.forestStagnation)
    (hfuel : (g.unknown site.options b.hasLabel).length +
      (site.options.forestStagnation - stagnant) ≤ fuel) :
    Yields (closeFrom? site g distance fuel stagnant done s)
      (Builds base site · (SpanBuild.closeFrom site g distance fuel stagnant done b)) := by
  induction fuel generalizing stagnant done s b with
  | zero => omega
  | succ fuel ih =>
    have hspan' : s.1.1.passives.IsSpan site.first site.last := ⟨hspan.1, h.size ▸ hspan.2⟩
    have hlength : (b.found.map Constituent.node).length = b.found.length := List.length_map ..
    rw [closeFrom?, SpanBuild.closeFrom, Chart.get?_eq_some_get hspan', h.here]
    simp only [Option.bind_eq_bind, Option.bind_some, hlength]
    by_cases hend : done = b.found.length
    · have hempty : (b.found.drop done).isEmpty = true := by simp [hend]
      rw [if_pos hend, if_pos hempty]
      exact yields_some h
    · have hempty : ¬(b.found.drop done).isEmpty = true := by
        rw [List.isEmpty_iff, List.drop_eq_nil_iff]
        omega
      have hstart : Climbs base site g b s.2 s b :=
        ⟨h, ⟨[], by simp, fun c hc => by cases hc⟩, hlabels, hnodup, List.prefix_refl _⟩
      rw [if_neg hend, if_neg hempty]
      refine (hstart.round hspan hknows hclosed distance done).bind fun after hafter => ?_
      obtain ⟨new, hnew, hsides⟩ := hafter.found
      have hle : b.found.length ≤ (b.round site g distance (b.found.drop done)).found.length := by
        rw [hnew, List.length_append]
        omega
      have hmono := Building.hasLabel_of_append hnew
      cases hgrew : SpanBuild.grew b (b.round site g distance (b.found.drop done)) with
      | false =>
        have hless := Grammar.length_unknown_mono (g := g) (o := site.options) hmono
        rw [if_pos ((hafter.length_eq_iff hlabels).mpr hgrew)]
        simp only [Bool.false_eq_true, if_false]
        split
        · exact yields_some hafter.builds
        · exact ih _ _ hafter.builds hafter.noted hafter.nodup hle (by omega) (by omega)
      | true =>
        -- a left-hand side has come to be known, which pays for the round
        obtain ⟨c, hc, hold⟩ := (Building.grew_eq_true_iff hnew).mp hgrew
        have hunknown : b.hasLabel c.label = false := by
          rw [← Bool.not_eq_true, Building.hasLabel_iff]
          rintro ⟨d, hd, heq⟩
          exact hold d hd heq
        have hless := Grammar.length_unknown_lt hmono (hsides c hc) hunknown
          (Building.hasLabel_iff.mpr ⟨c, hnew ▸ List.mem_append_right _ hc, rfl⟩)
        have hlong : ¬after.2.length = s.2.length := fun heq =>
          Bool.false_ne_true ((hafter.length_eq_iff hlabels).mp heq ▸ hgrew)
        rw [if_neg hlong]
        simp only [if_true]
        exact ih _ _ hafter.builds hafter.noted hafter.nodup hle hstag (by omega)

theorem Builds.close (distance : Nat) {s : Growth V} {b : SpanBuild V} (h : Builds base site s b) :
    Yields (close? site g distance s) (Builds base site · (b.close site g distance)) := by
  have hspan' : s.1.passives.IsSpan site.first site.last := ⟨hspan.1, h.size ▸ hspan.2⟩
  unfold close? SpanBuild.close
  split
  · exact yields_some h
  · rename_i hstag
    have hlabels : Yields ((b.found.map Constituent.node).mapM fun id => s.1.labels[id]?)
        (List.Forall₂ Eq · (b.found.map Constituent.label)) :=
      yields_mapM (fun id c hid => ⟨c.label, by rw [hid.1]; exact hid.2.1, rfl⟩)
        (names_map h.known)
    rw [Chart.get?_eq_some_get hspan', h.here]
    refine hlabels.bind fun labels hlabels => ?_
    rw [List.forall₂_eq_eq_eq] at hlabels
    subst hlabels
    obtain ⟨-, hnodup, -⟩ := ScoreState.foldl_noteLabel [] (b.found.map Constituent.label)
    have hunknown := Grammar.length_unknown_le g site.options b.hasLabel
    refine h.closeFrom hspan hknows hclosed distance _ 0 0 (fun label => ?_) (hnodup .nil)
      (Nat.zero_le _) (by omega) (by unfold SpanBuild.roundLimit; omega)
    rw [Building.hasLabel_iff, mem_foldl_noteLabel, List.mem_map]
    simp

end Close

/-! ## Sorting -/

theorem Builds.sort [Scalar V] {base : NodeTables} {site : Site V} {s : Growth V}
    {b : SpanBuild V} (hspan : base.passives.IsSpan site.first site.last)
    (h : Builds base site s b) :
    Yields (sort? site s.1) fun n =>
      n.labels = s.1.labels ∧ n.levels = s.1.levels ∧ n.passives.size = base.passives.size ∧
        n.passives.get site.first site.last = b.sorted.map Constituent.node ∧
        ∀ i j, ¬(i = site.first ∧ j = site.last) → n.passives.get i j = base.passives.get i j := by
  have hspan' : s.1.passives.IsSpan site.first site.last := ⟨hspan.1, h.size ▸ hspan.2⟩
  have hkeyed : Yields ((b.found.map Constituent.node).mapM fun id =>
      (s.1.labels[id]?).map fun label => (id, label))
      (List.Forall₂ Eq · (b.found.map fun c => (c.node, c.label))) :=
    yields_mapM (fun id c hid => ⟨(c.node, c.label), by rw [hid.1, hid.2.1]; rfl, rfl⟩)
      (names_map h.known)
  have hsorted : (((b.found.map fun c => (c.node, c.label)).mergeSort fun x y =>
      x.2.atMost y.2).map fun x => x.1) = b.sorted.map Constituent.node := by
    have hmap : b.sorted.map (fun c => (c.node, c.label)) =
        (b.found.map fun c => (c.node, c.label)).mergeSort fun x y => x.2.atMost y.2 :=
      List.map_mergeSort fun c _ d _ => rfl
    rw [← hmap, List.map_map]
    rfl
  unfold sort?
  rw [Chart.get?_eq_some_get hspan', h.here]
  refine hkeyed.bind fun keyed hkeyed => ?_
  rw [List.forall₂_eq_eq_eq] at hkeyed
  subst hkeyed
  simp only [hsorted, Chart.set?_eq_some hspan']
  refine yields_some ⟨rfl, rfl, (Chart.size_modify ..).trans h.size, ?_, fun i j hij => ?_⟩
  · rw [Chart.get_set _ _ _ _ _ _ hspan', if_pos ⟨rfl, rfl⟩]
  · rw [Chart.get_set _ _ _ _ _ _ hspan', if_neg hij]
    exact h.other i j hij

end NodeTables

end ParseForest
