import Mathlib.Data.List.Induction
import ParseForest.Proofs.Forest.Ledger

/-!
# Building a span from applications

`SpanBuild.applyNamed` adds the edge of one named application. A list of applications of one level
is added one by one; all of them build on nodes below a base, and the constituents that they make
come to stand at the base or above it, so tails stay below heads.
-/

namespace ParseForest

variable {V : Type} [Scalar V]

namespace SpanBuild

theorem apply_eq (site : Site V) (level : Nat) (b : SpanBuild V) (pair : RulePair V)
    (used : Match V) (hskip : site.skips (site.ruleOf pair).lhs = false) :
    b.apply site level pair used =
      let tails := orderTails pair.source used.tails
      let features := FeatureVector.plus pair.features used.features
      let attributes :=
        AttributeVector.overlay pair.attributes (spanAttributes site.first site.last)
      match b.find? (site.ruleOf pair).lhs level with
      | some c =>
        ⟨b.graph.extend c.node tails (some (site.ruleOf pair)) features attributes, b.found⟩
      | none =>
        ⟨b.graph.addNode.extend b.graph.nodes.size tails (some (site.ruleOf pair)) features
            attributes,
          b.found ++ [⟨b.graph.nodes.size, (site.ruleOf pair).lhs, level⟩]⟩ := by
  obtain ⟨graph, found⟩ := b
  unfold apply connect
  simp only [hskip, Bool.false_eq_true, if_false]
  rw [show ∀ graph' : Hypergraph V, (SpanBuild.mk graph' found).find? (site.ruleOf pair).lhs level =
    (SpanBuild.mk graph found).find? (site.ruleOf pair).lhs level from fun _ => rfl]
  cases (SpanBuild.mk graph found).find? (site.ruleOf pair).lhs level <;> rfl

theorem apply_of_skips (site : Site V) (level : Nat) (b : SpanBuild V) (pair : RulePair V)
    (used : Match V) (hskip : site.skips (site.ruleOf pair).lhs = true) :
    b.apply site level pair used = b := by
  unfold apply
  simp only [hskip, if_true]

end SpanBuild

structure Building (g : Grammar V) (lattice : Lattice V) (site : Site V)
    (cells : Nat → Nat → List Constituent) (b : SpanBuild V) (ledger : List Entry) : Prop where
  recorded : Recorded g site.options lattice (cellsWith cells site.first site.last b.found) b.graph
    ledger
  derived : ∀ c ∈ b.found, ∃ a ∈ ledger, a.place = ⟨site.first, site.last, c.label⟩ ∧
    a.step.parts.level = c.level
  nodup : b.found.Nodup

namespace Building

variable {g : Grammar V} {lattice : Lattice V} {site : Site V}
  {cells : Nat → Nat → List Constituent} {b : SpanBuild V} {ledger : List Entry}

structure Grows (g : Grammar V) (lattice : Lattice V) (site : Site V)
    (cells : Nat → Nat → List Constituent) (ledger : List Entry) (base level : Nat)
    (b after : SpanBuild V) (added : List Entry) : Prop where
  building : Building g lattice site cells after (ledger ++ added)
  size : b.graph.nodes.size ≤ after.graph.nodes.size
  found : ∃ new, after.found = b.found ++ new ∧
    ∀ c ∈ new, c.level = level ∧ base ≤ c.node ∧ ∃ a ∈ added, a.place.label = c.label

theorem grows_refl (h : Building g lattice site cells b ledger) (base level : Nat) :
    Grows g lattice site cells ledger base level b b [] := by
  refine ⟨?_, Nat.le_refl _, [], (List.append_nil _).symm, fun c hc => by cases hc⟩
  rw [List.append_nil]
  exact h

theorem recorded_extend {graph : Hypergraph V} {found : List Constituent}
    (h : Recorded g site.options lattice (cellsWith cells site.first site.last found) graph ledger)
    {a : Application Constituent} {pair : RulePair V} (hp : g.pair? a.rule = some pair)
    {c : Constituent} (hc : c ∈ found) (hlabel : c.label = (site.ruleOf pair).lhs)
    (hlevel : c.level = a.parts.level)
    (hbelow : ∀ d ∈ a.parts.entries, d.node < c.node) :
    let used := a.parts.load Match.carrier lattice
    Recorded g site.options lattice (cellsWith cells site.first site.last found)
      (graph.extend c.node (orderTails pair.source used.tails) (some (site.ruleOf pair))
        (FeatureVector.plus pair.features used.features)
        (AttributeVector.overlay pair.attributes (spanAttributes site.first site.last)))
      (ledger ++ [⟨⟨site.first, site.last, (site.ruleOf pair).lhs⟩, a⟩]) := by
  refine h.extend (a := ⟨⟨site.first, site.last, (site.ruleOf pair).lhs⟩, a⟩) hp ?_ hlabel hlevel
    hbelow
  rw [cellsWith_self]
  exact hc

theorem grows_of_found (h : Building g lattice site cells b ledger) {a : Application Constituent}
    {pair : RulePair V} (hp : g.pair? a.rule = some pair) {base : Nat} {c : Constituent}
    (hc : c ∈ b.found) (hlabel : c.label = (site.ruleOf pair).lhs)
    (hlevel : c.level = a.parts.level) (hbelow : ∀ d ∈ a.parts.entries, d.node < c.node) :
    let used := a.parts.load Match.carrier lattice
    Grows g lattice site cells ledger base a.parts.level b
      ⟨b.graph.extend c.node (orderTails pair.source used.tails) (some (site.ruleOf pair))
        (FeatureVector.plus pair.features used.features)
        (AttributeVector.overlay pair.attributes (spanAttributes site.first site.last)), b.found⟩
      [⟨⟨site.first, site.last, (site.ruleOf pair).lhs⟩, a⟩] := by
  intro used
  refine ⟨⟨recorded_extend h.recorded hp hc hlabel hlevel hbelow, fun d hd => ?_, h.nodup⟩,
    by simp, [], (List.append_nil _).symm, fun c hc => by cases hc⟩
  obtain ⟨e, he, hd⟩ := h.derived d hd
  exact ⟨e, List.mem_append_left _ he, hd⟩

theorem grows_of_new (h : Building g lattice site cells b ledger) {a : Application Constituent}
    {pair : RulePair V} (hp : g.pair? a.rule = some pair) {base : Nat}
    (hsize : base ≤ b.graph.nodes.size) (hbelow : ∀ d ∈ a.parts.entries, d.node < base)
    (hnew : ∀ d ∈ b.found, ¬(d.label = (site.ruleOf pair).lhs ∧ d.level = a.parts.level)) :
    let used := a.parts.load Match.carrier lattice
    Grows g lattice site cells ledger base a.parts.level b
      ⟨b.graph.addNode.extend b.graph.nodes.size (orderTails pair.source used.tails)
        (some (site.ruleOf pair)) (FeatureVector.plus pair.features used.features)
        (AttributeVector.overlay pair.attributes (spanAttributes site.first site.last)),
        b.found ++ [⟨b.graph.nodes.size, (site.ruleOf pair).lhs, a.parts.level⟩]⟩
      [⟨⟨site.first, site.last, (site.ruleOf pair).lhs⟩, a⟩] := by
  intro used
  have hadd := h.recorded.addNode site.first site.last
    ⟨b.graph.nodes.size, (site.ruleOf pair).lhs, a.parts.level⟩ rfl
    (by rw [cellsWith_self]; exact hnew)
  rw [cellsWith_self, cellsWith_cellsWith] at hadd
  have hrec := recorded_extend hadd hp (List.mem_append_right _ List.mem_cons_self) rfl rfl
    fun d hd => Nat.lt_of_lt_of_le (hbelow d hd) hsize
  refine ⟨⟨hrec, fun d hd => ?_, ?_⟩, by simp, _, rfl, fun c hc => ?_⟩
  · rcases List.mem_append.mp hd with hd | hd
    · obtain ⟨e, he, hd⟩ := h.derived d hd
      exact ⟨e, List.mem_append_left _ he, hd⟩
    · rw [List.mem_singleton.mp hd]
      exact ⟨_, List.mem_append_right _ List.mem_cons_self, rfl, rfl⟩
  · refine List.nodup_append.mpr ⟨h.nodup, List.nodup_singleton _, fun d hd c hc heq => ?_⟩
    rw [List.mem_singleton.mp hc] at heq
    exact hnew d hd ⟨by rw [heq], by rw [heq]⟩
  · rw [List.mem_singleton.mp hc]
    exact ⟨rfl, hsize, _, List.mem_cons_self, rfl⟩

theorem applyNamed (h : Building g lattice site cells b ledger) (a : Application Constituent)
    {base : Nat} (hsize : base ≤ b.graph.nodes.size)
    (hbelow : ∀ d ∈ a.parts.entries, d.node < base)
    (hbase : ∀ c ∈ b.found, c.level = a.parts.level → base ≤ c.node) :
    Grows g lattice site cells ledger base a.parts.level b (b.applyNamed g lattice site a)
      (a.entry? g site).toList := by
  cases hp : g.pair? a.rule with
  | none =>
    have hres : a.result? Match.carrier g lattice = none := by rw [Application.result?, hp]; rfl
    have hentry : a.entry? g site = none := by rw [Application.entry?, hp]; rfl
    rw [SpanBuild.applyNamed, hres, hentry]
    exact h.grows_refl base _
  | some pair =>
    have hres : a.result? Match.carrier g lattice =
        some (pair, a.parts.load Match.carrier lattice) := by
      rw [Application.result?, hp]
      rfl
    rw [SpanBuild.applyNamed, hres, Application.entry?, hp, Option.bind_some]
    simp only
    cases hskip : site.skips (site.ruleOf pair).lhs with
    | true =>
      rw [SpanBuild.apply_of_skips _ _ _ _ _ hskip, if_pos rfl]
      exact h.grows_refl base _
    | false =>
      rw [SpanBuild.apply_eq _ _ _ _ _ hskip, if_neg Bool.false_ne_true]
      simp only [Option.toList_some]
      cases hfind : b.find? (site.ruleOf pair).lhs a.parts.level with
      | some c =>
        obtain ⟨hc, hlabel, hlevel⟩ := SpanBuild.of_find?_eq_some hfind
        exact h.grows_of_found hp hc hlabel hlevel fun d hd =>
          Nat.lt_of_lt_of_le (hbelow d hd) (hbase c hc hlevel)
      | none => exact h.grows_of_new hp hsize hbelow (SpanBuild.find?_eq_none_iff.mp hfind)

theorem foldl_applyNamed (h : Building g lattice site cells b ledger)
    (as : List (Application Constituent)) (base level : Nat)
    (hlevel : ∀ a ∈ as, a.parts.level = level) (hsize : base ≤ b.graph.nodes.size)
    (hbelow : ∀ a ∈ as, ∀ d ∈ a.parts.entries, d.node < base)
    (hbase : ∀ c ∈ b.found, c.level = level → base ≤ c.node) :
    Grows g lattice site cells ledger base level b (as.foldl (SpanBuild.applyNamed g lattice site) b)
      (as.filterMap (Application.entry? g site)) := by
  induction as using List.reverseRecOn with
  | nil => exact h.grows_refl base level
  | append_singleton as a ih =>
    obtain ⟨hb, hs, new, hfound, hnew⟩ := ih (fun a' ha' => hlevel a' (List.mem_append_left _ ha'))
      fun a' ha' => hbelow a' (List.mem_append_left _ ha')
    have ha : a ∈ as ++ [a] := List.mem_append_right _ List.mem_cons_self
    have hbase' : ∀ c ∈ (as.foldl (SpanBuild.applyNamed g lattice site) b).found,
        c.level = a.parts.level → base ≤ c.node := by
      intro c hc hl
      rw [hfound] at hc
      rcases List.mem_append.mp hc with hc | hc
      · exact hbase c hc (hl.trans (hlevel a ha))
      · exact (hnew c hc).2.1
    obtain ⟨hb', hs', new', hfound', hnew'⟩ := hb.applyNamed a (Nat.le_trans hsize hs)
      (hbelow a ha) hbase'
    have hone : [a].filterMap (Application.entry? g site) = (a.entry? g site).toList := by
      rw [List.filterMap_cons]
      cases a.entry? g site <;> rfl
    rw [List.foldl_append, List.filterMap_append]
    simp only [List.foldl_cons, List.foldl_nil]
    refine ⟨?_, Nat.le_trans hs hs', new ++ new', ?_, fun c hc => ?_⟩
    · rw [List.append_assoc] at hb'
      rw [hone]
      exact hb'
    · rw [hfound', hfound, List.append_assoc]
    · rcases List.mem_append.mp hc with hc | hc
      · obtain ⟨hl, hn, e, he, heq⟩ := hnew c hc
        exact ⟨hl, hn, e, List.mem_append_left _ he, heq⟩
      · obtain ⟨hl, hn, e, he, heq⟩ := hnew' c hc
        exact ⟨hl.trans (hlevel a ha), hn, e, List.mem_append_right _ (hone ▸ he), heq⟩

end Building

end ParseForest
