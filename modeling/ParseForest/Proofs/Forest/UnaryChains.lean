import ParseForest.Proofs.Features
import ParseForest.Proofs.Forest.Arity
import ParseForest.Proofs.Forest.Rounds

/-!
# Chains of unary rules in the forest

A chain of unary rules over a constituent is built edge by edge, a level higher with each of them.
The closure of a span stops early when its labels do not grow: a chain of which every edge but the
last stands below such a level is there, and a longer one is not. A derivation has a tree in the
forest when all its unary steps are below the levels at which their spans are closed.
-/

namespace ParseForest

variable {V : Type}

def Grammar.UnaryChain (g : Grammar V) (o : Options V) : Symbol → List (RulePair V) → Prop
  | _, [] => True
  | label, pair :: rest =>
    pair ∈ g.unaryRules label ∧ g.UnaryChain o (pair.side o.yieldSource).lhs rest

def Grammar.AcyclicUnary (g : Grammar V) : Prop :=
  ∃ rank : Symbol → Nat, ∀ pair ∈ g.pairs, ∀ s ∈ pair.source.rhs, pair.source.rhs = [s] →
    s.isNonTerminal = true → rank s.unindexed < rank pair.source.lhs

structure Edge.Rewrites (o : Options V) (first last : Nat) (edge : Edge V) (pair : RulePair V)
    (n : NodeId) : Prop where
  tails : edge.tails = [n]
  rule : edge.rule = some (pair.side o.yieldSource)
  features : edge.features = pair.features
  attributes : edge.attributes =
    AttributeVector.overlay pair.attributes (spanAttributes first last)

/-- Edges over a span apply rule pairs one after another, the first of them to a node; none of them
leads to the goal. -/
def Hypergraph.HasChain (o : Options V) (first last : Nat) (graph : Hypergraph V) :
    NodeId → List (RulePair V) → Prop
  | _, [] => True
  | n, pair :: rest => ∃ e m : Nat, e < graph.edges.size ∧
      (graph.edge e).Rewrites o first last pair n ∧ (graph.edge e).head = some m ∧
      graph.goal ≠ some m ∧ graph.HasChain o first last m rest

theorem get?_overlay_spanAttributes (a : AttributeVector V) (i j : Nat) :
    (AttributeVector.overlay a (spanAttributes i j)).get? "span-first" = some (.int i) ∧
      (AttributeVector.overlay a (spanAttributes i j)).get? "span-last" = some (.int j) := by
  rw [AttributeVector.overlay, NameMap.get?_merge, NameMap.get?_merge]
  simp [spanAttributes, NameMap.ofList, NameMap.insert, NameMap.get?_upsert]

theorem spanAttributes_inj {a b : AttributeVector V} {i j i' j' : Nat}
    (h : AttributeVector.overlay a (spanAttributes i j) =
      AttributeVector.overlay b (spanAttributes i' j')) : i = i' ∧ j = j' := by
  have hleft := get?_overlay_spanAttributes a i j
  have hright := get?_overlay_spanAttributes b i' j'
  rw [h, hright.1, hright.2] at hleft
  simp only [Option.some.injEq, AttributeValue.int.injEq, Int.natCast_inj] at hleft
  exact ⟨hleft.1.symm, hleft.2.symm⟩

theorem Grammar.exists_unaryChain_pair {g : Grammar V} {o : Options V} {label : Symbol}
    (middle last : Symbol)
    (hfirst : middle ∈ (g.unaryRules label).map fun pair => (pair.side o.yieldSource).lhs)
    (hsecond : last ∈ (g.unaryRules middle).map fun pair => (pair.side o.yieldSource).lhs) :
    ∃ pair next, g.UnaryChain o label [pair, next] := by
  obtain ⟨pair, hpair, hlhs⟩ := List.mem_map.mp hfirst
  obtain ⟨next, hnext, -⟩ := List.mem_map.mp hsecond
  exact ⟨pair, next, hpair, hlhs.symm ▸ hnext, trivial⟩

/-! ## Derivations with unary steps -/

def Derivation.level : Derivation → Nat
  | .node _ _ (.entry .start _ d) => d.level + 1
  | .node _ _ _ => 0

theorem Derivation.Valid.unary {g : Grammar V} {lattice : Lattice V} {pruner : Pruner}
    {words : Set Symbol} {d : Derivation} (hd : d.Valid g lattice pruner words) {rule : RuleName}
    {label : Symbol} (s : Symbol)
    (hnamed : (g.pair? rule).map RulePair.source = some ⟨label, [s]⟩)
    (hchild : s.unindexed = d.place.label)
    (hleft : pruner.skipsLabel d.place.first d.place.last label = false) :
    (Derivation.node ⟨d.place.first, d.place.last, label⟩ rule
      (.entry .start d.place.first d)).Valid g lattice pruner words := by
  obtain ⟨pair, hpair, hsource⟩ := Option.map_eq_some_iff.mp hnamed
  have hspan : pruner.skipsSpan d.place.first d.place.last = false := by
    cases hd with
    | node span spanLeft => exact spanLeft
  refine .node hd.first_lt_last hspan hleft hpair (by rw [hsource]) ?_ fun d' hd' => ?_
  · rw [hsource]
    exact ⟨[], s, rfl, ⟨rfl, rfl⟩, by rw [hchild]⟩
  · rw [List.mem_singleton.mp hd']
    exact hd

inductive Derivation.Every (P : Derivation → Prop) : Derivation → Prop
  | node {place : SpanLabel} {rule : RuleName} {parts : Trail Derivation}
    (here : P (.node place rule parts)) (below : ∀ d ∈ parts.entries, Every P d) :
    Every P (.node place rule parts)

theorem Trail.level_map {f : Derivation → Constituent} {parts : Trail Derivation}
    (h : ∀ d ∈ parts.entries, (f d).level = d.level) (place : SpanLabel) (rule : RuleName) :
    (parts.map f).level = (Derivation.node place rule parts).level := by
  cases parts with
  | start => rfl
  | entry x p d =>
    cases x with
    | start =>
      rw [map, map, level, Derivation.level, h d List.mem_cons_self]
    | entry => rfl
    | arc => rfl
  | arc => rfl

namespace ForestState

variable [Scalar V] {g : Grammar V} {o : Options V} {lattice : Lattice V} {pruner : Pruner}
  {ledger : List Entry}

theorem edge_goalGraph {e : Nat} (he : e < (run g o lattice pruner).graph.edges.size) :
    (goalGraph g o lattice pruner).edge e = (run g o lattice pruner).graph.edge e := by
  by_cases hne : goalCells g o lattice pruner = []
  · rw [goalGraph, withGoal_of_nil _ _ hne]
    rfl
  · obtain ⟨ledger, h⟩ := exists_finished hne
    exact h.topped.old e he

theorem rewrites_goalGraph_iff {e m n first last : Nat} {pair : RulePair V} :
    (e < (goalGraph g o lattice pruner).edges.size ∧
      ((goalGraph g o lattice pruner).edge e).Rewrites o first last pair n ∧
        ((goalGraph g o lattice pruner).edge e).head = some m ∧
          (goalGraph g o lattice pruner).goal ≠ some m) ↔
      e < (run g o lattice pruner).graph.edges.size ∧
        ((run g o lattice pruner).graph.edge e).Rewrites o first last pair n ∧
          ((run g o lattice pruner).graph.edge e).head = some m := by
  by_cases hne : goalCells g o lattice pruner = []
  · have hsize : (goalGraph g o lattice pruner).edges.size =
        (run g o lattice pruner).graph.edges.size := by
      rw [goalGraph, withGoal_of_nil _ _ hne]
      rfl
    rw [goalGraph_of_nil hne, hsize]
    refine and_congr_right fun he => ?_
    rw [edge_goalGraph he]
    simp
  · obtain ⟨ledger, h⟩ := exists_finished hne
    rw [h.root]
    constructor
    · rintro ⟨he, hrewrites, hhead, hgoal⟩
      rcases h.topped.cases_edge he with ⟨hlt, hedge⟩ | ⟨i, c, -, -, hedge⟩
      · rw [hedge] at hrewrites hhead
        exact ⟨hlt, hrewrites, hhead⟩
      · rw [hedge] at hhead
        exact absurd hhead hgoal
    · rintro ⟨he, hrewrites, hhead⟩
      rw [edge_goalGraph he, h.topped.edges]
      refine ⟨by omega, hrewrites, hhead, fun hgoal => ?_⟩
      exact Nat.ne_of_gt (h.recorded.head_lt e he m hhead) (Option.some.inj hgoal)

section Ledger

variable (hlegible : ∀ t ∈ g, t.Legible)
  (h : Ran g o lattice pruner (Chart.spansByLength lattice.size) (run g o lattice pruner) ledger)
  {first last : Nat} {c : Constituent} (hc : c ∈ cells g o lattice pruner first last)
  {pair : RulePair V}

include hlegible hc in
theorem exists_genuine_of_unaryRule (hpair : pair ∈ g.unaryRules c.label)
    (hleft : pruner.skipsLabel first last (pair.side o.yieldSource).lhs = false)
    (hspan : (first < last ∧ last ≤ lattice.size) ∧ pruner.skipsSpan first last = false) :
    ∃ a : Entry, Genuine g o lattice pruner (listed (cells g o lattice pruner)) a ∧
      a.place = ⟨first, last, (pair.side o.yieldSource).lhs⟩ ∧
      a.step.parts = .entry .start first c ∧ g.pair? a.step.rule = some pair := by
  obtain ⟨t, ht, hrule⟩ := List.mem_flatMap.mp hpair
  obtain ⟨i, hi⟩ := List.getElem?_of_mem ht
  obtain ⟨k, hk⟩ := List.getElem?_of_mem hrule
  obtain ⟨hnamed, hroot⟩ := SpanBuild.getElem?_unaryRules hi (List.getElem?_eq_some_iff.mp hk).1
  rw [hk] at hnamed
  have hcovers := (hlegible t ht).covers
  refine ⟨⟨⟨first, last, (pair.side o.yieldSource).lhs⟩,
    ⟨⟨i, t.next RuleTable.root c.label, k⟩, .entry .start first c⟩⟩, ?_, rfl, rfl, hnamed⟩
  refine ⟨hspan.1, hspan.2, hleft, ⟨pair, hnamed, rfl⟩, t, hi, ?_, ?_⟩
  · exact ⟨⟨rfl, Nat.lt_of_lt_of_le hspan.1.1 hspan.1.2, hcovers 0⟩, hspan.1.1, hspan.1.2, hc,
      hcovers _⟩
  · rw [Trail.state?, Trail.state?, Option.bind_some, if_neg hroot]

include hlegible h hc in
theorem Ran.exists_rewrites (hpair : pair ∈ g.unaryRules c.label)
    (hleft : pruner.skipsLabel first last (pair.side o.yieldSource).lhs = false)
    (hidle : idleRounds (cells g o lattice pruner first last) c.level < o.forestStagnation) :
    ∃ e : Nat, ∃ d ∈ cells g o lattice pruner first last,
      e < (run g o lattice pruner).graph.edges.size ∧
        ((run g o lattice pruner).graph.edge e).Rewrites o first last pair c.node ∧
        ((run g o lattice pruner).graph.edge e).head = some d.node ∧
        d.label = (pair.side o.yieldSource).lhs ∧ d.level = c.level + 1 := by
  obtain ⟨b, hb, hplace, -⟩ := h.exists_entry hc
  have hspan := hb.span
  have hspanLeft := hb.spanLeft
  rw [hplace] at hspan hspanLeft
  obtain ⟨a, ha, hplace, hparts, hnamed⟩ :=
    exists_genuine_of_unaryRule hlegible hc hpair hleft ⟨hspan, hspanLeft⟩
  have hfirst : a.place.first = first := by rw [hplace]
  have hmem := (h.mem_ledger_iff_idleRounds ha (by rw [hparts, hfirst])).mpr (by
    rw [hplace]
    exact hidle)
  obtain ⟨e, he⟩ := List.getElem?_of_mem hmem
  obtain ⟨pair', d, hnamed', hd, hlabel, hlevel, hedge, -⟩ := h.recorded.edge e a he
  rw [hnamed] at hnamed'
  cases hnamed'
  rw [hplace] at hd hlabel
  rw [hparts] at hlevel
  refine ⟨e, d, hd, ?_, ?_, by rw [hedge]; rfl, hlabel, hlevel⟩
  · rw [h.recorded.size]
    exact (List.getElem?_eq_some_iff.mp he).1
  · rw [hedge, edgeOf, hparts, hplace]
    exact ⟨rfl, rfl, rfl, rfl⟩

include hlegible h hc in
theorem Ran.parts_of_tails {a : Entry}
    (ha : Genuine g o lattice pruner (listed (cells g o lattice pruner)) a)
    (hnamed : g.pair? a.step.rule = some pair) (hfirst : a.place.first = first)
    (hlast : a.place.last = last)
    (htails : orderTails pair.source (a.step.parts.entries.map Constituent.node) = [c.node]) :
    a.step.parts = .entry .start a.place.first c := by
  obtain ⟨_, -, hcount⟩ := ha.length_entries_add hlegible hnamed
  have hperm : (orderTails pair.source (a.step.parts.entries.map Constituent.node)).Perm
      (a.step.parts.entries.map Constituent.node) :=
    perm_orderTails (by rw [List.length_map]; omega)
  rw [htails] at hperm
  obtain ⟨c', hentries, hnode⟩ := List.map_eq_singleton_iff.mp (List.singleton_perm.mp hperm).symm
  obtain ⟨t, -, hover, -⟩ := ha.fits
  obtain ⟨p, q, hplaced⟩ := Trail.exists_placed (hentries ▸ List.mem_singleton_self c') a.place.last
  obtain ⟨rfl, rfl, rfl⟩ := h.recorded.once _ _ _ _ c' c (hover.mem_placed hplaced).2.2.2 hc hnode
  -- a part that were not alone would lie strictly inside the span
  have hbegins : a.step.parts.Begins (a.place.first, a.place.last) a.place.first a.place.last := by
    by_contra hnot
    have := hover.placed_inside hnot hplaced
    omega
  obtain ⟨c'', hparts⟩ := hover.begins_iff.mp hbegins
  rw [hparts] at hentries
  obtain rfl : c'' = c' := List.singleton_inj.mp hentries
  exact hparts

include hlegible h hc in
theorem Ran.of_rewrites {e m : Nat} (he : e < (run g o lattice pruner).graph.edges.size)
    (hrewrites : ((run g o lattice pruner).graph.edge e).Rewrites o first last pair c.node)
    (hhead : ((run g o lattice pruner).graph.edge e).head = some m) :
    idleRounds (cells g o lattice pruner first last) c.level < o.forestStagnation ∧
      ∃ d ∈ cells g o lattice pruner first last, d.node = m ∧
        d.label = (pair.side o.yieldSource).lhs ∧ d.level = c.level + 1 := by
  rw [h.recorded.size] at he
  obtain ⟨pair', d, hnamed, hd, hlabel, hlevel, hedge, -⟩ :=
    h.recorded.edge e _ (List.getElem?_eq_getElem he)
  have hgen := (h.genuine _ (List.getElem_mem he)).2
  have hmem := List.getElem_mem he
  generalize ledger[e] = a at *
  obtain ⟨htails, hrule, -, hattributes⟩ := hrewrites
  rw [hedge] at htails hrule hattributes hhead
  obtain ⟨hfirst, hlast⟩ := spanAttributes_inj hattributes
  rw [edgeOf, load_tails] at htails
  have hparts := h.parts_of_tails hlegible hc hgen hnamed hfirst hlast htails
  have hidle := (h.mem_ledger_iff_idleRounds hgen hparts).mp hmem
  rw [hfirst, hlast] at hidle hd
  rw [hparts] at hlevel
  obtain ⟨pair'', hnamed'', hlhs⟩ := hgen.label
  rw [hnamed] at hnamed''
  cases hnamed''
  have hside : pair'.side o.yieldSource = pair.side o.yieldSource := Option.some.inj hrule
  exact ⟨hidle, d, hd, Option.some.inj hhead, by rw [hlabel, ← hlhs, hside], hlevel⟩

include hlegible h hc in
/-- A chain is there exactly when the span is still closed at the level below its last rule. -/
theorem Ran.hasChain_iff (hleft : ∀ label, pruner.skipsLabel first last label = false)
    {rest : List (RulePair V)} (hchain : g.UnaryChain o c.label (pair :: rest)) :
    (goalGraph g o lattice pruner).HasChain o first last c.node (pair :: rest) ↔
      idleRounds (cells g o lattice pruner first last) (c.level + rest.length) <
        o.forestStagnation := by
  -- the first edge of a chain leads to a constituent one level up, where the rest of it starts
  induction rest generalizing c pair with
  | nil =>
    constructor
    · rintro ⟨e, m, he, hrewrites, hhead, hgoal, -⟩
      obtain ⟨he, hrewrites, hhead⟩ := rewrites_goalGraph_iff.mp ⟨he, hrewrites, hhead, hgoal⟩
      exact (h.of_rewrites hlegible hc he hrewrites hhead).1
    · intro hidle
      obtain ⟨e, d, -, he, hrewrites, hhead, -⟩ :=
        h.exists_rewrites hlegible hc hchain.1 (hleft _) hidle
      obtain ⟨he, hrewrites, hhead, hgoal⟩ := rewrites_goalGraph_iff.mpr ⟨he, hrewrites, hhead⟩
      exact ⟨e, d.node, he, hrewrites, hhead, hgoal, trivial⟩
  | cons pair' rest ih =>
    have hlevel : ∀ d : Constituent, d.level = c.level + 1 →
        d.level + rest.length = c.level + (pair' :: rest).length := by
      intro d hd
      rw [hd, List.length_cons]
      omega
    constructor
    · rintro ⟨e, m, he, hrewrites, hhead, hgoal, hmore⟩
      obtain ⟨he, hrewrites, hhead⟩ := rewrites_goalGraph_iff.mp ⟨he, hrewrites, hhead, hgoal⟩
      obtain ⟨-, d, hd, rfl, hlabel, hdlevel⟩ := h.of_rewrites hlegible hc he hrewrites hhead
      rw [← hlevel d hdlevel]
      exact (ih hd (hlabel ▸ hchain.2)).mp hmore
    · intro hidle
      have hfirst := Nat.lt_of_le_of_lt (idleRounds_mono _ (Nat.le_add_right _ _)) hidle
      obtain ⟨e, d, hd, he, hrewrites, hhead, hlabel, hdlevel⟩ :=
        h.exists_rewrites hlegible hc hchain.1 (hleft _) hfirst
      obtain ⟨he, hrewrites, hhead, hgoal⟩ := rewrites_goalGraph_iff.mpr ⟨he, hrewrites, hhead⟩
      rw [← hlevel d hdlevel] at hidle
      exact ⟨e, d.node, he, hrewrites, hhead, hgoal, (ih hd (hlabel ▸ hchain.2)).mpr hidle⟩

variable (g o lattice pruner) in
def ClosesOver (d : Derivation) : Prop :=
  d.Every fun d => ∀ n, d.level = n + 1 →
    idleRounds (cells g o lattice pruner d.place.first d.place.last) n < o.forestStagnation

include hlegible h in
theorem Ran.exists_shown {d : Derivation} (hd : d.Made g o lattice pruner)
    (hcloses : ClosesOver g o lattice pruner d) :
    ∃ c x, c ∈ cells g o lattice pruner d.place.first d.place.last ∧ c.label = d.place.label ∧
      c.level = d.level ∧ (run g o lattice pruner).graph.Derives c.node x ∧
        (goalGraph g o lattice pruner).Shows g o lattice x d := by
  induction hd with
  | @node place rule parts pair span spanLeft labelLeft named label fits below ih =>
    obtain ⟨here, hparts⟩ := hcloses
    obtain ⟨t, -, hover, -⟩ := id fits
    have ih := fun d hd => ih d hd (hparts d hd)
    choose! c x hc hlabel hlevel hx hshows using ih
    have halong : Trail.Along (fun p q (d : Derivation) c =>
        c ∈ listed (cells g o lattice pruner) p q ∧ d.place.label = c.label) place.last parts
          (parts.map c) := by
      refine Trail.Along.of_map place.last parts fun p q d hd => ?_
      have hmem := Trail.mem_entries_of_mem_placed hd
      obtain ⟨hp, hq⟩ := (hover.mem_placed hd).2.2.2
      rw [← hp, ← hq]
      exact ⟨hc d hmem, (hlabel d hmem).symm⟩
    have hgen : Genuine g o lattice pruner (listed (cells g o lattice pruner))
        ⟨place, ⟨rule, parts.map c⟩⟩ :=
      ⟨span, spanLeft, labelLeft, ⟨pair, named, label⟩, Application.fits_along
        (fun p q d c hdc => hdc.2) (fun p q d c _ hdc => hdc.1) halong fits⟩
    -- the constituents are as high as the parts they stand for, so the span is closed as long
    have hheight := Trail.level_map hlevel place rule
    have hmem : (⟨place, ⟨rule, parts.map c⟩⟩ : Entry) ∈ ledger :=
      h.mem_ledger_of_idleRounds hgen fun n hn => here n (hheight.symm.trans hn)
    obtain ⟨e, he⟩ := List.getElem?_of_mem hmem
    obtain ⟨_, head, -, hhead, hlabel', hlevel', -, -⟩ := h.recorded.edge e _ he
    obtain ⟨_, -, hcount⟩ := hgen.length_entries_add hlegible named
    have hle := Nat.le_of_add_right_le (Nat.le_of_eq hcount)
    have hordered : List.Forall₂
        (fun y d => (goalGraph g o lattice pruner).Shows g o lattice y d)
        (orderTails pair.source (parts.entries.map x)) (orderTails pair.source parts.entries) := by
      rw [Trail.entries_map, List.length_map] at hle
      rw [forall₂_orderTails_iff (List.length_map _) (by rw [List.length_map]; exact hle),
        List.forall₂_map_left_iff, List.forall₂_same]
      exact hshows
    have hlt := (List.getElem?_eq_some_iff.mp he).1
    rw [← h.recorded.size] at hlt
    refine ⟨head, .node e (orderTails pair.source (parts.entries.map x)), hhead, hlabel',
      hlevel'.trans hheight, h.recorded.derives_node he named hle hhead hlabel' hlevel' ?_,
      .node named ?_ hordered.length_eq fun p hp => List.forall₂_zip hordered hp⟩
    · rw [Trail.entries_map, List.forall₂_map_left_iff, List.forall₂_map_right_iff,
        List.forall₂_same]
      exact hx
    · rw [edge_goalGraph hlt]
      exact h.recorded.edge_shows he named halong.flip

end Ledger

end ForestState

open ForestState

variable [Scalar V] {g : Grammar V} {o : Options V} {lattice : Lattice V} {pruner : Pruner}

theorem exists_shown_of_closesOver (hlegible : ∀ t ∈ g, t.Legible) {d : Derivation}
    (hd : d.Made g o lattice pruner) (hgoal : d.place = ⟨0, lattice.size, o.goal⟩)
    (hcloses : ClosesOver g o lattice pruner d) :
    ∃ x ∈ (forest g o lattice pruner).goalTrees,
      (forest g o lattice pruner).ShowsGoal g o lattice x d := by
  obtain ⟨ledger, hran⟩ := exists_ledger g o lattice pruner
  obtain ⟨c, y, hc, hlabel, -, hy, hshows⟩ := hran.exists_shown hlegible hd hcloses
  rw [hgoal] at hc hlabel
  have hmem := mem_goalCells.mpr ⟨hc, hlabel⟩
  obtain ⟨i, hi⟩ := List.getElem?_of_mem hmem
  have h := hran.finished (List.ne_nil_of_mem hmem)
  obtain ⟨back, hbij, hsame⟩ := forest_bijOn (List.ne_nil_of_mem hmem)
  obtain ⟨x, hx, hback⟩ := hbij.surjOn (h.mem_goalTrees.mpr ⟨i, c, y, hi, rfl, hy⟩)
  refine ⟨x, hx, hsame.showsGoal hx ?_⟩
  rw [hback]
  refine ⟨_, y, rfl, ?_, ?_, ?_, hshows⟩
  all_goals rw [h.topped.new i c hi]; rfl

namespace ForestParser

variable [NumberText V]

/-- A chain of unary rules over a constituent of level 0 is in the forest exactly when fewer of the
rounds before its last rule were idle than the closure may stagnate. The forest shows every
derivation of the goal whose unary steps are all made. -/
theorem hasChain_iff_idleRounds (p : ForestParser V) (lattice : Lattice V)
    (hg : p.grammar.IsText) :
    (∀ first last, ∀ c ∈ cells p.grammar p.options lattice .none first last, c.level = 0 →
      ∀ pair rest, p.grammar.UnaryChain p.options c.label (pair :: rest) →
        ((goalGraph p.grammar p.options lattice .none).HasChain p.options first last c.node
            (pair :: rest) ↔
          idleRounds (cells p.grammar p.options lattice .none first last) rest.length <
            p.options.forestStagnation)) ∧
      ∀ d : Derivation, d.Made p.grammar p.options lattice .none →
        d.place = ⟨0, lattice.size, p.options.goal⟩ →
        ClosesOver p.grammar p.options lattice .none d →
        ∃ x ∈ (p.parse lattice .none).2.goalTrees,
          (p.parse lattice .none).2.ShowsGoal p.grammar p.options lattice x d := by
  obtain ⟨ledger, hran⟩ := exists_ledger p.grammar p.options lattice .none
  refine ⟨fun first last c hc hlevel pair rest hchain => ?_, fun d hd hgoal hcloses => ?_⟩
  · rw [hran.hasChain_iff (fun _ => hg.legible) hc (fun _ => rfl) hchain, hlevel, Nat.zero_add]
  · rw [parse_eq_forest]
    exact exists_shown_of_closesOver (fun _ => hg.legible) hd hgoal hcloses

/-- A noun becomes a noun phrase and that a sentence; each round brings a label. -/
theorem hasChain_iff_idleRounds_of_noun :
    let p := ForestParser.new [RuleTable.ofText "[N] ||| dog\n[NP] ||| [N,1]\n[S] ||| [NP,1]"]
      Options.standard
    let lattice := Lattice.ofWords [⟨"dog"⟩]
    p.grammar.IsText ∧
      (∃ c ∈ cells p.grammar p.options lattice .none 0 1, c.level = 0 ∧
        ∃ pair next, p.grammar.UnaryChain p.options c.label [pair, next] ∧
          (goalGraph p.grammar p.options lattice .none).HasChain p.options 0 1 c.node
            [pair, next]) ∧
      ∃ d : Derivation, (d.Made p.grammar p.options lattice .none ∧
        d.place = ⟨0, lattice.size, p.options.goal⟩ ∧
        ClosesOver p.grammar p.options lattice .none d) ∧ d.level = 2 ∧
        ∃ x ∈ (p.parse lattice .none).2.goalTrees,
          (p.parse lattice .none).2.ShowsGoal p.grammar p.options lattice x d := by
  intro p lattice
  have hg : p.grammar.IsText := Grammar.isText_ofText _
  have hterm : lattice.AllTerminal := by decide +kernel
  have hsplit : Chart.spansByLength lattice.size = [] ++ [(0, 1)] := rfl
  have hidle : ∀ n ≤ 1, idleRounds (cells p.grammar p.options lattice .none 0 1) n <
      p.options.forestStagnation := by
    intro n hn
    have hlast : idleRounds (built p.grammar p.options lattice .none
        (upTo p.grammar p.options lattice .none []) 0 1).found 1 = 0 := by decide +kernel
    refine Nat.lt_of_le_of_lt (idleRounds_mono _ hn) ?_
    rw [idleRounds_cells hsplit rfl, hlast]
    exact Nat.one_pos
  obtain ⟨hchains, hshown⟩ := hasChain_iff_idleRounds p lattice hg
  refine ⟨hg, ?_, ?_⟩
  · have hc : ⟨0, ⟨"[N]"⟩, 0⟩ ∈ cells p.grammar p.options lattice .none 0 1 := by
      rw [(perm_cells_built hsplit rfl).mem_iff]
      decide +kernel
    obtain ⟨pair, next, hchain⟩ : ∃ pair next,
        p.grammar.UnaryChain p.options ⟨"[N]"⟩ [pair, next] :=
      Grammar.exists_unaryChain_pair ⟨"[NP]"⟩ ⟨"[S]"⟩ (by decide +kernel)
        (by decide +kernel)
    exact ⟨_, hc, rfl, pair, next, hchain,
      (hchains 0 1 _ hc rfl pair [next] hchain).mpr (hidle 1 (Nat.le_refl 1))⟩
  · let noun := Derivation.node ⟨0, 1, ⟨"[N]"⟩⟩ ⟨0, 1, 0⟩ (.arc .start 0 0)
    let phrase := Derivation.node ⟨0, 1, ⟨"[NP]"⟩⟩ ⟨0, 2, 0⟩ (.entry .start 0 noun)
    let sentence := Derivation.node ⟨0, 1, ⟨"[S]"⟩⟩ ⟨0, 3, 0⟩ (.entry .start 0 phrase)
    have hword : (p.grammar.pair? ⟨0, 1, 0⟩).map RulePair.source =
        some ⟨⟨"[N]"⟩, [⟨"dog"⟩]⟩ := by decide +kernel
    obtain ⟨pair, hpair, hsource⟩ := Option.map_eq_some_iff.mp hword
    have hnoun : noun.Valid p.grammar lattice .none Symbol.words := by
      refine .node Nat.one_pos rfl rfl hpair (by rw [hsource]) ?_ nofun
      rw [hsource]
      exact ⟨⟨⟨"dog"⟩, 1, NameMap.empty⟩, rfl, rfl, Or.inr ⟨rfl, [], rfl, rfl, rfl⟩⟩
    have hphrase : phrase.Valid p.grammar lattice .none Symbol.words :=
      hnoun.unary ⟨"[N,1]"⟩ (by decide +kernel) (by decide +kernel) rfl
    have hsentence : sentence.Valid p.grammar lattice .none Symbol.words :=
      hphrase.unary ⟨"[NP,1]"⟩ (by decide +kernel) (by decide +kernel) rfl
    have hmade := (Derivation.Made.iff_valid (o := p.options) (fun _ => hg.legible) rfl rfl
      hterm).mpr hsentence
    have hcloses : ClosesOver p.grammar p.options lattice .none sentence := by
      refine .node (fun n hn => ?_) fun d hd => ?_
      · obtain rfl : n = 1 := (Nat.succ.inj hn).symm
        exact hidle 1 (Nat.le_refl 1)
      · rw [List.mem_singleton.mp hd]
        refine .node (fun n hn => ?_) fun d hd => ?_
        · obtain rfl : n = 0 := (Nat.succ.inj hn).symm
          exact hidle 0 (Nat.zero_le 1)
        · rw [List.mem_singleton.mp hd]
          exact .node (fun n hn => absurd hn (Nat.zero_ne_add_one n)) nofun
    exact ⟨sentence, ⟨hmade, rfl, hcloses⟩, rfl, hshown sentence hmade rfl hcloses⟩

/-- The labels are there from the start, so the first round is idle and no second one is made: the
sentence over the second part of the chain is missing. -/
theorem not_hasChain_of_idle :
    let p := ForestParser.new
      [RuleTable.ofText "[S] ||| a\n[B] ||| a\n[A] ||| a\n[B] ||| [A,1]\n[S] ||| [B,1]"]
      Options.standard
    let lattice := Lattice.ofWords [⟨"a"⟩]
    (p.grammar.IsText ∧ p.grammar.AcyclicUnary) ∧
      ¬∀ first last, ∀ c ∈ cells p.grammar p.options lattice .none first last, c.level = 0 →
        ∀ pairs, p.grammar.UnaryChain p.options c.label pairs →
          (goalGraph p.grammar p.options lattice .none).HasChain p.options first last c.node
            pairs := by
  intro p lattice
  have hg : p.grammar.IsText := Grammar.isText_ofText _
  have hsplit : Chart.spansByLength lattice.size = [] ++ [(0, 1)] := rfl
  refine ⟨⟨hg, fun s => if s = ⟨"[A]"⟩ then 0 else if s = ⟨"[B]"⟩ then 1 else 2, ?_⟩, fun h => ?_⟩
  · decide +kernel
  · have hc : ⟨2, ⟨"[A]"⟩, 0⟩ ∈ cells p.grammar p.options lattice .none 0 1 := by
      rw [(perm_cells_built hsplit rfl).mem_iff]
      decide +kernel
    obtain ⟨pair, next, hchain⟩ : ∃ pair next,
        p.grammar.UnaryChain p.options ⟨"[A]"⟩ [pair, next] :=
      Grammar.exists_unaryChain_pair ⟨"[B]"⟩ ⟨"[S]"⟩ (by decide +kernel)
        (by decide +kernel)
    have hidle : idleRounds (built p.grammar p.options lattice .none
        (upTo p.grammar p.options lattice .none []) 0 1).found 1 = 1 := by decide +kernel
    obtain ⟨ledger, hran⟩ := exists_ledger p.grammar p.options lattice .none
    have hlt := (hran.hasChain_iff (fun _ => hg.legible) hc (fun _ => rfl) hchain).mp
      (h 0 1 _ hc rfl _ hchain)
    rw [List.length_singleton, Nat.zero_add, idleRounds_cells hsplit rfl,
      hidle] at hlt
    exact Nat.lt_irrefl 1 hlt

end ForestParser

end ParseForest
