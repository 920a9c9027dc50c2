import ParseForest.Proofs.Forest.Span

/-!
# The rule applications of a span, one by one

`RuleStep` is one application of a rule pair at a span. Applying matched rule pairs and closing the
span under unary rules takes a list of steps, which is laid out here round by round. An application
that is known by its name takes the step of the rule pair that it names.
-/

namespace ParseForest

variable {V : Type} [Scalar V]

structure RuleStep (V : Type) where
  level : Nat
  pair : RulePair V
  used : Match V

namespace RuleStep

def take (site : Site V) (b : SpanBuild V) (s : RuleStep V) : SpanBuild V :=
  b.apply site s.level s.pair s.used

omit [Scalar V] in
def ofMatched (m : RulePair V × Match V) : RuleStep V := ⟨0, m.1, m.2⟩

omit [Scalar V] in
def ofUnary (c : Constituent) (pair : RulePair V) : RuleStep V :=
  ⟨c.level + 1, pair, ⟨[c.node], NameMap.empty⟩⟩

omit [Scalar V] in
structure Adds (site : Site V) (s : RuleStep V) (b after : SpanBuild V) : Prop where
  size : after.graph.edges.size = b.graph.edges.size + 1
  tails : (after.graph.edge b.graph.edges.size).tails = orderTails s.pair.source s.used.tails
  head : ∃ c ∈ after.found, c.label = (site.ruleOf s.pair).lhs ∧ c.level = s.level ∧
    (after.graph.edge b.graph.edges.size).head = some c.node

theorem adds_take {site : Site V} {s : RuleStep V}
    (hskip : site.skips (site.ruleOf s.pair).lhs = false) (b : SpanBuild V) :
    s.Adds site b (s.take site b) := by
  rw [take, SpanBuild.apply_eq _ _ _ _ _ hskip]
  cases hfind : b.find? (site.ruleOf s.pair).lhs s.level with
  | some c =>
    obtain ⟨hc, hlabel, hlevel⟩ := SpanBuild.of_find?_eq_some hfind
    refine ⟨Hypergraph.size_edges_extend _ _ _ _ _ _, ?_, c, hc, hlabel, hlevel, ?_⟩
    all_goals simp only [Hypergraph.edge_extend, if_true]
  | none =>
    refine ⟨Hypergraph.size_edges_extend _ _ _ _ _ _, ?_,
      ⟨b.graph.nodes.size, (site.ruleOf s.pair).lhs, s.level⟩,
      List.mem_append_right _ List.mem_cons_self, rfl, rfl, ?_⟩
    all_goals simp only [Hypergraph.edge_extend, Hypergraph.edges_addNode, if_true]

theorem exists_found_take (site : Site V) (s : RuleStep V) (b : SpanBuild V) :
    ∃ new, (s.take site b).found = b.found ++ new ∧
      ∀ c ∈ new, c.label = (site.ruleOf s.pair).lhs ∧ c.level = s.level := by
  rw [take]
  cases hskip : site.skips (site.ruleOf s.pair).lhs with
  | true =>
    rw [SpanBuild.apply_of_skips _ _ _ _ _ hskip]
    exact ⟨[], (List.append_nil _).symm, fun c hc => by cases hc⟩
  | false =>
    rw [SpanBuild.apply_eq _ _ _ _ _ hskip]
    cases b.find? (site.ruleOf s.pair).lhs s.level with
    | some c => exact ⟨[], (List.append_nil _).symm, fun c hc => by cases hc⟩
    | none => exact ⟨_, rfl, fun c hc => by rw [List.mem_singleton.mp hc]; exact ⟨rfl, rfl⟩⟩

end RuleStep

namespace Application

variable {g : Grammar V} {lattice : Lattice V}

def ruleStep? (g : Grammar V) (lattice : Lattice V) (a : Application Constituent) :
    Option (RuleStep V) :=
  (a.result? Match.carrier g lattice).map fun r => ⟨a.parts.level, r.1, r.2⟩

theorem filterMap_ruleStep? {as : List (Application Constituent)}
    (hlevel : ∀ a ∈ as, a.parts.level = 0) :
    as.filterMap (ruleStep? g lattice) =
      (as.filterMap (result? Match.carrier g lattice)).map RuleStep.ofMatched := by
  rw [List.map_filterMap]
  refine List.filterMap_congr fun a ha => ?_
  rw [ruleStep?, hlevel a ha]
  rfl

end Application

namespace SpanBuild

variable {g : Grammar V} {lattice : Lattice V} {site : Site V}

theorem foldl_applyNamed_eq (as : List (Application Constituent)) (b : SpanBuild V) :
    as.foldl (applyNamed g lattice site) b =
      (as.filterMap (Application.ruleStep? g lattice)).foldl (RuleStep.take site) b := by
  rw [List.foldl_filterMap]
  refine List.foldl_ext _ _ _ fun b a _ => ?_
  rw [applyNamed, Application.ruleStep?]
  cases a.result? Match.carrier g lattice <;> rfl

theorem exists_found_foldl (site : Site V) (steps : List (RuleStep V)) (b : SpanBuild V) :
    ∃ new, (steps.foldl (RuleStep.take site) b).found = b.found ++ new ∧
      ∀ c ∈ new, ∃ s ∈ steps, c.label = (site.ruleOf s.pair).lhs ∧ c.level = s.level := by
  induction steps generalizing b with
  | nil => exact ⟨[], (List.append_nil _).symm, fun c hc => by cases hc⟩
  | cons s steps ih =>
    obtain ⟨new, hfound, hnew⟩ := s.exists_found_take site b
    obtain ⟨new', hfound', hnew'⟩ := ih (s.take site b)
    refine ⟨new ++ new', ?_, fun c hc => ?_⟩
    · rw [List.foldl_cons, hfound', hfound, List.append_assoc]
    · rcases List.mem_append.mp hc with hc | hc
      · exact ⟨s, List.mem_cons_self, hnew c hc⟩
      · obtain ⟨s', hs', hc⟩ := hnew' c hc
        exact ⟨s', List.mem_cons_of_mem _ hs', hc⟩

omit [Scalar V] in
def roundSteps (g : Grammar V) (distance : Nat) (frontier : List Constituent) :
    List (RuleStep V) :=
  (g.filter fun t => t.covers distance).flatMap fun t =>
    frontier.flatMap fun c => (t.unaryRules c.label).map (RuleStep.ofUnary c)

omit [Scalar V] in
theorem of_mem_roundSteps {distance : Nat} {frontier : List Constituent} {s : RuleStep V}
    (hs : s ∈ roundSteps g distance frontier) :
    ∃ t ∈ g, ∃ c ∈ frontier, ∃ pair ∈ t.unaryRules c.label, s = RuleStep.ofUnary c pair := by
  obtain ⟨t, ht, hs⟩ := List.mem_flatMap.mp hs
  obtain ⟨c, hc, hs⟩ := List.mem_flatMap.mp hs
  obtain ⟨pair, hpair, rfl⟩ := List.mem_map.mp hs
  exact ⟨t, (List.mem_filter.mp ht).1, c, hc, pair, hpair, rfl⟩

theorem foldl_roundSteps (site : Site V) (distance : Nat) (frontier : List Constituent)
    (b : SpanBuild V) :
    (roundSteps g distance frontier).foldl (RuleStep.take site) b =
      b.round site g distance frontier := by
  rw [roundSteps, round, List.foldl_flatMap]
  refine List.foldl_ext _ _ _ fun b t _ => ?_
  rw [List.foldl_flatMap]
  refine List.foldl_ext _ _ _ fun b c _ => ?_
  rw [List.foldl_map]
  rfl

def closeFromSteps (site : Site V) (g : Grammar V) (distance : Nat) :
    (fuel stagnant done : Nat) → SpanBuild V → List (RuleStep V)
  | 0, _, _, _ => []
  | fuel + 1, stagnant, done, b =>
    let frontier := b.found.drop done
    if frontier.isEmpty then []
    else
      let after := b.round site g distance frontier
      roundSteps g distance frontier ++
        if grew b after then closeFromSteps site g distance fuel stagnant b.found.length after
        else if site.options.forestStagnation ≤ stagnant + 1 then []
        else closeFromSteps site g distance fuel (stagnant + 1) b.found.length after

theorem foldl_closeFromSteps (distance fuel stagnant done : Nat) (b : SpanBuild V) :
    (closeFromSteps site g distance fuel stagnant done b).foldl (RuleStep.take site) b =
      closeFrom site g distance fuel stagnant done b := by
  induction fuel generalizing stagnant done b with
  | zero => rfl
  | succ fuel ih =>
    simp only [closeFromSteps, closeFrom]
    split
    · rfl
    · rw [List.foldl_append, foldl_roundSteps]
      split
      · exact ih _ _ _
      · split
        · rfl
        · exact ih _ _ _

def closeSteps (site : Site V) (g : Grammar V) (distance : Nat) (b : SpanBuild V) :
    List (RuleStep V) :=
  if site.options.forestStagnation = 0 then []
  else b.closeFromSteps site g distance (roundLimit site.options g) 0 0

theorem foldl_closeSteps (distance : Nat) (b : SpanBuild V) :
    (b.closeSteps site g distance).foldl (RuleStep.take site) b = b.close site g distance := by
  unfold closeSteps close
  split
  · rfl
  · exact foldl_closeFromSteps _ _ _ _ b

end SpanBuild

end ParseForest
