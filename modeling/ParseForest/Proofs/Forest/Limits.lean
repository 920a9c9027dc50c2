import ParseForest.Proofs.Distances
import ParseForest.Proofs.Forest.Edges
import ParseForest.Proofs.Recognition

/-!
# Limits of spans

A table with a longest span takes part in a span when the shortest distance between its ends is
within the limit. An entry is matched over the span that it completes. An arc is taken while the
span is filled that ends one position after the arc begins, and the item that moves over it is put
where the arc ends: over an arc longer than one position, the limit is asked for at another span
than the one that the rule pair is applied to.
-/

namespace ParseForest

variable {V : Type}

theorem RuleTable.covers_iff {t : RuleTable V} {distance : Nat} :
    t.covers distance = true ↔ ∀ k, t.maxSpan = some k → distance ≤ k := by
  unfold covers
  cases t.maxSpan <;> simp

/-- The last step of a trail over a span is within the limit of the table, or it is an arc that is
longer than one position. -/
theorem Trail.Over.covers_or_arc {E : Type} {t : RuleTable V} {o : Options V} {lattice : Lattice V}
    {entries : (first last : Nat) → Set E} {first last : Nat} {x : Trail E}
    (h : x.Over t o lattice entries first last) (hlt : first < last) :
    t.covers (lattice.distanceTable.length first last) = true ∨
      ∃ y p k a, x = arc y p k ∧ (lattice.arcsAt p)[k]? = some a ∧ 1 < a.distance ∧
        last = p + a.distance ∧ t.covers (lattice.distanceTable.length first (p + 1)) = true := by
  cases x with
  | start => exact absurd h.1 (Nat.ne_of_gt hlt)
  | entry y p e => exact .inl h.2.2.2.2
  | arc y p k =>
    obtain ⟨-, hcovers, -, a, ha, rfl⟩ := h
    rcases Nat.lt_or_eq_of_le (Lattice.arc_bounds_of_getElem? ha).1 with hlong | hone
    · exact .inr ⟨y, p, k, a, rfl, ha, hlong, rfl, hcovers⟩
    · rw [← hone]
      exact .inl hcovers

variable [Scalar V] {g : Grammar V} {o : Options V} {lattice : Lattice V} {pruner : Pruner}

namespace ForestState

theorem exists_path_of_mem_cells {first last : Nat} {c : Constituent}
    (hc : c ∈ cells g o lattice pruner first last) : ∃ d, lattice.Path first last d := by
  obtain ⟨ledger, hran⟩ := exists_ledger g o lattice pruner
  -- the parts of a constituent have smaller nodes
  induction hn : c.node using Nat.strongRecOn generalizing first last c with
  | ind n ih =>
    subst hn
    obtain ⟨a, ha, hplace, hbelow⟩ := hran.exists_entry hc
    obtain ⟨t, -, hover, -⟩ := ha.fits
    rw [hplace] at hover
    exact hover.exists_path fun p q d hd =>
      ih d.node (hbelow d (Trail.mem_entries_of_mem_placed hd)) (hover.mem_placed hd).2.2.2 rfl

theorem Genuine.exists_path {a : Entry}
    (h : Genuine g o lattice pruner (listed (cells g o lattice pruner)) a) :
    ∃ d, lattice.Path a.place.first a.place.last d := by
  obtain ⟨t, -, hover, -⟩ := h.fits
  exact hover.exists_path fun p q d hd => exists_path_of_mem_cells (hover.mem_placed hd).2.2.2

end ForestState

open ForestState

namespace ForestParser

/-- The span of an edge is within the limit of the table of its rule, but for an edge whose match
ends with an arc that is longer than one position: there the limit holds for the span that ends
one position after the arc begins. -/
theorem shortestDistance_le_maxSpan (p : ForestParser V) (lattice : Lattice V) (pruner : Pruner)
    {e : Nat} (he : e < (p.parse lattice pruner).2.edges.size)
    (hgoal : ((p.parse lattice pruner).2.edge e).head ≠ (p.parse lattice pruner).2.goal) :
    ∃ a pair t,
      ((p.parse lattice pruner).2.edge e).MadeBy p.grammar p.options lattice pruner a pair ∧
        p.grammar[a.step.rule.table]? = some t ∧
        ∃ d, lattice.shortestDistance a.place.first a.place.last = some d ∧
          ∀ limit, t.maxSpan = some limit → d ≤ limit ∨
            ∃ x position k arc, a.step.parts = .arc x position k ∧
              (lattice.arcsAt position)[k]? = some arc ∧ 1 < arc.distance ∧
              a.place.last = position + arc.distance ∧
              lattice.distanceTable.length a.place.first (position + 1) ≤ limit := by
  rw [parse_eq_forest] at he hgoal ⊢
  obtain ⟨a, pair, hmade⟩ := exists_madeBy he hgoal
  obtain ⟨t, ht, hover, -⟩ := hmade.genuine.fits
  obtain ⟨_, hpath⟩ := hmade.genuine.exists_path
  obtain ⟨d, -, hd⟩ := hpath.exists_shortestDistance
  refine ⟨a, pair, t, hmade, ht, d, hd, fun limit hlimit => ?_⟩
  rcases hover.covers_or_arc hmade.genuine.span.1 with
    hcovers | ⟨x, position, k, arc, hparts, harc, hlong, hlast, hcovers⟩
  · have hle := RuleTable.covers_iff.mp hcovers limit hlimit
    rw [Lattice.DistanceTable.length,
      show lattice.distanceTable.get a.place.first a.place.last = some d from hd] at hle
    exact .inl hle
  · exact .inr ⟨x, position, k, arc, hparts, harc, hlong, hlast,
      RuleTable.covers_iff.mp hcovers limit hlimit⟩

/-- A span of two words is within a limit of two. -/
theorem shortestDistance_le_maxSpan_of_words :
    let p := ForestParser.new [(RuleTable.ofText "[S] ||| a b").withMaxSpan 2] Options.standard
    let lattice := Lattice.ofWords [⟨"a"⟩, ⟨"b"⟩]
    let graph := (p.parse lattice .none).2
    ∃ e : Nat, (e < graph.edges.size ∧ (graph.edge e).head ≠ graph.goal) ∧
      ∃ a pair t, (graph.edge e).MadeBy p.grammar p.options lattice .none a pair ∧
        p.grammar[a.step.rule.table]? = some t ∧
        ∃ d, lattice.shortestDistance a.place.first a.place.last = some d ∧
          ∀ limit, t.maxSpan = some limit → d ≤ limit ∨
            ∃ x position k arc, a.step.parts = .arc x position k ∧
              (lattice.arcsAt position)[k]? = some arc ∧ 1 < arc.distance ∧
              a.place.last = position + arc.distance ∧
              lattice.distanceTable.length a.place.first (position + 1) ≤ limit := by
  intro p lattice graph
  have hgraph : graph = forest p.grammar p.options lattice .none := parse_eq_forest p lattice .none
  have hgoal : ⟨0, ⟨"[S]"⟩, 0⟩ ∈ goalCells p.grammar p.options lattice .none := by decide +kernel
  have hedge : 0 ∈ ((run p.grammar p.options lattice .none).graph.node 0).edges := by
    decide +kernel
  obtain ⟨e, he, hhead, -⟩ := exists_copy hgoal hedge
  rw [← hgraph] at he hhead
  exact ⟨e, ⟨he, hhead⟩, shortestDistance_le_maxSpan p lattice .none he hhead⟩

/-- The arc from 1 to 3 is taken while the span from 0 to 2 is filled, which is within the limit by
the arc over it; the span of the edge is not. -/
theorem not_shortestDistance_le_maxSpan :
    let p := ForestParser.new [(RuleTable.ofText "[S] ||| a b").withMaxSpan 1] Options.standard
    let lattice : Lattice Float :=
      ⟨[[⟨⟨"a"⟩, 1, NameMap.empty⟩, ⟨⟨"c"⟩, 2, NameMap.empty⟩], [⟨⟨"b"⟩, 2, NameMap.empty⟩], []],
        by decide⟩
    let graph := (p.parse lattice .none).2
    ¬∀ e : Nat, e < graph.edges.size → (graph.edge e).head ≠ graph.goal →
      ∃ a pair t, (graph.edge e).MadeBy p.grammar p.options lattice .none a pair ∧
        p.grammar[a.step.rule.table]? = some t ∧
        ∃ d, lattice.shortestDistance a.place.first a.place.last = some d ∧
          ∀ limit, t.maxSpan = some limit → d ≤ limit := by
  intro p lattice graph h
  have hgraph : graph = forest p.grammar p.options lattice .none := parse_eq_forest p lattice .none
  have hgoal : ⟨0, ⟨"[S]"⟩, 0⟩ ∈ goalCells p.grammar p.options lattice .none := by decide +kernel
  have hedge : 0 ∈ ((run p.grammar p.options lattice .none).graph.node 0).edges := by
    decide +kernel
  have honly : ∀ i ≤ 3, ∀ j ≤ 3, cells p.grammar p.options lattice .none i j ≠ [] →
      i = 0 ∧ j = 3 := by decide +kernel
  have hlimit : ∀ t ∈ p.grammar, t.maxSpan = some 1 := by decide +kernel
  have hfar : lattice.shortestDistance 0 3 = some 2 := by decide +kernel
  obtain ⟨e, he, hhead, -⟩ := exists_copy hgoal hedge
  rw [← hgraph] at he hhead
  obtain ⟨a, pair, t, hmade, ht, d, hd, hle⟩ := h e he hhead
  obtain ⟨ledger, hran⟩ := exists_ledger p.grammar p.options lattice .none
  have hspan : a.place.first < a.place.last ∧ a.place.last ≤ 3 := hmade.genuine.span
  -- the constituents are all over the whole lattice, and so is the application
  obtain ⟨c, hc, -⟩ := hran.labels Nat.one_pos a hmade.genuine
    (Chart.mem_spansByLength.mpr hmade.genuine.span)
  obtain ⟨hfirst, hlast⟩ := honly _ (by omega) _ hspan.2 (List.ne_nil_of_mem hc)
  rw [hfirst, hlast, hfar] at hd
  cases hd
  exact absurd (hle 1 (hlimit t (List.mem_of_getElem? ht))) (by decide)

end ForestParser

end ParseForest
