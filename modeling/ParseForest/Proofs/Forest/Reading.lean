import ParseForest.Proofs.Derivation
import ParseForest.Proofs.Forest.Ledger
import ParseForest.Proofs.Forest.Tails
import ParseForest.Proofs.Hypergraph.Sorted

/-!
# Reading derivations off a forest

A tree of a forest shows a derivation when its edges carry what the steps of the derivation are
made of: the rule that the options ask for, the features of the rule pair and of the arcs that it
consumed, and the span. The trees below an edge show the parts, in the order of their indices.

Two edges may carry the same data, so this alone does not say which derivation a tree stands for.
The ledger does: `Stands` reads the derivation off the entries of the edges. A tree stands for one
derivation at most, and shows it. In a ledger without repetition that has one constituent for each
label of a span, a derivation has one tree at most that stands for it.
-/

namespace ParseForest

variable {V E : Type}

section Shows

variable [Scalar V]

def Trail.features (lattice : Lattice V) : Trail E → FeatureVector V
  | start => NameMap.empty
  | entry x _ _ => x.features lattice
  | arc x p k =>
    match (lattice.arcsAt p)[k]? with
    | some a => FeatureVector.plus (x.features lattice) a.features
    | none => x.features lattice

structure Edge.Shows (o : Options V) (lattice : Lattice V) (edge : Edge V) (pair : RulePair V)
    (d : Derivation) : Prop where
  rule : edge.rule = some (pair.side o.yieldSource)
  features : edge.features = FeatureVector.plus pair.features (d.parts.features lattice)
  attributes : edge.attributes =
    AttributeVector.overlay pair.attributes (spanAttributes d.place.first d.place.last)

inductive Hypergraph.Shows (g : Grammar V) (o : Options V) (lattice : Lattice V)
    (graph : Hypergraph V) : Tree → Derivation → Prop
  | node {e : EdgeId} {below : List Tree} {d : Derivation} {pair : RulePair V}
    (named : g.pair? d.rule = some pair) (edge : (graph.edge e).Shows o lattice pair d)
    (length : below.length = (orderTails pair.source d.parts.entries).length)
    (tails : ∀ p ∈ below.zip (orderTails pair.source d.parts.entries),
      Shows g o lattice graph p.1 p.2) :
    Shows g o lattice graph (.node e below) d

def Hypergraph.ShowsGoal (g : Grammar V) (o : Options V) (lattice : Lattice V)
    (graph : Hypergraph V) (x : Tree) (d : Derivation) : Prop :=
  ∃ e y, x = .node e [y] ∧ (graph.edge e).rule = some (ForestState.goalRule o) ∧
    (graph.edge e).features = NameMap.empty ∧
    (graph.edge e).attributes = spanAttributes 0 lattice.size ∧ graph.Shows g o lattice y d

theorem load_features (lattice : Lattice V) (x : Trail Constituent) :
    (x.load Match.carrier lattice).features = x.features lattice := by
  induction x with
  | start => rfl
  | entry x p c ih => exact ih
  | arc x p k ih =>
    rw [Trail.load, Trail.features, ← ih]
    cases (lattice.arcsAt p)[k]? <;> rfl

theorem Trail.Along.features_eq {E' : Type} {R : (first last : Nat) → E → E' → Prop} {last : Nat}
    {x : Trail E} {x' : Trail E'} (h : Along R last x x') (lattice : Lattice V) :
    x.features lattice = x'.features lattice := by
  induction h with
  | start => rfl
  | entry _ _ ih => exact ih
  | arc _ ih => rw [features, features, ih]

end Shows

/-- The tree stands for the derivation: each edge for the entry of its number, the trees below it
for the parts that the constituents of the entry are replaced by. -/
inductive Tree.Stands (g : Grammar V) (cells : Nat → Nat → List Constituent)
    (ledger : List Entry) : Tree → Derivation → Prop
  | node {e : EdgeId} {below : List Tree} {a : Entry} {pair : RulePair V} {parts : Trail Derivation}
    (entry : ledger[e]? = some a) (named : g.pair? a.step.rule = some pair)
    (along : Trail.Along (fun p q c d => c ∈ cells p q ∧ d.place = ⟨p, q, c.label⟩) a.place.last
      a.step.parts parts)
    (arity : parts.entries.length = pair.source.arity)
    (length : below.length = (orderTails pair.source parts.entries).length)
    (tails : ∀ p ∈ below.zip (orderTails pair.source parts.entries),
      Stands g cells ledger p.1 p.2) :
    Stands g cells ledger (.node e below) (.node a.place a.step.rule parts)

theorem eq_of_forall₂ {A B : Type} {R S : A → B → Prop} (hRS : ∀ a b b', R a b → S a b' → b = b')
    {as : List A} {bs bs' : List B} (h : List.Forall₂ R as bs) (k : List.Forall₂ S as bs') :
    bs = bs' := by
  induction h generalizing bs' with
  | nil =>
    cases k
    rfl
  | cons hab _ ih =>
    cases k with
    | cons hab' k => rw [hRS _ _ _ hab hab', ih k]

namespace Tree.Stands

variable {g : Grammar V} {cells : Nat → Nat → List Constituent} {ledger : List Entry}

theorem right_unique {x : Tree} {d d' : Derivation} (h : x.Stands g cells ledger d)
    (h' : x.Stands g cells ledger d') : d = d' := by
  induction h generalizing d' with
  | @node e below a pair parts entry named along arity length tails ih =>
    cases h' with
    | @node _ _ a' pair' parts' entry' named' along' arity' length' tails' =>
      rw [entry] at entry'
      cases entry'
      rw [named] at named'
      cases named'
      have hparts := List.forall₂_iff_zip.mpr ⟨length, fun {y d} hp =>
        fun d' (hd' : y.Stands g cells ledger d') => ih (y, d) hp hd'⟩
      have hparts' := List.forall₂_iff_zip.mpr ⟨length', fun {y d} hp => tails' (y, d) hp⟩
      have hordered := eq_of_forall₂ (fun _ _ _ hd hd' => hd _ hd') hparts hparts'
      have hentries := orderTails_inj (arity.trans arity'.symm) (Nat.le_of_eq arity) hordered
      rw [along.eq_of_entries along' hentries]

end Tree.Stands

theorem Recorded.edge_shows [Scalar V] {g : Grammar V} {o : Options V} {lattice : Lattice V}
    {cells : Nat → Nat → List Constituent} {graph : Hypergraph V} {ledger : List Entry}
    (h : Recorded g o lattice cells graph ledger) {e : Nat} {a : Entry}
    (entry : ledger[e]? = some a) {pair : RulePair V} (named : g.pair? a.step.rule = some pair)
    {R : (first last : Nat) → Constituent → Derivation → Prop} {parts : Trail Derivation}
    (along : Trail.Along R a.place.last a.step.parts parts) :
    (graph.edge e).Shows o lattice pair (.node a.place a.step.rule parts) := by
  obtain ⟨pair', c, named', -, -, -, hedge, -⟩ := h.edge e a entry
  rw [named] at named'
  cases named'
  refine ⟨?_, ?_, ?_⟩
  · rw [hedge]
    rfl
  · rw [hedge, edgeOf, load_features, along.features_eq]
    rfl
  · rw [hedge]
    rfl

namespace Hypergraph.SameEdges

variable [Scalar V] {graph copy : Hypergraph V} {back : EdgeId → EdgeId}
  (h : SameEdges graph copy back) {g : Grammar V} {o : Options V} {lattice : Lattice V}

include h

theorem shows {n : NodeId} {x : Tree} {d : Derivation} (hx : copy.Derives n x)
    (hshows : graph.Shows g o lattice (x.relabel back) d) : copy.Shows g o lattice x d := by
  induction hx generalizing d with
  | @node n e below listed length tails ih =>
    obtain ⟨hrule, hfeatures, hattributes⟩ := h n e listed
    rw [Tree.relabel] at hshows
    cases hshows with
    | @node _ _ _ pair named edge length' tails' =>
      rw [List.length_map] at length'
      refine Shows.node named ⟨?_, ?_, ?_⟩ length' fun p hp => ?_
      · rw [hrule, edge.rule]
      · rw [hfeatures, edge.features]
      · rw [hattributes, edge.attributes]
      · obtain ⟨t, ht⟩ := exists_mem_zip length (List.of_mem_zip hp).1
        refine ih (t, p.1) ht (tails' (p.1.relabel back, p.2) ?_)
        rw [List.zip_map_left, List.mem_map]
        exact ⟨p, hp, rfl⟩

theorem showsGoal {x : Tree} {d : Derivation} (hx : x ∈ copy.goalTrees)
    (hshows : graph.ShowsGoal g o lattice (x.relabel back) d) : copy.ShowsGoal g o lattice x d := by
  obtain ⟨n, -, hx⟩ := hx
  obtain ⟨e, below⟩ := x
  obtain ⟨he, hbelow⟩ := derives_node_iff.mp hx
  obtain ⟨e', y', heq, hrule, hfeatures, hattributes, hy'⟩ := hshows
  rw [Tree.relabel, Tree.node.injEq, List.map_eq_singleton_iff] at heq
  obtain ⟨rfl, y, rfl, rfl⟩ := heq
  obtain ⟨hrule', hfeatures', hattributes'⟩ := h n e he
  obtain ⟨t, -, hy, -, -⟩ := List.forall₂_cons_right_iff.mp hbelow
  exact ⟨e, y, rfl, hrule'.trans hrule, hfeatures'.trans hfeatures,
    hattributes'.trans hattributes, h.shows hy hy'⟩

end Hypergraph.SameEdges

end ParseForest
