import ParseForest.Forest.Parser
import ParseForest.Posterior.Parser
import ParseForest.Proofs.Hypergraph.Linked
import ParseForest.Proofs.Matched

/-!
# The ledger of a forest

Every edge of a forest stands for one application of a rule pair over constituents. The ledger
lists these applications in the order of the edges, and a recorded forest is one that can be read
off its ledger: each edge has the tails, the rule, the features and the attributes of its
application, its head is the constituent of the label and level that the application derives, and
each node is the node of one constituent of one span.

`Recorded.step` is the one lemma about adding an edge; everything that the parser does at a span
adds the edges of a list of applications.
-/

namespace ParseForest

variable {V : Type}

def Trail.level : Trail Constituent → Nat
  | .entry .start _ c => c.level + 1
  | _ => 0

/-- What an edge of a forest stands for: a label over a span, and the application that derives
it. -/
structure Entry where
  place : SpanLabel
  step : Application Constituent
  deriving DecidableEq

def cellsWith (cells : Nat → Nat → List Constituent) (first last : Nat) (found : List Constituent)
    (i j : Nat) : List Constituent :=
  if i = first ∧ j = last then found else cells i j

theorem cellsWith_self (cells : Nat → Nat → List Constituent) (first last : Nat)
    (found : List Constituent) : cellsWith cells first last found first last = found := by
  simp [cellsWith]

theorem cellsWith_other (cells : Nat → Nat → List Constituent) {first last i j : Nat}
    (found : List Constituent) (h : ¬(i = first ∧ j = last)) :
    cellsWith cells first last found i j = cells i j := by
  rw [cellsWith, if_neg h]

theorem cellsWith_eq_self {cells : Nat → Nat → List Constituent} {first last : Nat}
    {found : List Constituent} (h : cells first last = found) :
    cellsWith cells first last found = cells := by
  funext i j
  by_cases hij : i = first ∧ j = last
  · obtain ⟨rfl, rfl⟩ := hij
    rw [cellsWith_self, h]
  · exact cellsWith_other _ _ hij

theorem cellsWith_cellsWith (cells : Nat → Nat → List Constituent) (first last : Nat)
    (found found' : List Constituent) :
    cellsWith (cellsWith cells first last found) first last found' =
      cellsWith cells first last found' := by
  funext i j
  by_cases hij : i = first ∧ j = last
  · rw [cellsWith, if_pos hij, cellsWith, if_pos hij]
  · rw [cellsWith_other _ _ hij, cellsWith_other _ _ hij, cellsWith_other _ _ hij]

theorem mem_cellsWith_append {cells : Nat → Nat → List Constituent} {first last i j : Nat}
    {c d : Constituent} : d ∈ cellsWith cells first last (cells first last ++ [c]) i j ↔
      d ∈ cells i j ∨ i = first ∧ j = last ∧ d = c := by
  by_cases hij : i = first ∧ j = last
  · obtain ⟨rfl, rfl⟩ := hij
    simp [cellsWith_self]
  · rw [cellsWith_other _ _ hij, or_iff_left fun h => hij ⟨h.1, h.2.1⟩]

variable [Scalar V]

def edgeOf (o : Options V) (lattice : Lattice V) (e : EdgeId) (head : NodeId) (pair : RulePair V)
    (a : Entry) : Edge V :=
  let used := a.step.parts.load Match.carrier lattice
  { id := e
    head := some head
    tails := orderTails pair.source used.tails
    rule := some (pair.side o.yieldSource)
    features := FeatureVector.plus pair.features used.features
    attributes := AttributeVector.overlay pair.attributes
      (spanAttributes a.place.first a.place.last) }

/-- A forest over the constituents `cells` can be read off its ledger. -/
structure Recorded (g : Grammar V) (o : Options V) (lattice : Lattice V)
    (cells : Nat → Nat → List Constituent) (graph : Hypergraph V) (ledger : List Entry) :
    Prop where
  linked : graph.Linked
  size : graph.edges.size = ledger.length
  edge : ∀ (e : Nat) (a : Entry), ledger[e]? = some a → ∃ pair c,
    g.pair? a.step.rule = some pair ∧ c ∈ cells a.place.first a.place.last ∧
      c.label = a.place.label ∧ c.level = a.step.parts.level ∧
      graph.edge e = edgeOf o lattice e c.node pair a ∧
      ∀ d ∈ a.step.parts.entries, d.node < c.node
  bound : ∀ i j, ∀ c ∈ cells i j, c.node < graph.nodes.size
  known : ∀ n : Nat, n < graph.nodes.size → ∃ i j, ∃ c ∈ cells i j, c.node = n
  once : ∀ i j i' j' c c', c ∈ cells i j → c' ∈ cells i' j' → c.node = c'.node →
    i = i' ∧ j = j' ∧ c = c'
  distinct : ∀ i j c c', c ∈ cells i j → c' ∈ cells i j → c.label = c'.label →
    c.level = c'.level → c = c'

namespace Recorded

variable {g : Grammar V} {o : Options V} {lattice : Lattice V}
  {cells : Nat → Nat → List Constituent} {graph : Hypergraph V} {ledger : List Entry}

theorem congr {cells' : Nat → Nat → List Constituent}
    (h : Recorded g o lattice cells graph ledger)
    (hcells : ∀ i j c, c ∈ cells i j ↔ c ∈ cells' i j) :
    Recorded g o lattice cells' graph ledger := by
  refine ⟨h.linked, h.size, fun e a ha => ?_, fun i j c hc => h.bound i j c ((hcells i j c).mpr hc),
    fun n hn => ?_, fun i j i' j' c c' hc hc' => ?_, fun i j c c' hc hc' => ?_⟩
  · obtain ⟨pair, c, hp, hc, hrest⟩ := h.edge e a ha
    exact ⟨pair, c, hp, (hcells _ _ c).mp hc, hrest⟩
  · obtain ⟨i, j, c, hc, hn⟩ := h.known n hn
    exact ⟨i, j, c, (hcells i j c).mp hc, hn⟩
  · exact h.once i j i' j' c c' ((hcells _ _ c).mpr hc) ((hcells _ _ c').mpr hc')
  · exact h.distinct i j c c' ((hcells _ _ c).mpr hc) ((hcells _ _ c').mpr hc')

theorem head_lt (h : Recorded g o lattice cells graph ledger) (e : Nat) (he : e < graph.edges.size)
    (n : Nat) (hn : (graph.edge e).head = some n) : n < graph.nodes.size := by
  rw [h.size] at he
  obtain ⟨pair, c, -, hc, -, -, hedge, -⟩ := h.edge e _ (List.getElem?_eq_getElem he)
  rw [hedge] at hn
  cases hn
  exact h.bound _ _ c hc

theorem addNode (h : Recorded g o lattice cells graph ledger) (first last : Nat) (c : Constituent)
    (hnode : c.node = graph.nodes.size)
    (hnew : ∀ d ∈ cells first last, ¬(d.label = c.label ∧ d.level = c.level)) :
    Recorded g o lattice (cellsWith cells first last (cells first last ++ [c])) graph.addNode
      ledger := by
  have hfresh : ∀ i j, ∀ d ∈ cells i j, d.node ≠ c.node := by
    intro i j d hd heq
    have := h.bound i j d hd
    rw [heq, hnode] at this
    exact Nat.lt_irrefl _ this
  have hold : ∀ i j d, d ∈ cells i j →
      d ∈ cellsWith cells first last (cells first last ++ [c]) i j :=
    fun i j d hd => mem_cellsWith_append.mpr (Or.inl hd)
  refine ⟨h.linked.addNode h.head_lt, h.size, fun e a ha => ?_, fun i j d hd => ?_,
    fun n hn => ?_, fun i j i' j' d d' hd hd' heq => ?_, fun i j d d' hd hd' hl hv => ?_⟩
  · obtain ⟨pair, d, hp, hd, hrest⟩ := h.edge e a ha
    exact ⟨pair, d, hp, hold _ _ d hd, hrest⟩
  · rw [Hypergraph.size_nodes_addNode]
    rcases mem_cellsWith_append.mp hd with hd | ⟨-, -, rfl⟩
    · exact Nat.lt_succ_of_lt (h.bound i j d hd)
    · rw [hnode]
      exact Nat.lt_succ_self _
  · rw [Hypergraph.size_nodes_addNode] at hn
    rcases Nat.lt_succ_iff_lt_or_eq.mp hn with hn | rfl
    · obtain ⟨i, j, d, hd, hn⟩ := h.known n hn
      exact ⟨i, j, d, hold i j d hd, hn⟩
    · exact ⟨first, last, c, mem_cellsWith_append.mpr (Or.inr ⟨rfl, rfl, rfl⟩), hnode⟩
  · rcases mem_cellsWith_append.mp hd with hdo | ⟨hi, hj, hdc⟩
    · rcases mem_cellsWith_append.mp hd' with hdo' | ⟨-, -, hdc'⟩
      · exact h.once i j i' j' d d' hdo hdo' heq
      · exact absurd (hdc' ▸ heq) (hfresh i j d hdo)
    · rcases mem_cellsWith_append.mp hd' with hdo' | ⟨hi', hj', hdc'⟩
      · exact absurd (hdc ▸ heq).symm (hfresh i' j' d' hdo')
      · exact ⟨hi.trans hi'.symm, hj.trans hj'.symm, hdc.trans hdc'.symm⟩
  · rcases mem_cellsWith_append.mp hd with hdo | ⟨hi, hj, hdc⟩
    · rcases mem_cellsWith_append.mp hd' with hdo' | ⟨hi, hj, hdc'⟩
      · exact h.distinct i j d d' hdo hdo' hl hv
      · rw [hi, hj] at hdo
        rw [hdc'] at hl hv
        exact absurd ⟨hl, hv⟩ (hnew d hdo)
    · rcases mem_cellsWith_append.mp hd' with hdo' | ⟨-, -, hdc'⟩
      · rw [hi, hj] at hdo'
        rw [hdc] at hl hv
        exact absurd ⟨hl.symm, hv.symm⟩ (hnew d' hdo')
      · exact hdc.trans hdc'.symm

/-- An application adds an edge to the constituent that it derives. -/
theorem extend (h : Recorded g o lattice cells graph ledger) {a : Entry} {pair : RulePair V}
    (hp : g.pair? a.step.rule = some pair) {c : Constituent}
    (hc : c ∈ cells a.place.first a.place.last) (hlabel : c.label = a.place.label)
    (hlevel : c.level = a.step.parts.level)
    (hbelow : ∀ d ∈ a.step.parts.entries, d.node < c.node) :
    let used := a.step.parts.load Match.carrier lattice
    Recorded g o lattice cells
      (graph.extend c.node (orderTails pair.source used.tails) (some (pair.side o.yieldSource))
        (FeatureVector.plus pair.features used.features)
        (AttributeVector.overlay pair.attributes (spanAttributes a.place.first a.place.last)))
      (ledger ++ [a]) := by
  intro used
  refine ⟨h.linked.extend (h.bound _ _ c hc) _ _ _ _, ?_, fun e b hb => ?_, fun i j d hd => ?_,
    fun n hn => ?_, h.once, h.distinct⟩
  · rw [Hypergraph.size_edges_extend, h.size, List.length_append, List.length_singleton]
  · rw [Hypergraph.edge_extend, h.size]
    split
    · rename_i heq
      subst heq
      rw [List.getElem?_concat_length] at hb
      cases hb
      exact ⟨pair, c, hp, hc, hlabel, hlevel, rfl, hbelow⟩
    · rename_i hne
      have hlt := (List.getElem?_eq_some_iff.mp hb).1
      rw [List.length_append, List.length_singleton] at hlt
      rw [List.getElem?_append_left (by omega)] at hb
      exact h.edge e b hb
  · rw [Hypergraph.size_nodes_extend]
    exact h.bound i j d hd
  · rw [Hypergraph.size_nodes_extend] at hn
    exact h.known n hn

end Recorded

theorem recorded_empty (g : Grammar V) (o : Options V) (lattice : Lattice V) :
    Recorded g o lattice (fun _ _ => []) Hypergraph.empty [] := by
  refine ⟨Hypergraph.linked_empty, rfl, ?_, ?_, ?_, ?_, ?_⟩
  · intro e a ha
    cases ha
  · intro i j c hc
    cases hc
  · intro n hn
    exact absurd hn (Nat.not_lt_zero n)
  · intro i j i' j' c c' hc
    cases hc
  · intro i j c c' hc
    cases hc

namespace SpanBuild

omit [Scalar V] in
theorem find?_eq_none_iff {b : SpanBuild V} {label : Symbol} {level : Nat} :
    b.find? label level = none ↔ ∀ c ∈ b.found, ¬(c.label = label ∧ c.level = level) := by
  simp only [find?, List.find?_eq_none, Bool.and_eq_true, beq_iff_eq]

omit [Scalar V] in
theorem of_find?_eq_some {b : SpanBuild V} {label : Symbol} {level : Nat} {c : Constituent}
    (h : b.find? label level = some c) : c ∈ b.found ∧ c.label = label ∧ c.level = level := by
  refine ⟨List.mem_of_find?_eq_some h, ?_⟩
  have hc := List.find?_some h
  rw [Bool.and_eq_true, beq_iff_eq, beq_iff_eq] at hc
  exact hc

def applyNamed (g : Grammar V) (lattice : Lattice V) (site : Site V) (b : SpanBuild V)
    (a : Application Constituent) : SpanBuild V :=
  match a.result? Match.carrier g lattice with
  | none => b
  | some (pair, used) => b.apply site a.parts.level pair used

end SpanBuild

def Application.entry? (g : Grammar V) (site : Site V) (a : Application Constituent) :
    Option Entry :=
  (g.pair? a.rule).bind fun pair =>
    if site.skips (site.ruleOf pair).lhs then none
    else some ⟨⟨site.first, site.last, (site.ruleOf pair).lhs⟩, a⟩

end ParseForest
