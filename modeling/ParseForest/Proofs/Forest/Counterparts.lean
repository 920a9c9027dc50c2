import ParseForest.Proofs.Forest.Graph
import ParseForest.Proofs.Forest.Reading
import ParseForest.Proofs.Hypergraph.Isomorphic

/-!
# Counterparts in two forests

Two runs over a lattice may have different grammars and different pruners. A relation pairs
constituents of the one with constituents of the other that have the same label at the same level,
another one pairs the names of equal rule pairs. When every entry for a paired constituent has a
counterpart, which applies the paired rule pair to paired constituents, the graphs of the two runs
are matched, and their forests differ in their numbers only.
-/

namespace ParseForest

variable {V : Type}

theorem level_eq {R : (first last : Nat) → Constituent → Constituent → Prop}
    (hR : ∀ p q c c', R p q c c' → c.level = c'.level) {last : Nat} {x x' : Trail Constituent}
    (h : Trail.Along R last x x') : x.level = x'.level := by
  cases h with
  | start => rfl
  | arc _ => rfl
  | entry before step =>
    cases before with
    | start => rw [Trail.level, Trail.level, hR _ _ _ _ step]
    | entry _ _ => rfl
    | arc _ => rfl

namespace ForestState

structure Counterpart (R : RuleName → RuleName → Prop)
    (C : (first last : Nat) → Constituent → Constituent → Prop) (a a' : Entry) : Prop where
  place : a.place = a'.place
  rule : R a.step.rule a'.step.rule
  parts : Trail.Along C a.place.last a.step.parts a'.step.parts

theorem Counterpart.symm {R : RuleName → RuleName → Prop}
    {C : (first last : Nat) → Constituent → Constituent → Prop} {a a' : Entry}
    (h : Counterpart R C a a') :
    Counterpart (Function.swap R) (fun i j => Function.swap (C i j)) a' a :=
  ⟨h.place.symm, h.rule, h.place ▸ h.parts.flip⟩

variable [Scalar V]

section

variable (g g' : Grammar V) (o : Options V) (lattice : Lattice V) (pruner pruner' : Pruner)
  (ledger ledger' : List Entry) (R : RuleName → RuleName → Prop)
  (C : (first last : Nat) → Constituent → Constituent → Prop)

structure SameCell (i j : Nat) (c c' : Constituent) : Prop where
  left : c ∈ cells g o lattice pruner i j
  right : c' ∈ cells g' o lattice pruner' i j
  label : c.label = c'.label
  level : c.level = c'.level

/-- Pairs of constituents and of names of rule pairs, with counterparts for entries and goals. -/
structure Paired : Prop where
  rules : Relator.BiUnique R
  pair : ∀ r r', R r r' → g.pair? r = g'.pair? r'
  sameCell : ∀ {i j c c'}, C i j c c' → SameCell g g' o lattice pruner pruner' i j c c'
  forth : ∀ i j c c', C i j c c' → ∀ a ∈ ledger, a.place = ⟨i, j, c.label⟩ →
    ∃ a' ∈ ledger', Counterpart R C a a'
  back : ∀ i j c c', C i j c c' → ∀ a' ∈ ledger', a'.place = ⟨i, j, c'.label⟩ →
    ∃ a ∈ ledger, Counterpart R C a a'
  goals : ∀ c ∈ goalCells g o lattice pruner, ∃ c', C 0 lattice.size c c'
  goals' : ∀ c' ∈ goalCells g' o lattice pruner', ∃ c, C 0 lattice.size c c'

def SameNode (n m : NodeId) : Prop :=
  (n = (run g o lattice pruner).graph.nodes.size ∧
    m = (run g' o lattice pruner').graph.nodes.size) ∨
    ∃ i j c c', C i j c c' ∧ n = c.node ∧ m = c'.node

def SameEdge (e f : EdgeId) : Prop :=
  (∃ a a', ledger[e]? = some a ∧ ledger'[f]? = some a' ∧ Counterpart R C a a') ∨
  ∃ (k l : Nat) (c c' : Constituent), (goalCells g o lattice pruner)[k]? = some c ∧
    (goalCells g' o lattice pruner')[l]? = some c' ∧ C 0 lattice.size c c' ∧
    e = (run g o lattice pruner).graph.edges.size + k ∧
    f = (run g' o lattice pruner').graph.edges.size + l

end

variable {g g' : Grammar V} {o : Options V} {lattice : Lattice V} {pruner pruner' : Pruner}
  {ledger ledger' : List Entry} {R : RuleName → RuleName → Prop}
  {C : (first last : Nat) → Constituent → Constituent → Prop}

theorem SameCell.symm {i j : Nat} {c c' : Constituent}
    (h : SameCell g g' o lattice pruner pruner' i j c c') :
    SameCell g' g o lattice pruner' pruner i j c' c :=
  ⟨h.right, h.left, h.label.symm, h.level.symm⟩

theorem SameCell.right_unique {i j i' j' : Nat} {c c' d d' : Constituent}
    (h : Finished g o lattice pruner ledger) (h' : Finished g' o lattice pruner' ledger')
    (hc : SameCell g g' o lattice pruner pruner' i j c c')
    (hd : SameCell g g' o lattice pruner pruner' i' j' d d') (heq : c.node = d.node) : c' = d' := by
  obtain ⟨rfl, rfl, rfl⟩ := h.recorded.once i j i' j' c d hc.left hd.left heq
  exact h'.recorded.distinct i j c' d' hc.right hd.right (hc.label.symm.trans hd.label)
    (hc.level.symm.trans hd.level)

theorem SameNode.symm {n m : NodeId} (h : SameNode g g' o lattice pruner pruner' C n m) :
    SameNode g' g o lattice pruner' pruner (fun i j => Function.swap (C i j)) m n :=
  h.imp And.symm fun ⟨i, j, c, c', hc, hn, hm⟩ => ⟨i, j, c', c, hc, hm, hn⟩

theorem SameEdge.symm {e f : EdgeId}
    (h : SameEdge g g' o lattice pruner pruner' ledger ledger' R C e f) :
    SameEdge g' g o lattice pruner' pruner ledger' ledger (Function.swap R)
      (fun i j => Function.swap (C i j)) f e := by
  refine h.imp (fun ⟨a, a', ha, ha', hsame⟩ => ⟨a', a, ha', ha, hsame.symm⟩) ?_
  rintro ⟨k, l, c, c', hk, hl, hc, he, hf⟩
  exact ⟨l, k, c', c, hl, hk, hc, hf, he⟩

theorem Finished.edge_eq (h : Finished g o lattice pruner ledger) {e : Nat} {a : Entry}
    (ha : ledger[e]? = some a) :
    ∃ (pair : RulePair V) (c : Constituent), g.pair? a.step.rule = some pair ∧
      (goalGraph g o lattice pruner).edge e = edgeOf o lattice e c.node pair a := by
  obtain ⟨pair, c, hpair, -, -, -, hedge, -⟩ := h.recorded.edge e a ha
  refine ⟨pair, c, hpair, (h.topped.old e ?_).trans hedge⟩
  rw [h.recorded.size]
  exact (List.getElem?_eq_some_iff.mp ha).1

namespace Paired

variable (hp : Paired g g' o lattice pruner pruner' ledger ledger' R C)
include hp

theorem symm : Paired g' g o lattice pruner' pruner ledger' ledger (Function.swap R)
    (fun i j => Function.swap (C i j)) where
  rules := ⟨fun _ _ _ hac hbc => hp.rules.2 hac hbc, fun _ _ _ hab hac => hp.rules.1 hab hac⟩
  pair r r' hr := (hp.pair r' r hr).symm
  sameCell hc := (hp.sameCell hc).symm
  forth i j c c' hc a ha hplace := by
    obtain ⟨a', ha', hsame⟩ := hp.back i j c' c hc a ha hplace
    exact ⟨a', ha', hsame.symm⟩
  back i j c c' hc a ha hplace := by
    obtain ⟨a', ha', hsame⟩ := hp.forth i j c' c hc a ha hplace
    exact ⟨a', ha', hsame.symm⟩
  goals := hp.goals'
  goals' := hp.goals

theorem mem_goalCells_right {c c' : Constituent} (hc : C 0 lattice.size c c')
    (hgoal : c ∈ goalCells g o lattice pruner) : c' ∈ goalCells g' o lattice pruner' :=
  mem_goalCells.mpr ⟨(hp.sameCell hc).right,
    (hp.sameCell hc).label.symm.trans (mem_goalCells.mp hgoal).2⟩

theorem exists_cell_of_sameNode
    (h : Ran g o lattice pruner (Chart.spansByLength lattice.size) (run g o lattice pruner) ledger)
    {n m : NodeId} (hnm : SameNode g g' o lattice pruner pruner' C n m) {i j : Nat}
    {c : Constituent} (hc : c ∈ cells g o lattice pruner i j) (hn : n = c.node) :
    ∃ c' ∈ cells g' o lattice pruner' i j, c'.label = c.label ∧ c'.level = c.level ∧
      m = c'.node := by
  rcases hnm with ⟨hgoal, -⟩ | ⟨i', j', d, d', hd, hdn, rfl⟩
  · exact absurd (hn.symm.trans hgoal) (Nat.ne_of_lt (h.recorded.bound i j c hc))
  · obtain ⟨hleft, hright, hlabel, hlevel⟩ := hp.sameCell hd
    obtain ⟨rfl, rfl, rfl⟩ := h.recorded.once i j i' j' c d hc hleft (hn.symm.trans hdn)
    exact ⟨d', hright, hlabel.symm, hlevel.symm, rfl⟩

section Unique

variable (h : Finished g o lattice pruner ledger) (h' : Finished g' o lattice pruner' ledger')
include h h'

theorem node_unique {n m m' : NodeId} (hm : SameNode g g' o lattice pruner pruner' C n m)
    (hm' : SameNode g g' o lattice pruner pruner' C n m') : m = m' := by
  rcases hm with ⟨hn, rfl⟩ | ⟨i, j, c, c', hc, hn, rfl⟩
  · rcases hm' with ⟨-, rfl⟩ | ⟨i, j, c, c', hc, rfl, rfl⟩
    · rfl
    · exact absurd hn (Nat.ne_of_lt (h.recorded.bound i j c (hp.sameCell hc).left))
  · rcases hm' with ⟨rfl, -⟩ | ⟨i', j', d, d', hd, rfl, rfl⟩
    · exact absurd hn (Nat.ne_of_gt (h.recorded.bound i j c (hp.sameCell hc).left))
    · rw [(hp.sameCell hc).right_unique h h' (hp.sameCell hd) hn.symm]

theorem entry_unique {a a' a'' : Entry} (ha' : Counterpart R C a a')
    (ha'' : Counterpart R C a a'') : a' = a'' := by
  obtain ⟨place', ⟨rule', parts'⟩⟩ := a'
  obtain ⟨place'', ⟨rule'', parts''⟩⟩ := a''
  obtain rfl := ha'.place.symm.trans ha''.place
  obtain rfl := hp.rules.2 ha'.rule ha''.rule
  have hC : ∀ p q c c' c'', C p q c c' → C p q c c'' → c' = c'' := fun p q c c' c'' hc hc' =>
    (hp.sameCell hc).right_unique h h' (hp.sameCell hc') rfl
  obtain rfl : parts' = parts'' := ha'.parts.right_unique hC ha''.parts
  rfl

theorem edge_unique {e f f' : EdgeId}
    (hf : SameEdge g g' o lattice pruner pruner' ledger ledger' R C e f)
    (hf' : SameEdge g g' o lattice pruner pruner' ledger ledger' R C e f') : f = f' := by
  have hbound : ∀ {e : Nat} {a : Entry}, ledger[e]? = some a →
      e < (run g o lattice pruner).graph.edges.size := fun ha => by
    rw [h.recorded.size]
    exact (List.getElem?_eq_some_iff.mp ha).1
  rcases hf with ⟨a, a', ha, ha', hsame⟩ | ⟨k, l, c, c', hk, hl, hc, he, rfl⟩
  · rcases hf' with ⟨b, b', hb, hb', hsame'⟩ | ⟨k, l, c, c', -, -, -, rfl, -⟩
    · obtain rfl := Option.some.inj (ha.symm.trans hb)
      obtain rfl := hp.entry_unique h h' hsame hsame'
      exact (List.getElem?_inj (List.getElem?_eq_some_iff.mp ha').1 h'.ran.nodup).mp
        (ha'.trans hb'.symm)
    · exact absurd (hbound ha) (by omega)
  · rcases hf' with ⟨b, b', hb, -, -⟩ | ⟨k', l', d, d', hk', hl', hd, he', rfl⟩
    · exact absurd (hbound hb) (by subst he; omega)
    · obtain rfl : k = k' := Nat.add_left_cancel (he.symm.trans he')
      obtain rfl := Option.some.inj (hk.symm.trans hk')
      have heq := (hp.sameCell hc).right_unique h h' (hp.sameCell hd) rfl
      have hnd : (goalCells g' o lattice pruner').Nodup := (nodup_cells 0 lattice.size).filter _
      rw [(List.getElem?_inj (List.getElem?_eq_some_iff.mp hl).1 hnd).mp
        (hl.trans ((congrArg some heq).trans hl'.symm))]

end Unique

variable (h : Finished g o lattice pruner ledger) (h' : Finished g' o lattice pruner' ledger')
include h h'

theorem tails {e f : EdgeId}
    (hef : SameEdge g g' o lattice pruner pruner' ledger ledger' R C e f) :
    List.Forall₂ (SameNode g g' o lattice pruner pruner' C)
      ((goalGraph g o lattice pruner).edge e).tails
      ((goalGraph g' o lattice pruner').edge f).tails := by
  rcases hef with ⟨a, a', ha, ha', hsame⟩ | ⟨k, l, c, c', hk, hl, hc, rfl, rfl⟩
  · obtain ⟨pair, c, hpair, hedge⟩ := h.edge_eq ha
    obtain ⟨pair', c', hpair', hedge'⟩ := h'.edge_eq ha'
    rw [← hp.pair _ _ hsame.rule, hpair] at hpair'
    obtain rfl := Option.some.inj hpair'
    rw [hedge, hedge', edgeOf, edgeOf, load_tails, load_tails]
    refine forall₂_orderTails ?_
    rw [List.forall₂_map_left_iff, List.forall₂_map_right_iff]
    refine hsame.parts.forall₂_entries.imp fun d d' hd => ?_
    obtain ⟨p, q, hd⟩ := hd
    exact Or.inr ⟨p, q, d, d', hd, rfl, rfl⟩
  · rw [h.topped.new k c hk, h'.topped.new l c' hl]
    exact .cons (Or.inr ⟨0, lattice.size, c, c', hc, rfl, rfl⟩) .nil

theorem same {e f : EdgeId}
    (hef : SameEdge g g' o lattice pruner pruner' ledger ledger' R C e f) :
    ((goalGraph g o lattice pruner).edge e).rule = ((goalGraph g' o lattice pruner').edge f).rule ∧
      ((goalGraph g o lattice pruner).edge e).features =
        ((goalGraph g' o lattice pruner').edge f).features ∧
      ((goalGraph g o lattice pruner).edge e).attributes =
        ((goalGraph g' o lattice pruner').edge f).attributes := by
  rcases hef with ⟨a, a', ha, ha', hsame⟩ | ⟨k, l, c, c', hk, hl, hc, rfl, rfl⟩
  · obtain ⟨pair, c, hpair, hedge⟩ := h.edge_eq ha
    obtain ⟨pair', c', hpair', hedge'⟩ := h'.edge_eq ha'
    rw [← hp.pair _ _ hsame.rule, hpair] at hpair'
    obtain rfl := Option.some.inj hpair'
    rw [hedge, hedge', edgeOf, edgeOf, load_features, load_features, hsame.parts.features_eq,
      hsame.place]
    exact ⟨rfl, rfl, rfl⟩
  · rw [h.topped.new k c hk, h'.topped.new l c' hl]
    exact ⟨rfl, rfl, rfl⟩

theorem exists_edge {n m : NodeId} (hnm : SameNode g g' o lattice pruner pruner' C n m)
    {e : EdgeId} (he : e ∈ ((goalGraph g o lattice pruner).node n).edges) :
    ∃ f ∈ ((goalGraph g' o lattice pruner').node m).edges,
      SameEdge g g' o lattice pruner pruner' ledger ledger' R C e f := by
  rcases hnm with ⟨rfl, rfl⟩ | ⟨i, j, c, c', hc, rfl, rfl⟩
  · obtain ⟨k, c, hk, rfl⟩ := (h.topped.mem_edges_goal h.recorded).mp he
    obtain ⟨c', hc⟩ := hp.goals c (List.mem_of_getElem? hk)
    obtain ⟨l, hl⟩ := List.getElem?_of_mem (hp.mem_goalCells_right hc (List.mem_of_getElem? hk))
    exact ⟨_, (h'.topped.mem_edges_goal h'.recorded).mpr ⟨l, c', hl, rfl⟩,
      Or.inr ⟨k, l, c, c', hk, hl, hc, rfl, rfl⟩⟩
  · obtain ⟨hleft, hright, hsame, hup⟩ := hp.sameCell hc
    have he := (h.topped.mem_edges_old h.recorded (h.recorded.bound i j c hleft)).mp he
    obtain ⟨a, pair, d, ha, -, hd, hlabel, hlevel, -, -, hnode⟩ := h.recorded.of_mem_edges he
    obtain ⟨hi, hj, rfl⟩ := h.recorded.once _ _ i j d c hd hleft hnode
    have hplace : a.place = ⟨i, j, d.label⟩ := by rw [← hi, ← hj, hlabel]
    obtain ⟨a', ha', haa⟩ := hp.forth i j d c' hc a (List.mem_of_getElem? ha) hplace
    obtain ⟨f, hf⟩ := List.getElem?_of_mem ha'
    have hplace' : a'.place = ⟨i, j, d.label⟩ := haa.place.symm.trans hplace
    refine ⟨f, (h'.topped.mem_edges_old h'.recorded (h'.recorded.bound i j c' hright)).mpr
      (h'.recorded.mem_edges hf ?_ ?_ ?_), Or.inl ⟨a, a', ha, hf, haa⟩⟩
    · rw [hplace']
      exact hright
    · rw [hplace', hsame]
    · rw [← hup, hlevel]
      exact level_eq (fun p q d d' hd => (hp.sameCell hd).level) haa.parts

theorem matching_goalGraph : Hypergraph.Matching (goalGraph g o lattice pruner)
    (goalGraph g' o lattice pruner') (SameNode g g' o lattice pruner pruner' C)
    (SameEdge g g' o lattice pruner pruner' ledger ledger' R C) where
  nodes := ⟨fun _ _ _ hac hbc => hp.symm.node_unique h' h hac.symm hbc.symm,
    fun _ _ _ hab hac => hp.node_unique h h' hab hac⟩
  edges := ⟨fun _ _ _ hac hbc => hp.symm.edge_unique h' h hac.symm hbc.symm,
    fun _ _ _ hab hac => hp.edge_unique h h' hab hac⟩
  goal n m hn hm := by
    rw [h.root] at hn
    rw [h'.root] at hm
    exact Or.inl ⟨(Option.some.inj hn).symm, (Option.some.inj hm).symm⟩
  forth hnm _ he := hp.exists_edge h h' hnm he
  back hnm _ hf := by
    obtain ⟨e, he, hfe⟩ := hp.symm.exists_edge h' h hnm.symm hf
    exact ⟨e, he, hfe.symm⟩
  tails hef := hp.tails h h' hef
  same hef := hp.same h h' hef

end Paired

/-- The forests of paired runs differ in their numbers only, and paired constituents have copies
that correspond to each other. -/
theorem Paired.exists_renaming
    (hp : Paired g g' o lattice pruner pruner' ledger ledger' R C)
    (h : Ran g o lattice pruner (Chart.spansByLength lattice.size) (run g o lattice pruner) ledger)
    (h' : Ran g' o lattice pruner' (Chart.spansByLength lattice.size) (run g' o lattice pruner')
      ledger') :
    ∃ nodeOf edgeOf,
      Hypergraph.PartOf (forest g' o lattice pruner') (forest g o lattice pruner) nodeOf edgeOf ∧
      Set.BijOn nodeOf {n : Nat | n < (forest g o lattice pruner).nodes.size}
        {n : Nat | n < (forest g' o lattice pruner').nodes.size} ∧
      Set.BijOn edgeOf {e : Nat | e < (forest g o lattice pruner).edges.size}
        {e : Nat | e < (forest g' o lattice pruner').edges.size} ∧
      ∀ i : Nat, i < (forest g o lattice pruner).nodes.size →
        ∃ n m, (goalGraph g o lattice pruner).origin? i = some n ∧
          (goalGraph g' o lattice pruner').origin? (nodeOf i) = some m ∧
            SameNode g g' o lattice pruner pruner' C n m := by
  cases hnil : goalCells g o lattice pruner with
  | nil =>
    have hnil' : goalCells g' o lattice pruner' = [] :=
      List.eq_nil_iff_forall_not_mem.mpr fun c' hc' => by
        obtain ⟨c, hc⟩ := hp.goals' c' hc'
        exact List.not_mem_nil (hnil ▸ hp.symm.mem_goalCells_right hc hc')
    rw [forest_of_nil hnil, forest_of_nil hnil']
    exact ⟨id, id, Hypergraph.partOf_refl _, Set.bijOn_id _, Set.bijOn_id _,
      fun i hi => absurd hi (Nat.not_lt_zero i)⟩
  | cons c rest =>
    have hc : c ∈ goalCells g o lattice pruner := hnil ▸ List.mem_cons_self
    obtain ⟨c', hcc⟩ := hp.goals c hc
    have hc' := hp.mem_goalCells_right hcc hc
    have hf := h.finished (List.ne_nil_of_mem hc)
    have hf' := h'.finished (List.ne_nil_of_mem hc')
    rw [forest_of_mem_goalCells hc, forest_of_mem_goalCells hc']
    exact (hp.matching_goalGraph hf hf').exists_renaming_sorted hf.descending
      hf.topped.linked.owned hf.tailsInside hf.root (hf.root_lt _ hf.root) hf'.descending
      hf'.topped.linked.owned hf'.tailsInside hf'.root (hf'.root_lt _ hf'.root)

end ForestState

end ParseForest
