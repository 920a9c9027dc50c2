import ParseForest.Proofs.Forest.Chains
import ParseForest.Proofs.Forest.Counterparts
import ParseForest.Proofs.Posterior.Useful

/-!
# Forests of different pruners

A pruner that keeps all useful labels takes nothing from a forest but what sorting takes from it
anyway, provided that the closures of spans do not end too early. The constituents of two such
forests are paired by their spans, labels and levels, as far as their labels are useful; an entry
has a counterpart when its parts have.
-/

namespace ParseForest

variable {V : Type}

def Pruner.Keeps (pruner : Pruner) (l : SpanLabel) : Prop :=
  pruner.skipsSpan l.first l.last = false ∧ pruner.skipsLabel l.first l.last l.label = false

theorem Derivation.Made.of_keeps {g : Grammar V} {o : Options V} {lattice : Lattice V}
    {pruner : Pruner} {d : Derivation} (hd : d.Made g o lattice pruner) (pruner' : Pruner)
    (hkeeps : ∀ l, d.Uses l → pruner'.Keeps l) : d.Made g o lattice pruner' := by
  induction hd with
  | @node place rule parts pair span _ _ named label fits below ih =>
    obtain ⟨hspan, hlabel⟩ := hkeeps place (.here rfl)
    exact .node span hspan hlabel named label fits fun d hd =>
      ih d hd fun l hl => hkeeps l (.part hd hl)

namespace ForestState

variable [Scalar V]

section

variable (g : Grammar V) (o : Options V) (lattice : Lattice V) (pruner pruner' : Pruner)

def KeepsUseful : Prop := ∀ l, Useful g o lattice .none l → pruner.Keeps l

structure SameUseful (i j : Nat) (c c' : Constituent) : Prop
    extends SameCell g g o lattice pruner pruner' i j c c' where
  useful : Useful g o lattice .none ⟨i, j, c.label⟩

end

variable {g : Grammar V} {o : Options V} {lattice : Lattice V} {pruner pruner' : Pruner}

theorem SameUseful.symm {i j : Nat} {c c' : Constituent}
    (h : SameUseful g o lattice pruner pruner' i j c c') :
    SameUseful g o lattice pruner' pruner i j c' c :=
  ⟨h.toSameCell.symm, h.label ▸ h.useful⟩

section Ledgers

variable {ledger ledger' : List Entry}
  (h : Ran g o lattice pruner (Chart.spansByLength lattice.size) (run g o lattice pruner) ledger)
  (h' : Ran g o lattice pruner' (Chart.spansByLength lattice.size) (run g o lattice pruner')
    ledger')

include h in
theorem useful_of_genuine {a : Entry}
    (ha : Genuine g o lattice pruner (listed (cells g o lattice pruner)) a)
    (huseful : Useful g o lattice .none a.place) {p q : Nat} {c : Constituent}
    (hc : (p, q, c) ∈ a.step.parts.placed a.place.last) :
    Useful g o lattice .none ⟨p, q, c.label⟩ := by
  obtain ⟨t, -, hover, -⟩ := ha.fits
  obtain ⟨parts, hparts⟩ := Trail.Along.exists_of_placed
    (fun p q c d => Derivation.Made g o lattice pruner d ∧ d.place = ⟨p, q, c.label⟩)
    a.place.last a.step.parts fun p q b hb =>
      h.exists_made b.node p q b (hover.mem_placed hb).2.2.2 rfl
  have hmade := (made_of_genuine ha hparts).of_keeps .none fun _ _ => ⟨rfl, rfl⟩
  obtain ⟨d, hd, -, hplace⟩ := hparts.flip.of_mem_placed hc
  exact huseful.of_uses hmade rfl (.part (Trail.mem_entries_of_mem_placed hd) (.here hplace))

include h in
theorem useful_of_mem_goalCells {c : Constituent} (hc : c ∈ goalCells g o lattice pruner) :
    Useful g o lattice .none ⟨0, lattice.size, c.label⟩ := by
  obtain ⟨hc, hlabel⟩ := mem_goalCells.mp hc
  obtain ⟨d, hd, hplace⟩ := h.exists_made c.node 0 lattice.size c hc rfl
  exact ⟨d, hd.of_keeps .none fun _ _ => ⟨rfl, rfl⟩, by rw [hplace, hlabel], .here hplace⟩

variable (hchains : g.ChainsWithin o o.forestStagnation)
  (hkeeps' : KeepsUseful g o lattice pruner')

include h' hchains hkeeps' in
theorem exists_entry_of_parts {a : Entry}
    (ha : Genuine g o lattice pruner (listed (cells g o lattice pruner)) a)
    (huseful : Useful g o lattice .none a.place) (hparts : ∀ p q c,
      (p, q, c) ∈ a.step.parts.placed a.place.last →
        ∃ c', SameUseful g o lattice pruner pruner' p q c c') :
    ∃ a' ∈ ledger', Counterpart Eq (SameUseful g o lattice pruner pruner') a a' := by
  obtain ⟨parts, halong⟩ := Trail.Along.exists_of_placed _ a.place.last a.step.parts hparts
  refine ⟨⟨a.place, ⟨a.step.rule, parts⟩⟩, (h'.mem_ledger_iff hchains).mpr ?_,
    rfl, rfl, halong⟩
  obtain ⟨hspan, hlabel⟩ := hkeeps' a.place huseful
  exact ⟨ha.span, hspan, hlabel, ha.label, Application.fits_along (fun p q c c' hc => hc.label)
    (fun p q c c' _ hc => hc.right) halong ha.fits⟩

include h h' hchains hkeeps'

theorem exists_sameUseful (n : Nat) : ∀ i j, ∀ c ∈ cells g o lattice pruner i j, c.node = n →
    Useful g o lattice .none ⟨i, j, c.label⟩ →
      ∃ c', SameUseful g o lattice pruner pruner' i j c c' := by
  induction n using Nat.strongRecOn with
  | _ n ih =>
    intro i j c hc hn huseful
    obtain ⟨a, -, hgen, hplace, hlevel, hbelow⟩ := h.exists_derived hc
    obtain ⟨t, -, hover, -⟩ := hgen.fits
    have hplaced : Useful g o lattice .none a.place := hplace ▸ huseful
    obtain ⟨a', ha', hsame⟩ := exists_entry_of_parts h' hchains hkeeps' hgen hplaced
      fun p q d hd => by
        have hlt := hbelow d (Trail.mem_entries_of_mem_placed hd)
        rw [hn] at hlt
        exact ih d.node hlt p q d (hover.mem_placed hd).2.2.2 rfl
          (useful_of_genuine h hgen hplaced hd)
    obtain ⟨e, he⟩ := List.getElem?_of_mem ha'
    obtain ⟨-, c', -, hc', hlabel', hlevel', -⟩ := h'.recorded.edge e a' he
    rw [← hsame.place, hplace] at hc' hlabel'
    exact ⟨c', ⟨hc, hc', hlabel'.symm,
      hlevel.symm.trans ((level_eq (fun _ _ _ _ hc => hc.level) hsame.parts).trans hlevel'.symm)⟩,
      huseful⟩

theorem exists_counterpart {a : Entry} (ha : a ∈ ledger)
    (huseful : Useful g o lattice .none a.place) :
    ∃ a' ∈ ledger', Counterpart Eq (SameUseful g o lattice pruner pruner') a a' := by
  have hgen := (h.genuine a ha).2
  obtain ⟨t, -, hover, -⟩ := hgen.fits
  exact exists_entry_of_parts h' hchains hkeeps' hgen huseful fun p q c hc =>
    exists_sameUseful h h' hchains hkeeps' c.node p q c (hover.mem_placed hc).2.2.2 rfl
      (useful_of_genuine h hgen huseful hc)

theorem exists_sameGoal {c : Constituent} (hc : c ∈ goalCells g o lattice pruner) :
    ∃ c', SameUseful g o lattice pruner pruner' 0 lattice.size c c' :=
  exists_sameUseful h h' hchains hkeeps' c.node 0 lattice.size c (mem_goalCells.mp hc).1 rfl
    (useful_of_mem_goalCells h hc)

theorem paired_of_keepsUseful (hkeeps : KeepsUseful g o lattice pruner) :
    Paired g g o lattice pruner pruner' ledger ledger' Eq
      (SameUseful g o lattice pruner pruner') where
  rules := ⟨fun _ _ _ hac hbc => hac.trans hbc.symm, fun _ _ _ hab hac => hab.symm.trans hac⟩
  pair r r' hr := hr ▸ rfl
  sameCell hc := hc.toSameCell
  forth i j c c' hc a ha hplace :=
    exists_counterpart h h' hchains hkeeps' ha (hplace ▸ hc.useful)
  back i j c c' hc a' ha' hplace := by
    obtain ⟨a, ha, hsame⟩ := exists_counterpart h' h hchains hkeeps ha' (hplace ▸ hc.symm.useful)
    exact ⟨a, ha, hsame.symm.place, hsame.rule.symm, hsame.symm.parts.imp fun _ _ _ _ hc => hc.symm⟩
  goals c hc := exists_sameGoal h h' hchains hkeeps' hc
  goals' c' hc' := by
    obtain ⟨c, hc⟩ := exists_sameGoal h' h hchains hkeeps hc'
    exact ⟨c, hc.symm⟩

end Ledgers

end ForestState

open ForestState

variable [Scalar V] {g : Grammar V} {o : Options V} {lattice : Lattice V}

/-- Pruners that keep all useful labels leave the same forest, when no chain of unary rules is
longer than a closure may stagnate. -/
theorem isomorphic_forest (hchains : g.ChainsWithin o o.forestStagnation) {pruner pruner' : Pruner}
    (hkeeps : KeepsUseful g o lattice pruner) (hkeeps' : KeepsUseful g o lattice pruner') :
    (forest g o lattice pruner).Isomorphic (forest g o lattice pruner') := by
  obtain ⟨ledger, h⟩ := exists_ledger g o lattice pruner
  obtain ⟨ledger', h'⟩ := exists_ledger g o lattice pruner'
  obtain ⟨nodeOf, edgeOf, hpart, hnodes, hedges, -⟩ :=
    (paired_of_keepsUseful h h' hchains hkeeps' hkeeps).exists_renaming h h'
  exact ⟨nodeOf, edgeOf, hpart, hnodes, hedges⟩

theorem size_forest {pruner : Pruner} (hne : goalCells g o lattice pruner ≠ []) :
    (goalCells g o lattice pruner).length < (forest g o lattice pruner).nodes.size ∧
      (forest g o lattice pruner).nodes.size ≤ (run g o lattice pruner).graph.nodes.size + 1 := by
  obtain ⟨ledger, h⟩ := exists_finished hne
  obtain ⟨c, hc⟩ := List.exists_mem_of_ne_nil _ hne
  have hcell : ∀ c ∈ goalCells g o lattice pruner, c ∈ cells g o lattice pruner 0 lattice.size :=
    fun c hc => (mem_goalCells.mp hc).1
  have hnd : ((goalCells g o lattice pruner).map Constituent.node).Nodup :=
    List.Nodup.map_on (fun c hc d hd heq =>
      (h.recorded.once _ _ _ _ c d (hcell c hc) (hcell d hd) heq).2.2)
      ((nodup_cells 0 lattice.size).filter _)
  have hfresh : (run g o lattice pruner).graph.nodes.size ∉
      (goalCells g o lattice pruner).map Constituent.node := fun hmem => by
    obtain ⟨c, hc, heq⟩ := List.mem_map.mp hmem
    exact absurd heq (Nat.ne_of_lt (h.recorded.bound _ _ c (hcell c hc)))
  have hsize := h.descending.size_sorted h.topped.linked.owned h.tailsInside (h.root_lt _ h.root)
    h.root (List.nodup_cons.mpr ⟨hfresh, hnd⟩) fun t ht => by
      obtain ⟨c, hc, rfl⟩ := List.mem_map.mp ht
      obtain ⟨k, hk⟩ := List.getElem?_of_mem hc
      refine ⟨_, (h.topped.mem_edges_goal h.recorded).mpr ⟨k, c, hk, rfl⟩, ?_⟩
      rw [h.topped.new k c hk]
      exact List.mem_cons_self
  rwa [List.length_map, ← forest_of_mem_goalCells hc, h.topped.nodes] at hsize

end ParseForest
