import Mathlib.Data.List.Induction
import Mathlib.Data.List.Sigma
import ParseForest.Proofs.Trail

/-!
# The cells of a track

The track of a table is followed through the spans in the order in which they are filled. After
each span its cells hold one item for each trail whose last step has been made by then, and at the
moment when rule pairs are read off a span, its cell holds one item for each trail over the span
but those of a single entry.
-/

namespace ParseForest

variable {V E L : Type}

namespace Chart

variable {α : Type} [Inhabited α]

theorem get_modify_other (c : Chart α) {first last i j : Nat} (f : α → α)
    (h : ¬(i = first ∧ j = last)) : (c.modify first last f).get i j = c.get i j := by
  by_cases hs : c.IsSpan first last
  · rw [c.get_modify first last i j f hs, if_neg h]
  · simp [modify, hs]

theorem modify_eq_self (c : Chart α) {first last : Nat} {f : α → α}
    (h : f (c.get first last) = c.get first last) : c.modify first last f = c := by
  unfold modify
  split
  · rename_i hs
    have hlt := c.place_lt hs
    have hcell : c.get first last = c.cells[c.place first last] := by
      rw [get, get?, if_pos hs, Array.getElem?_eq_getElem hlt, Option.getD_some]
    rw [hcell] at h
    obtain ⟨size, cells, full⟩ := c
    simp only [Chart.mk.injEq, true_and]
    refine Array.ext (by simp) fun i hi hi' => ?_
    rw [Array.getElem_modify]
    split
    · rename_i heq
      subst heq
      exact h
    · rfl
  · rfl

theorem get_modify_self (c : Chart α) {first last : Nat} (f : α → α) (h : c.IsSpan first last) :
    (c.modify first last f).get first last = f (c.get first last) := by
  rw [c.get_modify first last first last f h, if_pos ⟨rfl, rfl⟩]

end Chart

namespace Track

variable (c : Carrier V E L) (o : Options V) (lattice : Lattice V)
variable (entries : (first last : Nat) → List E)

def fill (tr : Track V L) (s : Nat × Nat) : Track V L :=
  (tr.advance c o lattice entries s.1 s.2 (lattice.distanceTable.length s.1 s.2)).beginWith c
    (entries s.1 s.2) s.1 s.2 (lattice.distanceTable.length s.1 s.2)

def after (t : RuleTable V) (done : List (Nat × Nat)) : Track V L :=
  done.foldl (fill c o lattice entries) (start c lattice.size t)

variable {c o lattice entries} {t : RuleTable V}

theorem table_advance (tr : Track V L) (first last distance : Nat) :
    (tr.advance c o lattice entries first last distance).table = tr.table := by
  unfold advance
  split <;> rfl

theorem table_beginWith (tr : Track V L) (found : List E) (first last distance : Nat) :
    (tr.beginWith c found first last distance).table = tr.table := by
  unfold beginWith
  split <;> rfl

theorem table_mem_map {g : Grammar V} {tracks : List (Track V L)} {f : Track V L → Track V L}
    (hf : ∀ tr, (f tr).table = tr.table) (h : ∀ tr ∈ tracks, tr.table ∈ g) :
    ∀ tr ∈ tracks.map f, tr.table ∈ g := by
  intro tr htr
  obtain ⟨before, hbefore, rfl⟩ := List.mem_map.mp htr
  rw [hf]
  exact h before hbefore

theorem advance_congr {tr : Track V L} {first last distance : Nat}
    {entries entries' : (first last : Nat) → List E}
    (h : ∀ m, first < m → m < last → entries m last = entries' m last) :
    tr.advance c o lattice entries first last distance =
      tr.advance c o lattice entries' first last distance := by
  have hsplits : tr.fromSplits c entries first last = tr.fromSplits c entries' first last := by
    refine List.flatMap_congr fun m hm => ?_
    have hm := List.mem_range'_1.mp hm
    rw [h m (by omega) (by omega)]
  unfold advance
  rw [hsplits]

theorem beginWith_nil {tr : Track V L} {first last distance : Nat} :
    tr.beginWith c [] first last distance = tr := by
  unfold beginWith
  split
  · have hnone : Item.overEntries c tr.table (tr.items.get first first) [] = [] := by
      rw [Item.overEntries_eq]
      simp
    rw [hnone]
    obtain ⟨table, items⟩ := tr
    simp only [Track.mk.injEq, true_and]
    exact Chart.modify_eq_self _ (List.append_nil _)
  · rfl

theorem size_deliver (items : Chart (List (Item L))) (first : Nat)
    (arrivals : List (Nat × Item L)) : (deliver items first arrivals).size = items.size := by
  induction arrivals generalizing items with
  | nil => rfl
  | cons a arrivals ih =>
    change (deliver (items.modify first a.1 (· ++ [a.2])) first arrivals).size = _
    rw [ih, Chart.size_modify]

theorem get_deliver_other (items : Chart (List (Item L))) {first i : Nat} (j : Nat)
    (arrivals : List (Nat × Item L)) (h : i ≠ first) :
    (deliver items first arrivals).get i j = items.get i j := by
  induction arrivals generalizing items with
  | nil => rfl
  | cons a arrivals ih =>
    change (deliver (items.modify first a.1 (· ++ [a.2])) first arrivals).get i j = _
    rw [ih, Chart.get_modify_other _ _ fun hij => h hij.1]

theorem get_deliver (items : Chart (List (Item L))) (first j : Nat)
    (arrivals : List (Nat × Item L)) (h : ∀ a ∈ arrivals, items.IsSpan first a.1) :
    (deliver items first arrivals).get first j =
      items.get first j ++ (arrivals.filter fun a => a.1 = j).map (·.2) := by
  induction arrivals generalizing items with
  | nil => simp [deliver]
  | cons a arrivals ih =>
    have ha := h a List.mem_cons_self
    have hrest : ∀ b ∈ arrivals, (items.modify first a.1 (· ++ [a.2])).IsSpan first b.1 := by
      intro b hb
      have hb := h b (List.mem_cons_of_mem _ hb)
      exact ⟨hb.1, by rw [Chart.size_modify]; exact hb.2⟩
    change (deliver (items.modify first a.1 (· ++ [a.2])) first arrivals).get first j = _
    rw [ih _ hrest]
    by_cases hj : a.1 = j
    · subst hj
      rw [Chart.get_modify_self _ _ ha]
      simp
    · rw [Chart.get_modify_other _ _ fun hij => hj hij.2.symm]
      simp [hj]

theorem isSpan_of_overArcs {items : List (Item L)} {chart : Chart (List (Item L))} {first p : Nat}
    (hsize : chart.size = lattice.size) (hp : first ≤ p) :
    ∀ a ∈ Item.overArcs c t o items p (lattice.arcsAt p), chart.IsSpan first a.1 := by
  intro a ha
  obtain ⟨arc, harc, ha⟩ := List.mem_flatMap.mp ha
  obtain ⟨item, -, ha⟩ := List.mem_filterMap.mp ha
  obtain ⟨next, -, rfl⟩ := Option.map_eq_some_iff.mp ha
  have hb := Lattice.arc_bounds harc
  exact ⟨by simp only; omega, by simp only [hsize]; omega⟩

theorem arrivals_at (items : List (Item L)) (p last : Nat) (arcs : List (Arc V)) :
    ((Item.overArcs c t o items p arcs).filter fun a => a.1 = last).map (·.2) =
      (arcs.zipIdx.filter fun a => p + a.1.distance = last).flatMap fun a =>
        items.filterMap fun item => item.overArc? c t o a.1 := by
  have key : ∀ n, ((Item.overArcs c t o items p arcs).filter fun a => a.1 = last).map (·.2) =
      ((arcs.zipIdx n).filter fun a => p + a.1.distance = last).flatMap fun a =>
        items.filterMap fun item => item.overArc? c t o a.1 := by
    induction arcs with
    | nil => intro n; rfl
    | cons a arcs ih =>
      intro n
      have hfirst : ((items.filterMap fun item => (item.overArc? c t o a).map fun next =>
          (p + a.distance, next)).filter fun b => b.1 = last).map (·.2) =
          if p + a.distance = last then items.filterMap fun item => item.overArc? c t o a
          else [] := by
        rw [List.filter_filterMap, List.map_filterMap]
        split
        · rename_i hlast
          refine List.filterMap_congr fun item _ => ?_
          cases item.overArc? c t o a <;> simp [hlast]
        · rename_i hlast
          refine List.filterMap_eq_nil_iff.mpr fun item _ => ?_
          cases item.overArc? c t o a <;> simp [hlast]
      rw [Item.overArcs, List.flatMap_cons, List.filter_append, List.map_append, hfirst]
      change _ ++ ((Item.overArcs c t o items p arcs).filter fun a => a.1 = last).map (·.2) = _
      rw [ih (n + 1), List.zipIdx_cons, List.filter_cons]
      by_cases hlast : p + a.distance = last <;> simp [hlast]
  exact key 0

/-- The cells of a track hold one item for each trail over their span that `A` admits. -/
structure Filled (c : Carrier V E L) (t : RuleTable V) (o : Options V) (lattice : Lattice V)
    (entries : (first last : Nat) → List E) (A : (first last : Nat) → Trail E → Prop)
    (tr : Track V L) : Prop where
  table : tr.table = t
  size : tr.items.size = lattice.size
  cells : ∀ i j, i ≤ j → j ≤ lattice.size → Enumerates (Trail.item? c t o lattice)
    (fun x => x.Over t o lattice (listed entries) i j ∧ A i j x) (tr.items.get i j)

theorem foldl_modify_diagonal (chart : Chart (List (Item L))) (item : Item L) (n : Nat)
    (hn : n ≤ chart.size) (i j : Nat) :
    let filled := (List.range n).foldl
      (fun chart position => chart.modify position position (· ++ [item])) chart
    filled.size = chart.size ∧
      filled.get i j = if i = j ∧ i < n then chart.get i j ++ [item] else chart.get i j := by
  induction n with
  | zero => simp
  | succ n ih =>
    obtain ⟨hsize, hget⟩ := ih (by omega)
    rw [List.range_succ, List.foldl_append]
    simp only [List.foldl_cons, List.foldl_nil]
    refine ⟨by rw [Chart.size_modify, hsize], ?_⟩
    have hspan : ((List.range n).foldl (fun chart position =>
        chart.modify position position (· ++ [item])) chart).IsSpan n n :=
      ⟨Nat.le_refl n, by rw [hsize]; omega⟩
    rw [Chart.get_modify _ _ _ _ _ _ hspan, hget]
    by_cases hij : i = n ∧ j = n
    · obtain ⟨rfl, rfl⟩ := hij
      simp
    · rw [if_neg hij]
      by_cases hlt : i = j ∧ i < n
      · rw [if_pos hlt, if_pos ⟨hlt.1, by omega⟩]
      · rw [if_neg hlt, if_neg (by omega)]

theorem filled_start : Filled c t o lattice entries (Trail.Arrived []) (start c lattice.size t) := by
  unfold start
  split
  · rename_i hcov
    have hdiag := foldl_modify_diagonal (Chart.new lattice.size) (Item.start c) lattice.size
      (Nat.le_refl _)
    refine ⟨rfl, (hdiag 0 0).1, fun i j hij hj => ?_⟩
    rw [(hdiag i j).2, Chart.get_new]
    split
    · rename_i h
      obtain ⟨rfl, hlt⟩ := h
      refine Enumerates.singleton (x := Trail.start) (fun x => ?_) rfl
      constructor
      · intro h
        exact h.1.eq_start
      · rintro rfl
        exact ⟨⟨rfl, hlt, hcov⟩, trivial⟩
    · rename_i h
      refine Enumerates.nil fun x hx => ?_
      cases x with
      | start =>
        obtain ⟨⟨rfl, hlt, -⟩, -⟩ := hx
        exact h ⟨rfl, hlt⟩
      | entry x p e => cases hx.2
      | arc x p k => cases hx.2
  · rename_i hcov
    refine ⟨rfl, rfl, fun i j hij hj => ?_⟩
    simp only
    rw [Chart.get_new]
    refine Enumerates.nil fun x hx => ?_
    cases x with
    | start => exact hcov hx.1.2.2
    | entry x p e => cases hx.2
    | arc x p k => cases hx.2

variable {done rest : List (Nat × Nat)} {first last : Nat}

theorem Filled.complete {tr : Track V L}
    (h : Filled c t o lattice entries (Trail.Arrived done) tr)
    (hsplit : Chart.spansByLength lattice.size = done ++ (first, last) :: rest) {i j : Nat}
    (hij : i ≤ j) (hj : j ≤ lattice.size) (hlt : j - i < last - first) :
    Enumerates (Trail.item? c t o lattice) (fun x => x.Over t o lattice (listed entries) i j)
      (tr.items.get i j) := by
  refine (h.cells i j hij hj).congr fun x => and_iff_left_of_imp fun hx => ?_
  cases x with
  | start => trivial
  | entry x p e =>
    obtain ⟨hx, hp, -⟩ := hx
    have hx := hx.bounds
    exact (Chart.mem_done_iff hsplit).mpr ⟨by simp only; omega, hj, Or.inl hlt⟩
  | arc x p k =>
    obtain ⟨hx, -, -, a, ha, rfl⟩ := hx
    have hx := hx.bounds
    have ha := Lattice.arc_bounds_of_getElem? ha
    exact (Chart.mem_done_iff hsplit).mpr
      ⟨by simp only; omega, by simp only; omega, Or.inl (by simp only; omega)⟩

theorem entry_inj (p : Nat) (x : Trail E) (e : E) (x' : Trail E) (e' : E)
    (h : Trail.entry x p e = Trail.entry x' p e') : x = x' ∧ e = e' := by
  cases h
  exact ⟨rfl, rfl⟩

theorem enumerates_fromSplits {tr : Track V L}
    (h : Filled c t o lattice entries (Trail.Arrived done) tr)
    (hsplit : Chart.spansByLength lattice.size = done ++ (first, last) :: rest)
    (hnd : ∀ p, (entries p last).Nodup) :
    Enumerates (Trail.item? c t o lattice)
      (fun z => ∃ p ∈ List.range' (first + 1) (last - first - 1),
        ∃ x e, x.Over t o lattice (listed entries) first p ∧ e ∈ entries p last ∧ z = .entry x p e)
      (tr.fromSplits c entries first last) := by
  have hs := Chart.isSpan_of_split hsplit
  have hs : first < last ∧ last ≤ lattice.size := hs
  refine Enumerates.flatMap List.nodup_range' (fun p hp => ?_) ?_
  · have hp := List.mem_range'_1.mp hp
    rw [Item.overEntries_eq, h.table]
    have hcell := h.complete hsplit (i := first) (j := p) (by omega) (by omega) (by omega)
    exact hcell.product (hnd p) (entry_inj p) fun x e => rfl
  · rintro p q z ⟨x, e, -, -, rfl⟩ ⟨x', e', -, -, heq⟩
    cases heq
    rfl

theorem enumerates_fromArcs {tr : Track V L}
    (h : Filled c t o lattice entries (Trail.Arrived done) tr)
    (hsplit : Chart.spansByLength lattice.size = done ++ (first, last) :: rest) (j : Nat) :
    Enumerates (Trail.item? c t o lattice)
      (fun z => (o.treebank = true → last - 1 = first) ∧
        ∃ x k a, x.Over t o lattice (listed entries) first (last - 1) ∧
          (lattice.arcsAt (last - 1))[k]? = some a ∧ last - 1 + a.distance = j ∧
          z = .arc x (last - 1) k)
      (((tr.fromArcs c o lattice first last).filter fun a => a.1 = j).map (·.2)) := by
  have hs := Chart.isSpan_of_split hsplit
  have hs : first < last ∧ last ≤ lattice.size := hs
  unfold fromArcs
  split
  · rename_i htree
    rw [Bool.and_eq_true, bne_iff_ne] at htree
    refine Enumerates.nil fun z hz => ?_
    have := hz.1 htree.1
    omega
  · rename_i htree
    have htree : o.treebank = true → last - 1 = first := by
      intro ht
      rw [ht, Bool.true_and, bne_iff_ne, ne_eq, not_not] at htree
      omega
    have hcell := h.complete hsplit (i := first) (j := last - 1) (by omega) (by omega) (by omega)
    rw [h.table, arrivals_at]
    have hnd : ((lattice.arcsAt (last - 1)).zipIdx.filter fun a =>
        last - 1 + a.1.distance = j).Nodup := 
      List.Nodup.filter _ (List.Nodup.of_map Prod.snd (List.nodup_zipIdx_map_snd _))
    refine (Enumerates.flatMap hnd (R := fun a z => ∃ x,
      x.Over t o lattice (listed entries) first (last - 1) ∧ z = .arc x (last - 1) a.2 ∧
        (lattice.arcsAt (last - 1))[a.2]? = some a.1) (fun a ha => ?_) ?_).congr fun z => ?_
    · have ha := Lattice.mem_arcsAt_iff.mpr (List.mem_filter.mp ha).1
      refine (hcell.step (k := fun x => .arc x (last - 1) a.2) (fun x x' hx => ?_)
        fun x => ?_).congr fun z => ?_
      · cases hx
        rfl
      · simp only [Trail.item?, ha, Option.bind_some]
      · simp only [ha, and_true]
    · rintro a b z ⟨x, -, rfl, ha⟩ ⟨x', -, heq, hb⟩
      obtain ⟨-, -, hk⟩ := Trail.arc.inj heq
      rw [hk, hb] at ha
      exact Prod.ext (Option.some.inj ha).symm hk
    · constructor
      · rintro ⟨a, ha, x, hx, rfl, hk⟩
        have hj := of_decide_eq_true (List.mem_filter.mp ha).2
        exact ⟨htree, x, a.2, a.1, hx, hk, hj, rfl⟩
      · rintro ⟨-, x, k, a, hx, hk, hj, rfl⟩
        exact ⟨(a, k), List.mem_filter.mpr ⟨Lattice.mem_arcsAt_iff.mp hk, decide_eq_true hj⟩,
          x, hx, rfl, hk⟩

theorem get_items_advance {tr : Track V L} (hsize : tr.items.size = lattice.size)
    (hs : first < last ∧ last ≤ lattice.size)
    (hcov : tr.table.covers (lattice.distanceTable.length first last) = true) (j : Nat) :
    (tr.advance c o lattice entries first last
      (lattice.distanceTable.length first last)).items.get first j =
      tr.items.get first j ++ ((if j = last then tr.fromSplits c entries first last else []) ++
        ((tr.fromArcs c o lattice first last).filter fun a => a.1 = j).map (·.2)) := by
  have hspan : tr.items.IsSpan first last := ⟨by omega, by rw [hsize]; exact hs.2⟩
  have harr : ∀ a ∈ tr.fromArcs c o lattice first last,
      (tr.items.modify first last (· ++ tr.fromSplits c entries first last)).IsSpan first a.1 := by
    unfold fromArcs
    split
    · simp
    · exact isSpan_of_overArcs (by rw [Chart.size_modify, hsize]) (by omega)
  rw [Track.advance, if_pos hcov]
  simp only
  rw [get_deliver _ _ _ _ harr]
  by_cases hj : j = last
  · rw [hj, Chart.get_modify_self _ _ hspan, if_pos rfl, List.append_assoc]
  · rw [Chart.get_modify_other _ _ fun hij => hj hij.2, if_neg hj, List.nil_append]

theorem get_items_advance_other {tr : Track V L} {i : Nat} (hi : i ≠ first) (distance j : Nat) :
    (tr.advance c o lattice entries first last distance).items.get i j = tr.items.get i j := by
  unfold Track.advance
  split
  · simp only
    rw [get_deliver_other _ _ _ hi, Chart.get_modify_other _ _ fun hij => hi hij.1]
  · rfl

theorem size_items_advance (tr : Track V L) (first last distance : Nat) :
    (tr.advance c o lattice entries first last distance).items.size = tr.items.size := by
  unfold Track.advance
  split
  · simp only
    rw [size_deliver, Chart.size_modify]
  · rfl

theorem joins_iff (hs : first < last ∧ last ≤ lattice.size)
    (hcov : t.covers (lattice.distanceTable.length first last) = true) {j : Nat} {x : Trail E} :
    (x.Over t o lattice (listed entries) first j ∧ x.Joins (first, last) first j) ↔
      (j = last ∧ ∃ p ∈ List.range' (first + 1) (last - first - 1), ∃ y e,
        y.Over t o lattice (listed entries) first p ∧ e ∈ entries p last ∧ x = .entry y p e) ∨
      ((o.treebank = true → last - 1 = first) ∧
        ∃ y k a, y.Over t o lattice (listed entries) first (last - 1) ∧
          (lattice.arcsAt (last - 1))[k]? = some a ∧ last - 1 + a.distance = j ∧
          x = .arc y (last - 1) k) := by
  have hlast : last - 1 + 1 = last := Nat.sub_add_cancel (by omega)
  constructor
  · rintro ⟨hx, hjoins⟩
    cases x with
    | start => cases hjoins
    | entry x p e =>
      obtain ⟨hx, hp, -, he, -⟩ := hx
      obtain ⟨-, rfl, hlt⟩ := hjoins
      exact Or.inl ⟨rfl, p, List.mem_range'_1.mpr (by simp only at hlt hp; omega), x, e, hx, he, rfl⟩
    | arc x p k =>
      obtain ⟨hx, -, htree, a, ha, heq⟩ := hx
      have hp : p = last - 1 := Nat.eq_sub_of_add_eq hjoins.2
      subst hp
      exact Or.inr ⟨htree, x, k, a, hx, ha, heq.symm, rfl⟩
  · rintro (⟨rfl, p, hp, y, e, hy, he, rfl⟩ | ⟨htree, y, k, a, hy, ha, hj, rfl⟩)
    · have hp := List.mem_range'_1.mp hp
      exact ⟨⟨hy, by omega, hs.2, he, hcov⟩, rfl, rfl, by simp only; omega⟩
    · refine ⟨⟨hy, ?_, htree, a, ha, hj.symm⟩, rfl, hlast⟩
      rw [hlast]
      exact hcov

theorem Filled.advance {tr : Track V L}
    (h : Filled c t o lattice entries (Trail.Arrived done) tr)
    (hsplit : Chart.spansByLength lattice.size = done ++ (first, last) :: rest)
    (hnd : ∀ p, (entries p last).Nodup) :
    Filled c t o lattice entries
      (fun i j x => x.Arrived done i j ∨ x.Joins (first, last) i j)
      (tr.advance c o lattice entries first last (lattice.distanceTable.length first last)) := by
  have hs : first < last ∧ last ≤ lattice.size := Chart.isSpan_of_split hsplit
  refine ⟨(table_advance tr _ _ _).trans h.table, (size_items_advance tr _ _ _).trans h.size,
    fun i j hij hj => ?_⟩
  have hold := h.cells i j hij hj
  by_cases hi : i = first
  · subst hi
    by_cases hcov : t.covers (lattice.distanceTable.length i last) = true
    · rw [get_items_advance h.size hs (by rw [h.table]; exact hcov)]
      have hsplits : Enumerates (Trail.item? c t o lattice)
          (fun x => j = last ∧ ∃ p ∈ List.range' (i + 1) (last - i - 1), ∃ y e,
            y.Over t o lattice (listed entries) i p ∧ e ∈ entries p last ∧ x = .entry y p e)
          (if j = last then tr.fromSplits c entries i last else []) := by
        by_cases hjl : j = last
        · rw [if_pos hjl]
          exact (enumerates_fromSplits h hsplit hnd).congr fun x => (and_iff_right hjl).symm
        · rw [if_neg hjl]
          exact Enumerates.nil fun x hx => hjl hx.1
      have hnew := (hsplits.append (enumerates_fromArcs h hsplit j) ?_).congr fun x =>
        (joins_iff hs hcov).symm
      · refine (hold.append hnew ?_).congr fun x => and_or_left.symm
        rintro x ⟨-, hx⟩ ⟨-, hx'⟩
        exact hx'.not_arrived (Chart.not_mem_done hsplit) hx
      · rintro x ⟨-, p, -, y, e, -, -, rfl⟩ ⟨-, y', k, a, -, -, -, heq⟩
        cases heq
    · rw [Track.advance, if_neg (by rw [h.table]; exact hcov)]
      refine hold.congr fun x => and_congr_right fun hx => ?_
      exact (or_iff_left fun hjoins => hcov (hx.covers_of_joins hjoins)).symm
  · rw [get_items_advance_other hi]
    refine hold.congr fun x => and_congr_right fun _ => ?_
    exact (or_iff_left fun hjoins => hi hjoins.first_eq).symm

theorem joins_or_begins_iff {i j : Nat} {x : Trail E}
    (hx : x.Over t o lattice (listed entries) i j) :
    ((x.Arrived done i j ∨ x.Joins (first, last) i j) ∨ x.Begins (first, last) i j) ↔
      x.Arrived (done ++ [(first, last)]) i j := by
  cases x with
  | start => simp [Trail.Arrived]
  | entry x p e =>
    have hb := hx.1.bounds
    simp only [Trail.Arrived, Trail.Joins, Trail.Begins, List.mem_append, List.mem_singleton,
      Prod.mk.injEq, or_assoc]
    refine or_congr_right ⟨?_, ?_⟩
    · rintro (⟨h₁, h₂, -⟩ | ⟨h₁, h₂, -⟩) <;> exact ⟨h₁, h₂⟩
    · rintro ⟨rfl, rfl⟩
      rcases Nat.lt_or_eq_of_le hb.1 with hlt | heq
      · exact Or.inl ⟨rfl, rfl, hlt⟩
      · exact Or.inr ⟨rfl, rfl, heq.symm⟩
  | arc x p k =>
    simp only [Trail.Arrived, Trail.Joins, Trail.Begins, List.mem_append, List.mem_singleton,
      Prod.mk.injEq, or_false]

theorem Filled.beginWith {tr : Track V L}
    (h : Filled c t o lattice entries
      (fun i j x => x.Arrived done i j ∨ x.Joins (first, last) i j) tr)
    (hsplit : Chart.spansByLength lattice.size = done ++ (first, last) :: rest)
    (hnd : (entries first last).Nodup) :
    Filled c t o lattice entries (Trail.Arrived (done ++ [(first, last)]))
      (tr.beginWith c (entries first last) first last
        (lattice.distanceTable.length first last)) := by
  have hs : first < last ∧ last ≤ lattice.size := Chart.isSpan_of_split hsplit
  -- Where no trail begins the cells stay as they are.
  have hkept : ∀ i j, i ≤ j → j ≤ lattice.size →
      (∀ x : Trail E, x.Over t o lattice (listed entries) i j → ¬x.Begins (first, last) i j) →
        Enumerates (Trail.item? c t o lattice) (fun x => x.Over t o lattice (listed entries) i j ∧
          x.Arrived (done ++ [(first, last)]) i j) (tr.items.get i j) := by
    intro i j hij hj hnone
    refine (h.cells i j hij hj).congr fun x => and_congr_right fun hx => ?_
    rw [← joins_or_begins_iff hx]
    exact (or_iff_left (hnone x hx)).symm
  unfold Track.beginWith
  rw [h.table]
  split
  · rename_i hcov
    have hspan : tr.items.IsSpan first last := ⟨by omega, by rw [h.size]; exact hs.2⟩
    refine ⟨h.table, by rw [Chart.size_modify, h.size], fun i j hij hj => ?_⟩
    simp only
    by_cases heq : i = first ∧ j = last
    · obtain ⟨rfl, rfl⟩ := heq
      rw [Chart.get_modify_self _ _ hspan, Item.overEntries_eq]
      have hempty : Enumerates (Trail.item? c t o lattice)
          (fun x => x.Over t o lattice (listed entries) i i) (tr.items.get i i) := by
        refine (h.cells i i (Nat.le_refl i) (by omega)).congr fun x => ?_
        refine and_iff_left_of_imp fun hx => Or.inl ?_
        rw [hx.eq_start]
        trivial
      have hbegun := hempty.product (g := Trail.item? c t o lattice) hnd (entry_inj i)
        fun x e => rfl
      refine ((h.cells i j hij hj).append hbegun ?_).congr fun x => ?_
      · rintro x ⟨hx, hx'⟩ ⟨y, e, -, -, rfl⟩
        rcases hx' with hx' | hx'
        · exact Chart.not_mem_done hsplit hx'
        · exact Nat.lt_irrefl _ hx'.2.2
      · constructor
        · rintro (⟨hx, hx'⟩ | ⟨y, e, hy, he, rfl⟩)
          · exact ⟨hx, (joins_or_begins_iff hx).mp (Or.inl hx')⟩
          · have hx : (Trail.entry y i e).Over t o lattice (listed entries) i j :=
              ⟨hy, hs.1, hs.2, he, hcov⟩
            exact ⟨hx, (joins_or_begins_iff hx).mp (Or.inr ⟨rfl, rfl, rfl⟩)⟩
        · rintro ⟨hx, hx'⟩
          rcases (joins_or_begins_iff hx).mpr hx' with hx' | hx'
          · exact Or.inl ⟨hx, hx'⟩
          · obtain ⟨y, e, rfl⟩ := hx'.exists_entry
            exact Or.inr ⟨y, e, hx.1, hx.2.2.2.1, rfl⟩
    · rw [Chart.get_modify_other _ _ heq]
      exact hkept i j hij hj fun x _ hbegins => heq hbegins.span_eq
  · rename_i hcov
    exact ⟨h.table, h.size, fun i j hij hj =>
      hkept i j hij hj fun x hx hbegins => hcov (hx.covers_of_begins hbegins)⟩

variable (hnd : ∀ p q, (entries p q).Nodup)
include hnd

theorem filled_after (hsplit : Chart.spansByLength lattice.size = done ++ rest) :
    Filled c t o lattice entries (Trail.Arrived done) (after c o lattice entries t done) := by
  induction done using List.reverseRecOn generalizing rest with
  | nil => exact filled_start
  | append_singleton done s ih =>
    have hsplit : Chart.spansByLength lattice.size = done ++ (s.1, s.2) :: rest := by
      simpa using hsplit
    have hdone := ih hsplit
    rw [after, List.foldl_append]
    exact (hdone.advance hsplit fun p => hnd p s.2).beginWith hsplit (hnd s.1 s.2)

/-- When the rule pairs of a span are read off, its cell has every trail over the span but those of
a single entry. -/
theorem enumerates_advanced
    (hsplit : Chart.spansByLength lattice.size = done ++ (first, last) :: rest) :
    Enumerates (Trail.item? c t o lattice)
      (fun x => x.Over t o lattice (listed entries) first last ∧ ¬x.Begins (first, last) first last)
      (((after c o lattice entries t done).advance c o lattice entries first last
        (lattice.distanceTable.length first last)).items.get first last) := by
  have hs := Chart.isSpan_of_split hsplit
  have hs : first < last ∧ last ≤ lattice.size := hs
  have hadv := (filled_after hnd hsplit (c := c) (o := o) (t := t)).advance hsplit fun p => hnd p last
  refine (hadv.cells first last (by omega) hs.2).congr fun x => and_congr_right fun hx => ?_
  cases x with
  | start => exact absurd hx.1 (by omega)
  | entry x p e =>
    have hb := hx.1.bounds
    have hnot : ¬(Trail.entry x p e).Arrived done first last := Chart.not_mem_done hsplit
    rw [or_iff_right hnot]
    simp only [Trail.Joins, Trail.Begins, true_and]
    omega
  | arc x p k =>
    have hb := hx.1.bounds
    obtain ⟨-, -, -, a, ha, heq⟩ := hx
    have ha := Lattice.arc_bounds_of_getElem? ha
    refine iff_of_true ?_ id
    by_cases hp : p + 1 = last
    · exact Or.inr ⟨rfl, hp⟩
    · refine Or.inl ((Chart.mem_done_iff hsplit).mpr ⟨by simp only; omega, by simp only; omega, ?_⟩)
      exact Or.inl (by simp only; omega)

end Track

end ParseForest
