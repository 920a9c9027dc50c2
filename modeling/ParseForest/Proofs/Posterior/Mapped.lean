import ParseForest.Proofs.Posterior.Chart

/-!
# Mapped charts and matches

Charts, label maps, edge maps and tracks are containers: a map of what they hold can be taken
before or after they are read and changed. For the loads of a track it has to go along with how
they grow.
-/

namespace ParseForest

variable {V α β E L L' : Type}

/-! ## Maps of containers -/

namespace Chart

def map (f : α → β) (c : Chart α) : Chart β := ⟨c.size, c.cells.map f, by simp [c.full]⟩

variable {f : α → β}

theorem map_modify (c : Chart α) (first last : Nat) {g : α → α} {g' : β → β}
    (h : ∀ x, f (g x) = g' (f x)) :
    (c.modify first last g).map f = (c.map f).modify first last g' := by
  have hspan : (c.map f).IsSpan first last ↔ c.IsSpan first last := Iff.rfl
  by_cases hs : c.IsSpan first last
  · have hcells : (c.cells.modify (c.place first last) g).map f =
        (c.cells.map f).modify (c.place first last) g' := by
      refine Array.ext (by simp) fun i hi hi' => ?_
      simp only [Array.getElem_map, Array.getElem_modify]
      split
      · exact h _
      · rfl
    rw [modify, modify, if_pos hs, if_pos (hspan.mpr hs)]
    simp only [map, hcells]
    rfl
  · rw [modify, modify, if_neg hs, if_neg (mt hspan.mp hs)]

theorem map_set (c : Chart α) (first last : Nat) (cell : α) :
    (c.set first last cell).map f = (c.map f).set first last (f cell) :=
  c.map_modify first last fun _ => rfl

variable [Inhabited α] [Inhabited β]

theorem get_map (h : f default = default) (c : Chart α) (first last : Nat) :
    (c.map f).get first last = f (c.get first last) := by
  have hspan : (c.map f).IsSpan first last ↔ c.IsSpan first last := Iff.rfl
  by_cases hs : c.IsSpan first last
  · have hlt := c.place_lt hs
    rw [get, get, get?, get?, if_pos hs, if_pos (hspan.mpr hs),
      show (c.map f).cells[(c.map f).place first last]? = c.cells[c.place first last]?.map f from
        Array.getElem?_map, Array.getElem?_eq_getElem hlt]
    rfl
  · simp [get, get?, hs, mt hspan.mp hs, h]

theorem map_new (h : f default = default) (size : Nat) :
    (new size : Chart α).map f = new size := by
  simp [map, new, h]

end Chart

namespace LabelMap

def mapValues (f : α → β) (m : LabelMap α) : LabelMap β := m.map fun kv => (kv.1, f kv.2)

variable {f : α → β}

theorem keys_mapValues (m : LabelMap α) : keys (mapValues f m) = keys m := by
  simp only [keys, mapValues, List.map_map, Function.comp_def]

theorem get?_mapValues (m : LabelMap α) (label : Symbol) :
    get? (mapValues f m) label = (get? m label).map f := by
  induction m with
  | nil => rfl
  | cons kv m ih =>
    obtain ⟨key, value⟩ := kv
    unfold get? mapValues at ih ⊢
    rw [List.map_cons, List.lookup_cons, List.lookup_cons]
    cases label == key with
    | true => rfl
    | false => exact ih

theorem mapValues_upsert (m : LabelMap α) (label : Symbol) {g : Option α → α}
    {g' : Option β → β} (h : ∀ x, f (g x) = g' (x.map f)) :
    mapValues f (upsert label g m) = upsert label g' (mapValues f m) := by
  induction m with
  | nil => exact congrArg (fun x => [(label, x)]) (h none)
  | cons kv m ih =>
    obtain ⟨key, value⟩ := kv
    unfold mapValues at ih ⊢
    by_cases hk : key = label
    · simp only [upsert, hk, if_true, List.map_cons, h, Option.map_some]
    · simp only [upsert, hk, if_false, List.map_cons, ih]

theorem mapValues_insert (m : LabelMap α) (label : Symbol) (x : α) :
    mapValues f (insert m label x) = insert (mapValues f m) label (f x) :=
  mapValues_upsert m label fun _ => rfl

theorem inOrder_mapValues (labels : List Symbol) (m : LabelMap α) :
    inOrder labels (mapValues f m) = mapValues f (inOrder labels m) := by
  rw [inOrder, inOrder, mapValues.eq_def f (List.filterMap _ _), List.map_filterMap]
  refine List.filterMap_congr fun label _ => ?_
  rw [get?_mapValues, Option.map_map, Option.map_map]
  rfl

end LabelMap

namespace EdgeMap

def map (f : α → β) (m : EdgeMap α) : EdgeMap β := LabelMap.mapValues (Array.map f) m

variable {f : α → β}

theorem edges_map (m : EdgeMap α) (label : Symbol) :
    (EdgeMap.map f m).edges label = (m.edges label).map f := by
  unfold edges map
  rw [LabelMap.get?_mapValues]
  cases LabelMap.get? m label with
  | none => exact Array.map_empty.symm
  | some es => rfl

theorem map_add (m : EdgeMap α) (label : Symbol) (e : α) :
    EdgeMap.map f (m.add label e) = (EdgeMap.map f m).add label (f e) := by
  refine LabelMap.mapValues_upsert m label fun old => ?_
  cases old <;> simp

theorem among_map (m : EdgeMap α) (labels : List Symbol) :
    (EdgeMap.map f m).among labels = m.among labels := by
  refine List.filter_congr fun label _ => ?_
  rw [has, has, map, LabelMap.get?_mapValues, Option.isSome_map]

theorem labelsAt_map (tier : Chart (EdgeMap α)) (labels : List Symbol) (first last : Nat) :
    labelsAt (tier.map (EdgeMap.map f)) labels first last = labelsAt tier labels first last := by
  rw [labelsAt, labelsAt, Chart.get_map (f := EdgeMap.map f) rfl, among_map]

end EdgeMap

/-! ## Maps of matches -/

def Item.map (f : L → L') (item : Item L) : Item L' := ⟨item.state, f item.load⟩

def Track.map (f : L → L') (tr : Track V L) : Track V L' :=
  ⟨tr.table, tr.items.map (List.map (Item.map f))⟩

structure Carrier.Along (c : Carrier V E L) (c' : Carrier V E L') (f : L → L') : Prop where
  label : c'.label = c.label
  start : c'.start = f c.start
  overEntry (l : L) (e : E) : c'.overEntry (f l) e = f (c.overEntry l e)
  overArc (l : L) (a : Arc V) : c'.overArc (f l) a = f (c.overArc l a)

section Matches

variable {c : Carrier V E L} {c' : Carrier V E L'} {f : L → L'} (h : c.Along c' f)
include h

theorem Item.overEntries_map (t : RuleTable V) (items : List (Item L)) (entries : List E) :
    overEntries c' t (items.map (map f)) entries =
      (overEntries c t items entries).map (map f) := by
  have hone (item : Item L) (e : E) :
      (item.map f).overLabel? c' t e = (item.overLabel? c t e).map (map f) := by
    simp only [overLabel?, h.label]
    rw [apply_ite (Option.map (map f)), Option.map_some]
    simp only [map, h.overEntry, Option.map_none]
  rw [overEntries_eq, overEntries_eq, List.flatMap_map, List.map_flatMap]
  congr 1
  funext item
  rw [List.map_filterMap]
  exact List.filterMap_congr fun e _ => hone item e

theorem Item.overArcs_map (t : RuleTable V) (o : Options V) (items : List (Item L))
    (position : Nat) (arcs : List (Arc V)) :
    overArcs c' t o (items.map (map f)) position arcs =
      (overArcs c t o items position arcs).map (Prod.map id (map f)) := by
  have hone (item : Item L) (a : Arc V) :
      (item.map f).overArc? c' t o a = (item.overArc? c t o a).map (map f) := by
    unfold overArc?
    simp only [apply_ite (Option.map (map f)), Option.map_some, Option.map_none]
    simp only [map, h.overArc]
  unfold overArcs
  rw [List.map_flatMap]
  congr 1
  funext a
  rw [List.filterMap_map, List.map_filterMap]
  refine List.filterMap_congr fun item _ => ?_
  rw [Function.comp_apply, hone, Option.map_map, Option.map_map]
  rfl

namespace Track

theorem map_start (size : Nat) (t : RuleTable V) :
    (start c size t).map f = start c' size t := by
  have hstart : map f ∘ start c size = start c' size := by
    funext t
    have hchart : (((List.range size).foldl (fun chart position => chart.modify position position
        (· ++ [Item.start c])) (Chart.new size)).map (List.map (Item.map f))) =
        (List.range size).foldl (fun chart position => chart.modify position position
          (· ++ [Item.start c'])) (Chart.new size) := by
      rw [← Chart.map_new (f := List.map (Item.map f)) rfl size]
      refine (List.foldl_hom (Chart.map (List.map (Item.map f))) fun chart position => ?_).symm
      refine (chart.map_modify position position fun items => ?_).symm
      rw [List.map_append, Item.start, Item.start, h.start]
      rfl
    simp only [Function.comp_apply, start, map, apply_ite (Chart.map (List.map (Item.map f))),
      hchart, Chart.map_new (f := List.map (Item.map f)) rfl]
  exact congrFun hstart t

theorem fromSplits_map (entries : (first last : Nat) → List E) (first last : Nat)
    (tr : Track V L) :
    (tr.map f).fromSplits c' entries first last =
      (tr.fromSplits c entries first last).map (Item.map f) := by
  unfold fromSplits
  rw [List.map_flatMap]
  congr 1
  funext middle
  rw [map, Chart.get_map (f := List.map (Item.map f)) rfl, Item.overEntries_map h]

theorem fromArcs_map (o : Options V) (lattice : Lattice V) (first last : Nat) (tr : Track V L) :
    (tr.map f).fromArcs c' o lattice first last =
      (tr.fromArcs c o lattice first last).map (Prod.map id (Item.map f)) := by
  unfold fromArcs
  split
  · rfl
  · rw [map, Chart.get_map (f := List.map (Item.map f)) rfl, Item.overArcs_map h]

theorem advance_map (o : Options V) (lattice : Lattice V)
    (entries : (first last : Nat) → List E) (first last distance : Nat) (tr : Track V L) :
    (tr.map f).advance c' o lattice entries first last distance =
      (tr.advance c o lattice entries first last distance).map f := by
  have hdeliver (chart : Chart (List (Item L))) (arrivals : List (Nat × Item L)) :
      deliver (chart.map (List.map (Item.map f))) first (arrivals.map (Prod.map id (Item.map f))) =
        (deliver chart first arrivals).map (List.map (Item.map f)) := by
    rw [deliver, deliver, List.foldl_map]
    refine List.foldl_hom (Chart.map (List.map (Item.map f))) fun chart arrival => ?_
    exact (chart.map_modify first arrival.1 fun items => List.map_append).symm
  by_cases hcovers : tr.table.covers distance = true
  · have hjoin (joined : List (Item L)) : (tr.items.modify first last (· ++ joined)).map
        (List.map (Item.map f)) = (tr.items.map (List.map (Item.map f))).modify first last
          (· ++ joined.map (Item.map f)) :=
      tr.items.map_modify first last fun _ => List.map_append
    rw [advance, advance, if_pos hcovers, if_pos (show (tr.map f).table.covers distance = true
      from hcovers), fromArcs_map h, fromSplits_map h]
    simp only [map, ← hdeliver, hjoin]
  · rw [advance, advance, if_neg hcovers,
      if_neg (show ¬(tr.map f).table.covers distance = true from hcovers)]

theorem beginWith_map (entries : List E) (first last distance : Nat) (tr : Track V L) :
    (tr.map f).beginWith c' entries first last distance =
      (tr.beginWith c entries first last distance).map f := by
  by_cases hcovers : tr.table.covers distance = true
  · have hbegin (begun : List (Item L)) : (tr.items.modify first last (· ++ begun)).map
        (List.map (Item.map f)) = (tr.items.map (List.map (Item.map f))).modify first last
          (· ++ begun.map (Item.map f)) :=
      tr.items.map_modify first last fun _ => List.map_append
    rw [beginWith, beginWith, if_pos hcovers, if_pos (show (tr.map f).table.covers distance = true
      from hcovers)]
    simp only [map, hbegin, Chart.get_map (f := List.map (Item.map f)) rfl,
      Item.overEntries_map h]
  · rw [beginWith, beginWith, if_neg hcovers,
      if_neg (show ¬(tr.map f).table.covers distance = true from hcovers)]

omit h in
theorem completed_map (first last : Nat) (tr : Track V L) :
    (tr.map f).completed first last =
      (tr.completed first last).map (Prod.map id f) := by
  rw [completed, completed, map, Chart.get_map (f := List.map (Item.map f)) rfl, List.flatMap_map,
    List.map_flatMap]
  simp only [List.map_map]
  rfl

end Track

end Matches

end ParseForest
