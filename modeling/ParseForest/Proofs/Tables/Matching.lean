import ParseForest.Proofs.Tables.Access

/-!
# Matching with tables

The items of a rule table at every span, brought together with checked accesses. Entries are given
by number, so a `TableCarrier` looks their labels up. What is found corresponds to what a track
finds: items in the same states whose loads correspond, cell by cell.

A parser takes the cell of a span out of its chart while it fills it, and so does `advanceAt?`.
`forTables?` goes through the tables of a grammar by their numbers.
-/

namespace ParseForest

variable {V E E' L L' σ τ : Type}

structure TableCarrier (V E L : Type) where
  label? : E → Option Symbol
  start : L
  overEntry : L → E → L
  overArc : L → Arc V → L

structure Item.Like (t : RuleTable V) (C : L' → L → Prop) (a : Item L') (b : Item L) : Prop where
  state : a.state = b.state
  bound : (b.state : Nat) < t.states.size
  load : C a.load b.load

structure TableCarrier.StandsFor (k : TableCarrier V E' L') (c : Carrier V E L)
    (N : E' → E → Prop) (C : L' → L → Prop) : Prop where
  label : ∀ e' e, N e' e → k.label? e' = some (c.label e)
  start : C k.start c.start
  overEntry : ∀ l' l e' e, C l' l → N e' e → C (k.overEntry l' e') (c.overEntry l e)
  overArc : ∀ l' l a, C l' l → C (k.overArc l' a) (c.overArc l a)

/-! ## Items -/

namespace Item

variable (k : TableCarrier V E' L') (t : RuleTable V) (o : Options V)

def overEntryAt? (item : Item L') (e : E') : Option (List (Item L')) := do
  let label ← k.label? e
  let state ← t.next? item.state label
  return if state = RuleTable.root then [] else [⟨state, k.overEntry item.load e⟩]

def overEntriesAt? (items : List (Item L')) (entries : List E') : Option (List (Item L')) :=
  gather (fun item => do
    let more ← t.hasNext? item.state
    if more then gather (overEntryAt? k t item) entries else return []) items

def overArcAt? (position : Nat) (a : Arc V) (item : Item L') : Option (List (Nat × Item L')) := do
  let word := t.wordFor o a.label
  if word.isEpsilon then return [(position + a.distance, ⟨item.state, k.overArc item.load a⟩)]
  else
    let state ← t.next? item.state word
    return if state = RuleTable.root then []
      else [(position + a.distance, ⟨state, k.overArc item.load a⟩)]

def overArcsAt? (items : List (Item L')) (position : Nat) (arcs : List (Arc V)) :
    Option (List (Nat × Item L')) :=
  gather (fun a => gather (overArcAt? k t o position a) items) arcs

variable {k t o} {c : Carrier V E L} {N : E' → E → Prop} {C : L' → L → Prop}

theorem like_start (hk : k.StandsFor c N C) (ht : t.Closed) :
    Like t C ⟨RuleTable.root, k.start⟩ (start c) :=
  ⟨rfl, ht.root_lt, hk.start⟩

theorem yields_overEntryAt (hk : k.StandsFor c N C) (ht : t.Closed) {a : Item L'} {b : Item L}
    (h : Like t C a b) (e' : E') (e : E) (he : N e' e) :
    Yields (overEntryAt? k t a e') (List.Forall₂ (Like t C) · (b.overLabel? c t e).toList) := by
  rw [overEntryAt?, hk.label e' e he, h.state]
  simp only [Option.bind_eq_bind, Option.bind_some, RuleTable.next?_eq_some h.bound, overLabel?]
  by_cases hroot : t.next b.state (c.label e) = RuleTable.root
  · simp only [hroot, if_true]
    exact yields_some .nil
  · simp only [hroot, if_false]
    exact yields_some (.cons ⟨rfl, ht.next_lt _ _, hk.overEntry _ _ _ _ h.load he⟩ .nil)

theorem yields_overEntriesAt (hk : k.StandsFor c N C) (ht : t.Closed) {items' : List (Item L')}
    {items : List (Item L)} {entries' : List E'} {entries : List E}
    (hitems : List.Forall₂ (Like t C) items' items) (hentries : List.Forall₂ N entries' entries) :
    Yields (overEntriesAt? k t items' entries')
      (List.Forall₂ (Like t C) · (overEntries c t items entries)) := by
  refine yields_gather (fun a b hab => ?_) hitems
  rw [hab.state, RuleTable.hasNext?_eq_some hab.bound]
  cases hmore : t.hasNext b.state with
  | false => exact yields_some .nil
  | true =>
    rw [if_pos rfl, List.filterMap_eq_flatMap_toList]
    exact yields_gather (yields_overEntryAt hk ht hab) hentries

def Arrives (t : RuleTable V) (C : L' → L → Prop) (a : Nat × Item L') (b : Nat × Item L) : Prop :=
  a.1 = b.1 ∧ Like t C a.2 b.2

theorem yields_overArcAt (hk : k.StandsFor c N C) (ht : t.Closed) (position : Nat) (arc : Arc V)
    {a : Item L'} {b : Item L} (h : Like t C a b) :
    Yields (overArcAt? k t o position arc a) (List.Forall₂ (Arrives t C) ·
      ((b.overArc? c t o arc).map fun next => (position + arc.distance, next)).toList) := by
  have hload := hk.overArc _ _ arc h.load
  unfold overArcAt? overArc?
  simp only [h.state]
  by_cases hword : (t.wordFor o arc.label).isEpsilon = true
  · simp only [hword, if_true]
    exact yields_some (.cons ⟨rfl, rfl, h.bound, hload⟩ .nil)
  · rw [if_neg hword, if_neg hword, RuleTable.next?_eq_some h.bound]
    simp only [Option.bind_eq_bind, Option.bind_some]
    by_cases hroot : t.next b.state (t.wordFor o arc.label) = RuleTable.root
    · simp only [hroot, if_true]
      exact yields_some .nil
    · simp only [hroot, if_false]
      exact yields_some (.cons ⟨rfl, rfl, ht.next_lt _ _, hload⟩ .nil)

theorem yields_overArcsAt (hk : k.StandsFor c N C) (ht : t.Closed) {items' : List (Item L')}
    {items : List (Item L)} (hitems : List.Forall₂ (Like t C) items' items) (position : Nat)
    (arcs : List (Arc V)) :
    Yields (overArcsAt? k t o items' position arcs)
      (List.Forall₂ (Arrives t C) · (overArcs c t o items position arcs)) := by
  refine yields_gather (Q := Eq) (fun arc arc' harc => ?_) (List.forall₂_refl arcs)
  subst harc
  rw [List.filterMap_eq_flatMap_toList]
  exact yields_gather (fun a b hab => yields_overArcAt hk ht position arc hab) hitems

end Item

/-! ## The items of one table -/

abbrev ItemChart (L : Type) := Chart (List (Item L))

abbrev ItemChart.Like (t : RuleTable V) (C : L' → L → Prop) :
    ItemChart L' → ItemChart L → Prop :=
  Chart.Cellwise (List.Forall₂ (Item.Like t C))

abbrev OpenChart (L : Type) := List (Item L) × ItemChart L

structure OpenChart.Like (t : RuleTable V) (C : L' → L → Prop) (first last : Nat)
    (s : OpenChart L') (items : ItemChart L) : Prop where
  size : s.2.size = items.size
  here : List.Forall₂ (Item.Like t C) s.1 (items.get first last)
  other : ∀ i j, ¬(i = first ∧ j = last) →
    List.Forall₂ (Item.Like t C) (s.2.get i j) (items.get i j)

namespace ItemChart

variable (k : TableCarrier V E' L') (t : RuleTable V) (o : Options V) (lattice : Lattice V)
variable (entries? : (first last : Nat) → Option (List E'))

def startAt? (size : Nat) (items : ItemChart L') : Option (ItemChart L') :=
  if t.covers 0 then
    (List.range size).foldlM
      (fun items position =>
        items.modify? position position (· ++ [⟨RuleTable.root, k.start⟩])) items
  else return items

def splitsAt? (first last : Nat) (items : ItemChart L') : Option (List (Item L')) :=
  gather (fun middle => do
    let before ← items.get? first middle
    let after ← entries? middle last
    Item.overEntriesAt? k t before after) (List.range' (first + 1) (last - first - 1))

def arrivalsAt? (first last : Nat) (items : ItemChart L') : Option (List (Nat × Item L')) := do
  let position ← minus? last 1
  let before ← items.get? first position
  let arcs ← lattice.arcsAt? position
  Item.overArcsAt? k t o before position arcs

def deliverAt? (first last : Nat) (s : OpenChart L') (arrivals : List (Nat × Item L')) :
    Option (OpenChart L') :=
  arrivals.foldlM (fun (cell, items) (stop, item) =>
    if stop = last then return (cell ++ [item], items)
    else do
      let items ← items.modify? first stop (· ++ [item])
      return (cell, items)) s

def advanceAt? (first last : Nat) (s : OpenChart L') : Option (OpenChart L') := do
  let joined ← splitsAt? k t entries? first last s.2
  let s := (s.1 ++ joined, s.2)
  if o.treebank && last != first + 1 then return s
  else
    let arrivals ← arrivalsAt? k t o lattice first last s.2
    deliverAt? first last s arrivals

def beginAt? (first last : Nat) (items : ItemChart L') : Option (ItemChart L') := do
  let (cell, items) ← items.take? first last
  let begun ← items.get? first first
  let entries ← entries? first last
  let more ← Item.overEntriesAt? k t begun entries
  items.set? first last (cell ++ more)

variable {k t o lattice entries?} {c : Carrier V E L} {N : E' → E → Prop} {C : L' → L → Prop}
  {items' : ItemChart L'} {items : ItemChart L} {first last : Nat}

theorem Like.modify_append (h : Like t C items' items) (first last : Nat) {new' : List (Item L')}
    {new : List (Item L)} (hnew : List.Forall₂ (Item.Like t C) new' new) :
    Like t C (items'.modify first last (· ++ new')) (items.modify first last (· ++ new)) :=
  h.modify fun _ => List.rel_append (h.cell first last) hnew

theorem yields_startAt (hk : k.StandsFor c N C) (ht : t.Closed) {size : Nat}
    (h : Like t C items' (Chart.new size)) :
    Yields (startAt? k t size items') (Like t C · (Track.start c size t).items) := by
  unfold startAt? Track.start
  cases t.covers 0 with
  | false => exact yields_some h
  | true =>
    have hstep (items' : ItemChart L') (items : ItemChart L) (position : Nat)
        (hposition : position ∈ List.range size) (h : items'.size = size ∧ Like t C items' items) :
        Yields (items'.modify? position position (· ++ [⟨RuleTable.root, k.start⟩])) fun r =>
          r.size = size ∧
            Like t C r (items.modify position position (· ++ [Item.start c])) := by
      have hlt := List.mem_range.mp hposition
      have hspan : items'.IsSpan position position := ⟨le_rfl, by omega⟩
      rw [Chart.modify?_eq_some hspan]
      exact yields_some ⟨by rw [Chart.size_modify, h.1],
        h.2.modify_append _ _ (.cons (Item.like_start hk ht) .nil)⟩
    exact (yields_foldlM_same hstep ⟨h.size, h⟩).mono fun _ h => h.2

theorem yields_splitsAt (hk : k.StandsFor c N C) (ht : t.Closed)
    {entries : (first last : Nat) → List E} {tr : Track V L} (htable : tr.table = t)
    (hspan : last ≤ items'.size)
    (hitems : ∀ middle, first < middle → middle < last → List.Forall₂ (Item.Like t C)
      (items'.get first middle) (tr.items.get first middle))
    (hentries : ∀ middle, first < middle → middle < last →
      Yields (entries? middle last) (List.Forall₂ N · (entries middle last))) :
    Yields (splitsAt? k t entries? first last items')
      (List.Forall₂ (Item.Like t C) · (tr.fromSplits c entries first last)) := by
  subst htable
  have hsame : List.Forall₂ (fun m n => m = n ∧ first < m ∧ m < last)
      (List.range' (first + 1) (last - first - 1)) (List.range' (first + 1) (last - first - 1)) :=
    List.forall₂_same.mpr fun m hm => by
      have := List.mem_range'_1.mp hm
      exact ⟨rfl, by omega, by omega⟩
  refine yields_gather (fun m n hmn => ?_) hsame
  obtain ⟨rfl, hfirst, hlast⟩ := hmn
  rw [Chart.get?_eq_some_get ⟨by omega, by omega⟩]
  exact (hentries m hfirst hlast).bind fun _ hafter =>
    Item.yields_overEntriesAt hk ht (hitems m hfirst hlast) hafter

theorem yields_arrivalsAt (hk : k.StandsFor c N C) (ht : t.Closed) (hfl : first < last)
    (hlast : last ≤ lattice.size) (hsize : items'.size = lattice.size)
    (hitems : List.Forall₂ (Item.Like t C) (items'.get first (last - 1))
      (items.get first (last - 1))) :
    Yields (arrivalsAt? k t o lattice first last items')
      (List.Forall₂ (Item.Arrives t C) · (Item.overArcs c t o (items.get first (last - 1))
        (last - 1) (lattice.arcsAt (last - 1)))) := by
  rw [arrivalsAt?, minus?_eq_some (by omega)]
  simp only [Option.bind_eq_bind, Option.bind_some]
  rw [Chart.get?_eq_some_get ⟨by omega, by omega⟩, Lattice.arcsAt?_eq_some (by omega)]
  exact Item.yields_overArcsAt hk ht hitems _ _

end ItemChart

namespace OpenChart

variable {t : RuleTable V} {C : L' → L → Prop} {first last : Nat} {items' : ItemChart L'}
  {s : OpenChart L'} {items : ItemChart L}

theorem like_take (h : ItemChart.Like t C items' items) (hspan : items'.IsSpan first last) :
    Yields (items'.take? first last) (Like t C first last · items) := by
  rw [Chart.take?_eq_some hspan]
  refine yields_some ⟨(Chart.size_modify ..).trans h.size, h.cell first last, fun i j hij => ?_⟩
  rw [Chart.get_set _ _ _ _ _ _ hspan, if_neg hij]
  exact h.cell i j

theorem Like.isSpan_iff (h : Like t C first last s items) (i j : Nat) :
    s.2.IsSpan i j ↔ items.IsSpan i j := by
  rw [Chart.IsSpan, Chart.IsSpan, h.size]

theorem Like.close (h : Like t C first last s items) (hspan : items.IsSpan first last) :
    Yields (s.2.set? first last s.1) (ItemChart.Like t C · items) := by
  have hspan' := (h.isSpan_iff first last).mpr hspan
  rw [Chart.set?_eq_some hspan']
  refine yields_some ⟨(Chart.size_modify ..).trans h.size, fun i j => ?_⟩
  rw [Chart.get_set _ _ _ _ _ _ hspan']
  by_cases hij : i = first ∧ j = last
  · rw [if_pos hij, hij.1, hij.2]
    exact h.here
  · rw [if_neg hij]
    exact h.other i j hij

theorem Like.append (h : Like t C first last s items) (hspan : items.IsSpan first last)
    {new' : List (Item L')} {new : List (Item L)} (hnew : List.Forall₂ (Item.Like t C) new' new) :
    Like t C first last (s.1 ++ new', s.2) (items.modify first last (· ++ new)) := by
  refine ⟨h.size.trans (Chart.size_modify ..).symm, ?_, fun i j hij => ?_⟩
  · rw [Chart.get_modify_self _ _ hspan]
    exact List.rel_append h.here hnew
  · rw [Chart.get_modify_other _ _ hij]
    exact h.other i j hij

theorem Like.modify (h : Like t C first last s items) {stop : Nat} (hstop : stop ≠ last)
    (hspan : items.IsSpan first stop) {a : Item L'} {b : Item L} (hab : Item.Like t C a b) :
    Like t C first last (s.1, s.2.modify first stop (· ++ [a]))
      (items.modify first stop (· ++ [b])) := by
  have hspan' := (h.isSpan_iff first stop).mpr hspan
  refine ⟨by simp [Chart.size_modify, h.size], ?_, fun i j hij => ?_⟩
  · rw [Chart.get_modify_other _ _ fun hl => hstop hl.2.symm]
    exact h.here
  · rw [Chart.get_modify _ _ _ _ _ _ hspan', Chart.get_modify _ _ _ _ _ _ hspan]
    split
    · exact List.rel_append (h.other i j hij) (.cons hab .nil)
    · exact h.other i j hij

theorem Like.deliverAt (h : Like t C first last s items) {arrivals' : List (Nat × Item L')}
    {arrivals : List (Nat × Item L)}
    (harrivals : List.Forall₂ (Item.Arrives t C) arrivals' arrivals)
    (hspans : ∀ a ∈ arrivals, items.IsSpan first a.1) :
    Yields (ItemChart.deliverAt? first last s arrivals')
      (Like t C first last · (Track.deliver items first arrivals)) := by
  induction harrivals generalizing s items with
  | nil => exact yields_some h
  | @cons a b as bs hab _ ih =>
    have hspan : items.IsSpan first a.1 := hab.1 ▸ hspans b List.mem_cons_self
    have hrest : ∀ a' ∈ bs, (items.modify first a.1 (· ++ [b.2])).IsSpan first a'.1 := fun a' ha' =>
      have hs := hspans a' (List.mem_cons_of_mem _ ha')
      ⟨hs.1, by simpa [Chart.size_modify] using hs.2⟩
    rw [ItemChart.deliverAt?, List.foldlM_cons]
    change Yields _ (Like t C first last ·
      (Track.deliver (items.modify first b.1 (· ++ [b.2])) first bs))
    rw [← hab.1]
    by_cases hlast : a.1 = last
    · simp only [hlast, if_true] at hspan hrest ⊢
      exact ih (h.append hspan (.cons hab.2 .nil)) hrest
    · simp only [hlast, if_false]
      rw [Chart.modify?_eq_some ((h.isSpan_iff _ _).mpr hspan)]
      exact ih (h.modify hlast hspan hab.2) hrest

end OpenChart

namespace ItemChart

variable {k : TableCarrier V E' L'} {t : RuleTable V} {o : Options V} {lattice : Lattice V}
  {entries? : (first last : Nat) → Option (List E')} {c : Carrier V E L} {N : E' → E → Prop}
  {C : L' → L → Prop} {entries : (first last : Nat) → List E} {first last : Nat}

theorem yields_advanceAt (hk : k.StandsFor c N C) {tr : Track V L} (ht : tr.table.Closed)
    {s : OpenChart L'} (h : OpenChart.Like tr.table C first last s tr.items) (hfl : first < last)
    (hlast : last ≤ lattice.size) (hsize : tr.items.size = lattice.size) {distance : Nat}
    (hcovers : tr.table.covers distance = true)
    (hentries : ∀ middle, first < middle → middle < last →
      Yields (entries? middle last) (List.Forall₂ N · (entries middle last))) :
    Yields (advanceAt? k tr.table o lattice entries? first last s)
      (OpenChart.Like tr.table C first last ·
        (tr.advance c o lattice entries first last distance).items) := by
  have hspan : tr.items.IsSpan first last := ⟨by omega, by omega⟩
  have hsize' : s.2.size = lattice.size := h.size.trans hsize
  rw [Track.advance, if_pos hcovers]
  refine (yields_splitsAt hk ht rfl (by omega) (fun middle _ hm => h.other _ _ ?_) hentries).bind
    fun joined hjoined => ?_
  · omega
  have hlike := h.append hspan hjoined
  simp only [Track.fromArcs]
  cases o.treebank && last != first + 1 with
  | true => exact yields_some hlike
  | false =>
    have hbefore : List.Forall₂ (Item.Like tr.table C) (s.2.get first (last - 1))
        (tr.items.get first (last - 1)) := h.other _ _ (by omega)
    refine (yields_arrivalsAt hk ht hfl hlast hsize' hbefore).bind
      fun arrivals harrivals => hlike.deliverAt harrivals ?_
    · intro a ha
      have hs := Track.isSpan_of_overArcs hsize (show first ≤ last - 1 by omega) a ha
      exact ⟨hs.1, by simpa [Chart.size_modify] using hs.2⟩

theorem yields_beginAt (hk : k.StandsFor c N C) {tr : Track V L} (ht : tr.table.Closed)
    {items' : ItemChart L'} (h : Like tr.table C items' tr.items) (hfl : first < last)
    (hlast : last ≤ tr.items.size) {distance : Nat} (hcovers : tr.table.covers distance = true)
    {found : List E} (hentries : Yields (entries? first last) (List.Forall₂ N · found)) :
    Yields (beginAt? k tr.table entries? first last items')
      (Like tr.table C · (tr.beginWith c found first last distance).items) := by
  have hspan : tr.items.IsSpan first last := ⟨by omega, hlast⟩
  rw [Track.beginWith, if_pos hcovers]
  refine (OpenChart.like_take h (h.isSpan_iff.mpr hspan)).bind fun s hs => ?_
  simp only
  rw [Chart.get?_eq_some_get ((hs.isSpan_iff _ _).mpr ⟨le_rfl, by omega⟩)]
  refine hentries.bind fun after hafter => ?_
  refine (Item.yields_overEntriesAt hk ht (hs.other first first (by omega)) hafter).bind
    fun more hmore => ?_
  exact (hs.append hspan hmore).close ⟨by omega, by simpa [Chart.size_modify] using hlast⟩

end ItemChart

/-! ## The items of all tables -/

abbrev ItemCharts (L : Type) := Array (ItemChart L)

def forTables? (g : Grammar V) (step? : RuleTable V → ItemChart L × σ → Option (ItemChart L × σ))
    (s : ItemCharts L × σ) : Option (ItemCharts L × σ) :=
  (List.range g.length).foldlM (fun (charts, s) i => do
    let t ← g[i]?
    let items ← charts[i]?
    let (items, s) ← step? t (items, s)
    return (charts.setIfInBounds i items, s)) s

structure ItemCharts.Like (g : Grammar V) (C : L' → L → Prop) (charts : ItemCharts L')
    (tracks : List (Track V L)) : Prop where
  tables : tracks.map Track.table = g
  size : charts.size = tracks.length
  items : ∀ (i : Nat) items' tr, charts[i]? = some items' → tracks[i]? = some tr →
    ItemChart.Like tr.table C items' tr.items

namespace ItemCharts.Like

variable {g : Grammar V} {C C' : L' → L → Prop} {charts : ItemCharts L'}
  {tracks : List (Track V L)}

theorem mono (h : Like g C charts tracks) (hRL : ∀ a b, C a b → C' a b) :
    Like g C' charts tracks :=
  ⟨h.tables, h.size, fun i items' tr hi htr => (h.items i items' tr hi htr).mono fun _ _ hl =>
    hl.imp fun _ _ hab => ⟨hab.state, hab.bound, hRL _ _ hab.load⟩⟩

theorem set (h : Like g C charts tracks) {i : Nat} {tr tr' : Track V L}
    (htr : tracks[i]? = some tr) (htable : tr'.table = tr.table) {items : ItemChart L'}
    (hitems : ItemChart.Like tr'.table C items tr'.items) :
    Like g C (charts.setIfInBounds i items) (tracks.set i tr') := by
  refine ⟨?_, by simpa using h.size, fun j items' tr'' hj htr'' => ?_⟩
  · rw [← h.tables]
    refine List.ext_getElem? fun j => ?_
    by_cases hij : i = j
    · obtain ⟨hi, rfl⟩ := List.getElem?_eq_some_iff.mp htr
      simp [← hij, hi, htable]
    · simp [hij]
  · by_cases hij : i = j
    · subst hij
      have hi := (List.getElem?_eq_some_iff.mp htr).1
      have hi' : i < charts.size := by rw [h.size]; exact hi
      simp [hi'] at hj
      simp [hi] at htr''
      rw [← hj, ← htr'']
      exact hitems
    · rw [List.getElem?_set_ne hij] at htr''
      rw [Array.getElem?_setIfInBounds_ne hij] at hj
      exact h.items j items' tr'' hj htr''

end ItemCharts.Like

def changeFirst {A : Type} (f : A → A) (l : List A) (i : Nat) : List A :=
  (l.take i).map f ++ l.drop i

theorem getElem?_changeFirst {A : Type} (f : A → A) {l : List A} {i : Nat} (hi : i < l.length) :
    (changeFirst f l i)[i]? = some l[i] := by
  have hmin : min i l.length = i := by omega
  rw [changeFirst, List.getElem?_append_right (by simp [hmin])]
  simp [hmin]

theorem set_changeFirst {A : Type} (f : A → A) {l : List A} {i : Nat} (hi : i < l.length) :
    (changeFirst f l i).set i (f l[i]) = changeFirst f l (i + 1) := by
  have hmin : min i l.length = i := by omega
  rw [changeFirst, changeFirst, List.set_append_right _ _ (by simp [hmin]),
    List.take_succ_eq_append_getElem hi, List.drop_eq_getElem_cons hi, List.length_map,
    List.length_take, hmin, Nat.sub_self, List.set_cons_zero, List.map_append, List.append_assoc]
  rfl

theorem yields_forTables {g : Grammar V} {C : L' → L → Prop} {R : σ → τ → Prop}
    {step? : RuleTable V → ItemChart L' × σ → Option (ItemChart L' × σ)}
    (advance : Track V L → Track V L) (f : τ → Track V L → τ) {charts : ItemCharts L'}
    {tracks : List (Track V L)} (h : ItemCharts.Like g C charts tracks)
    (htable : ∀ tr ∈ tracks, (advance tr).table = tr.table)
    (step : ∀ tr ∈ tracks, ∀ items s t, ItemChart.Like tr.table C items tr.items → R s t →
      Yields (step? tr.table (items, s)) fun r =>
        ItemChart.Like tr.table C r.1 (advance tr).items ∧ R r.2 (f t (advance tr)))
    {s : σ} {t : τ} (hst : R s t) :
    Yields (forTables? g step? (charts, s)) fun r =>
      ItemCharts.Like g C r.1 (tracks.map advance) ∧ R r.2 ((tracks.map advance).foldl f t) := by
  have hlength : g.length = tracks.length := by rw [← h.tables, List.length_map]
  let P (i : Nat) (r : ItemCharts L' × σ) : Prop :=
    ItemCharts.Like g C r.1 (changeFirst advance tracks i) ∧
      R r.2 (((tracks.take i).map advance).foldl f t)
  have hstep : ∀ i < g.length, ∀ r, P i r → Yields (do
      let t ← g[i]?
      let items ← r.1[i]?
      let (items, rest) ← step? t (items, r.2)
      return (r.1.setIfInBounds i items, rest)) (P (i + 1)) := by
    intro i hi r ⟨hcharts, hr⟩
    have hi' : i < tracks.length := by omega
    have hmem := List.getElem_mem hi'
    have hg : g[i]? = some tracks[i].table := by simp [← h.tables, hi']
    have hsize : i < r.1.size := by
      rw [hcharts.size, changeFirst]
      simp
      omega
    have hitems := hcharts.items i _ _ (Array.getElem?_eq_getElem hsize)
      (getElem?_changeFirst advance hi')
    simp only [hg, Array.getElem?_eq_getElem hsize, Option.bind_eq_bind, Option.bind_some]
    refine (step _ hmem _ _ _ hitems hr).bind fun r' hr' => yields_some ⟨?_, ?_⟩
    · rw [← set_changeFirst advance hi']
      exact hcharts.set (getElem?_changeFirst advance hi') (htable _ hmem)
        ((htable _ hmem).symm ▸ hr'.1)
    · rw [List.take_succ_eq_append_getElem hi', List.map_append, List.foldl_append]
      exact hr'.2
  have hstart : P 0 (charts, s) := ⟨by simpa [changeFirst] using h, by simpa using hst⟩
  refine (yields_foldlM_range hstep hstart).mono fun r hr => ?_
  simp only [P, changeFirst, hlength, List.take_length, List.drop_length, List.append_nil] at hr
  exact hr

def startTables? (g : Grammar V) (k : TableCarrier V E L) (size : Nat) (charts : ItemCharts L) :
    Option (ItemCharts L) := do
  let (charts, _) ← forTables? g
    (fun t (items, s) => (ItemChart.startAt? k t size items).map (·, s)) (charts, ())
  return charts

theorem size_start (c : Carrier V E L) (size : Nat) (t : RuleTable V) :
    (Track.start c size t).items.size = size := by
  have hloop (positions : List Nat) (items : ItemChart L) : (positions.foldl
      (fun items position => items.modify position position (· ++ [Item.start c]))
      items).size = items.size := by
    induction positions generalizing items with
    | nil => rfl
    | cons position positions ih => rw [List.foldl_cons, ih, Chart.size_modify]
  unfold Track.start
  cases t.covers 0 with
  | false => rfl
  | true => exact hloop _ _

theorem yields_startTables {g : Grammar V} {k : TableCarrier V E' L'} {c : Carrier V E L}
    {N : E' → E → Prop} {C : L' → L → Prop} (hk : k.StandsFor c N C)
    (hclosed : ∀ t ∈ g, t.Closed) (size : Nat) :
    Yields (startTables? g k size (Array.replicate g.length (Chart.new size)))
      (ItemCharts.Like g C · (g.map (Track.start c size))) := by
  have hblank : ItemCharts.Like g C (Array.replicate g.length (Chart.new size))
      (g.map fun t => ⟨t, Chart.new size⟩) := by
    refine ⟨by simp [Function.comp_def], by simp, fun i items tr hitems htr => ?_⟩
    rw [List.getElem?_map, Option.map_eq_some_iff] at htr
    obtain ⟨t, -, rfl⟩ := htr
    rw [(Array.mem_replicate.mp (Array.mem_of_getElem? hitems)).2]
    exact Chart.Cellwise.new .nil _
  have hstart (tr : Track V L) (htr : tr ∈ g.map fun t => ⟨t, Chart.new size⟩)
      (items : ItemChart L') (s u : Unit) (hitems : ItemChart.Like tr.table C items tr.items)
      (hs : s = u) : Yields ((ItemChart.startAt? k tr.table size items).map (·, s)) fun r =>
        ItemChart.Like tr.table C r.1 (Track.start c size tr.table).items ∧ r.2 = u := by
    obtain ⟨t, ht, rfl⟩ := List.mem_map.mp htr
    exact ((ItemChart.yields_startAt hk (hclosed t ht) hitems).mono fun _ h => ⟨h, hs⟩).map
  refine (yields_forTables (fun tr => Track.start c size tr.table)
    (fun u _ => u) hblank (fun tr _ => rfl) hstart rfl).bind fun r hr => yields_some ?_
  simpa [Function.comp_def] using hr.1

/-! ## One span -/

/-- What a parser that keeps `σ` does with its items: their entries, and what is built from a match
of rule pairs. -/
structure TableParser (V E L σ : Type) where
  carrier : σ → TableCarrier V E L
  entries? : σ → (first last : Nat) → Option (List E)
  build? : σ → List (RulePair V) → L → Option σ

namespace TableParser

def bring? (p : TableParser V E' L' σ) (o : Options V) (lattice : Lattice V)
    (first last distance : Nat) (t : RuleTable V) (s : σ) (opened : OpenChart L') :
    Option (OpenChart L') :=
  if t.covers distance then
    ItemChart.advanceAt? (p.carrier s) t o lattice (p.entries? s) first last opened
  else some opened

def buildAll? (p : TableParser V E' L' σ) (skipped : Bool) (t : RuleTable V)
    (items : List (Item L')) (s : σ) : Option σ :=
  if skipped then some s
  else
    items.foldlM (fun s item => do
      let pairs ← t.rulesAt? item.state
      p.build? s pairs item.load) s

def fillTable? (p : TableParser V E' L' σ) (o : Options V) (lattice : Lattice V)
    (first last distance : Nat) (skipped : Bool) (t : RuleTable V) (s : ItemChart L' × σ) :
    Option (ItemChart L' × σ) := do
  let opened ← s.1.take? first last
  let opened ← p.bring? o lattice first last distance t s.2 opened
  let rest ← p.buildAll? skipped t opened.1 s.2
  let items ← opened.2.set? first last opened.1
  return (items, rest)

def beginTables? (p : TableParser V E' L' σ) (g : Grammar V) (first last distance : Nat)
    (charts : ItemCharts L') (s : σ) : Option (ItemCharts L' × σ) :=
  forTables? g (fun t (items, s) =>
    if t.covers distance then
      (ItemChart.beginAt? (p.carrier s) t (p.entries? s) first last items).map (·, s)
    else some (items, s)) (charts, s)

variable {p : TableParser V E' L' σ} {c : Carrier V E L} {o : Options V} {lattice : Lattice V}
  {N : E' → E → Prop} {C : L' → L → Prop} {R : σ → τ → Prop} {g : Grammar V}
  {entries : (first last : Nat) → List E} {h : τ → RulePair V × L → τ} {charts : ItemCharts L'}
  {tracks : List (Track V L)} {first last distance : Nat} {s : σ} {t : τ}

theorem size_advance (tr : Track V L) :
    (tr.advance c o lattice entries first last distance).items.size = tr.items.size := by
  unfold Track.advance
  split
  · simp only [Track.size_deliver, Chart.size_modify]
  · rfl

theorem size_beginWith (tr : Track V L) (found : List E) :
    (tr.beginWith c found first last distance).items.size = tr.items.size := by
  unfold Track.beginWith
  split
  · exact Chart.size_modify ..
  · rfl

theorem yields_bring {tr : Track V L} {opened : OpenChart L'}
    (hk : (p.carrier s).StandsFor c N C) (hclosed : tr.table.Closed)
    (hentries : ∀ middle, first < middle → middle < last →
      Yields (p.entries? s middle last) (List.Forall₂ N · (entries middle last)))
    (hspan : first < last ∧ last ≤ lattice.size) (hsize : tr.items.size = lattice.size)
    (hopened : OpenChart.Like tr.table C first last opened tr.items) :
    Yields (p.bring? o lattice first last distance tr.table s opened)
      (OpenChart.Like tr.table C first last ·
        (tr.advance c o lattice entries first last distance).items) := by
  rw [bring?]
  split
  · rename_i hcovers
    exact ItemChart.yields_advanceAt hk hclosed hopened hspan.1 hspan.2 hsize hcovers hentries
  · rename_i hcovers
    rw [Track.advance, if_neg hcovers]
    exact yields_some hopened

theorem yields_buildAll {tr : Track V L} {opened : OpenChart L'}
    (hbuild : ∀ s t load' load pairs, R s t → C load' load →
      Yields (p.build? s pairs load') (R · (pairs.foldl (fun t pair => h t (pair, load)) t)))
    (hopened : OpenChart.Like tr.table C first last opened tr.items) (skipped : Bool)
    (hst : R s t) :
    Yields (p.buildAll? skipped tr.table opened.1 s) fun s =>
      R s (if skipped then t else (tr.completed first last).foldl h t) := by
  rw [buildAll?]
  split
  · exact yields_some hst
  · rw [Track.completed, List.foldl_flatMap]
    refine yields_foldlM (fun s t a b hst hab => ?_) hopened.here hst
    rw [hab.state, RuleTable.rulesAt?_eq_some hab.bound, List.foldl_map]
    exact hbuild s t _ _ _ hst hab.load

theorem yields_fillTable {tr : Track V L} {items : ItemChart L'}
    (hk : (p.carrier s).StandsFor c N C) (hclosed : tr.table.Closed)
    (hentries : ∀ middle, first < middle → middle < last →
      Yields (p.entries? s middle last) (List.Forall₂ N · (entries middle last)))
    (hbuild : ∀ s t load' load pairs, R s t → C load' load →
      Yields (p.build? s pairs load') (R · (pairs.foldl (fun t pair => h t (pair, load)) t)))
    (hspan : first < last ∧ last ≤ lattice.size) (hsize : tr.items.size = lattice.size)
    (hitems : ItemChart.Like tr.table C items tr.items) (skipped : Bool) (hst : R s t) :
    Yields (p.fillTable? o lattice first last distance skipped tr.table (items, s)) fun r =>
      ItemChart.Like tr.table C r.1
        (tr.advance c o lattice entries first last distance).items ∧
      R r.2 (if skipped then t else
        ((tr.advance c o lattice entries first last distance).completed first last).foldl h t) := by
  have hin : tr.items.IsSpan first last := ⟨by omega, by rw [hsize]; exact hspan.2⟩
  have hin' : (tr.advance c o lattice entries first last distance).items.IsSpan first last :=
    ⟨by omega, by rw [size_advance, hsize]; exact hspan.2⟩
  have htable : (tr.advance c o lattice entries first last distance).table = tr.table :=
    tr.table_advance _ _ _
  refine (OpenChart.like_take hitems (hitems.isSpan_iff.mpr hin)).bind fun opened hopened => ?_
  refine (yields_bring hk hclosed hentries hspan hsize hopened).bind fun opened' hopened' => ?_
  rw [← htable] at hopened' ⊢
  refine (yields_buildAll hbuild hopened' skipped hst).bind fun rest hrest => ?_
  exact (hopened'.close hin').bind fun items' hitems' => yields_some ⟨hitems', hrest⟩

theorem foldl_completed (skipped : Bool) (tracks : List (Track V L)) (t : τ) :
    tracks.foldl (fun t tr => if skipped then t else (tr.completed first last).foldl h t) t =
      if skipped then t else (tracks.flatMap (Track.completed first last)).foldl h t := by
  cases skipped with
  | true => induction tracks with
    | nil => rfl
    | cons tr tracks ih => exact ih
  | false => simp [List.foldl_flatMap]

theorem yields_fillTables (hclosed : ∀ t ∈ g, t.Closed)
    (hcarrier : ∀ s t, R s t → (p.carrier s).StandsFor c N C)
    (hentries : ∀ s t, R s t → ∀ middle, first < middle → middle < last →
      Yields (p.entries? s middle last) (List.Forall₂ N · (entries middle last)))
    (hbuild : ∀ s t load' load pairs, R s t → C load' load →
      Yields (p.build? s pairs load') (R · (pairs.foldl (fun t pair => h t (pair, load)) t)))
    (hspan : first < last ∧ last ≤ lattice.size)
    (hsize : ∀ tr ∈ tracks, tr.items.size = lattice.size)
    (hcharts : ItemCharts.Like g C charts tracks) (skipped : Bool) (hst : R s t) :
    Yields (forTables? g (p.fillTable? o lattice first last distance skipped) (charts, s)) fun r =>
      ItemCharts.Like g C r.1
        (tracks.map (Track.advance c o lattice entries first last distance)) ∧
      R r.2 (if skipped then t else
        ((tracks.map (Track.advance c o lattice entries first last distance)).flatMap
          (Track.completed first last)).foldl h t) := by
  rw [← foldl_completed]
  refine yields_forTables (Track.advance c o lattice entries first last distance) _ hcharts
    (fun tr _ => tr.table_advance _ _ _) (fun tr htr items s t hitems hst => ?_) hst
  have hg : tr.table ∈ g := hcharts.tables ▸ List.mem_map_of_mem htr
  exact yields_fillTable (hcarrier s t hst) (hclosed _ hg) (hentries s t hst) hbuild hspan
    (hsize tr htr) hitems skipped hst

theorem yields_beginTables (hclosed : ∀ t ∈ g, t.Closed) {found : List E}
    (hcarrier : (p.carrier s).StandsFor c N C)
    (hentries : Yields (p.entries? s first last) (List.Forall₂ N · found))
    (hspan : first < last ∧ last ≤ lattice.size)
    (hsize : ∀ tr ∈ tracks, tr.items.size = lattice.size)
    (hcharts : ItemCharts.Like g C charts tracks) :
    Yields (p.beginTables? g first last distance charts s) fun r =>
      ItemCharts.Like g C r.1 (tracks.map (Track.beginWith c found first last distance)) ∧
        r.2 = s := by
  have hstep (tr : Track V L) (htr : tr ∈ tracks) (items : ItemChart L') (s' : σ) (_ : Unit)
      (hitems : ItemChart.Like tr.table C items tr.items) (hs' : s' = s) :
      Yields (if tr.table.covers distance then
        (ItemChart.beginAt? (p.carrier s') tr.table (p.entries? s') first last items).map (·, s')
        else some (items, s')) fun r =>
          ItemChart.Like tr.table C r.1 (tr.beginWith c found first last distance).items ∧
            r.2 = s := by
    subst hs'
    have hg : tr.table ∈ g := hcharts.tables ▸ List.mem_map_of_mem htr
    have hlast : last ≤ tr.items.size := by rw [hsize tr htr]; exact hspan.2
    split
    · rename_i hcovers
      exact ((ItemChart.yields_beginAt hcarrier (hclosed _ hg) hitems hspan.1 hlast hcovers
        hentries).mono fun items' hitems' => ⟨hitems', rfl⟩).map
    · rename_i hcovers
      rw [Track.beginWith, if_neg hcovers]
      exact yields_some ⟨hitems, rfl⟩
  exact yields_forTables (R := fun s' (_ : Unit) => s' = s)
    (Track.beginWith c found first last distance) (fun u _ => u) hcharts
    (fun tr _ => tr.table_beginWith found _ _ _) hstep (t := ()) rfl

end TableParser

end ParseForest
