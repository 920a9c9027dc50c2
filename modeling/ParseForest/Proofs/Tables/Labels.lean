import ParseForest.Proofs.Posterior.Fill
import ParseForest.Proofs.Tables.Access

/-!
# Labels by number

A scoring parser numbers the labels as they come up and keeps what it knows of a label in arrays,
at the number of the label. An array is as long as the largest number that has been used with it.
Here such arrays are compared with maps from labels, under a list of labels that only grows at its
end. New labels do not disturb what is stored, and every number in use is that of a label.
-/

namespace ParseForest

variable {α β S : Type}

theorem getElem?_of_extends {labels labels' : List α} (h : labels <+: labels') {id : Nat} {label : α}
    (hid : labels[id]? = some label) : labels'[id]? = some label := by
  obtain ⟨more, rfl⟩ := h
  rw [List.getElem?_append_left (List.getElem?_eq_some_iff.mp hid).1, hid]

theorem eq_of_same_label {labels : List α} (hnodup : labels.Nodup) {id id' : Nat} {label : α}
    (h : labels[id]? = some label) (h' : labels[id']? = some label) : id = id' :=
  (List.getElem?_inj (List.getElem?_eq_some_iff.mp h).1 hnodup).mp (h.trans h'.symm)

structure LabelTable where
  symbols : Array Symbol
  ids : LabelMap Nat

namespace LabelTable

def blank : LabelTable := ⟨#[], []⟩

def number (t : LabelTable) (label : Symbol) : LabelTable × Nat :=
  match LabelMap.get? t.ids label with
  | some id => (t, id)
  | none =>
    (⟨t.symbols.push label, LabelMap.insert t.ids label t.symbols.size⟩, t.symbols.size)

structure Numbers (t : LabelTable) (labels : List Symbol) : Prop where
  symbols : t.symbols.toList = labels
  nodup : labels.Nodup
  ids : ∀ label id, LabelMap.get? t.ids label = some id ↔ labels[id]? = some label

variable {t : LabelTable} {labels : List Symbol}

theorem numbers_blank : blank.Numbers [] :=
  ⟨rfl, .nil, fun label id => by simp [blank, LabelMap.get?]⟩

theorem Numbers.symbol (h : t.Numbers labels) (id : Nat) : t.symbols[id]? = labels[id]? := by
  rw [← h.symbols, Array.getElem?_toList]

theorem noteLabel_of_mem {label : Symbol} (h : label ∈ labels) : noteLabel labels label = labels :=
  if_pos (List.contains_iff_mem.mpr h)

theorem noteLabel_of_not_mem {label : Symbol} (h : label ∉ labels) :
    noteLabel labels label = labels ++ [label] :=
  if_neg (mt List.contains_iff_mem.mp h)

theorem Numbers.number (h : t.Numbers labels) (label : Symbol) :
    (t.number label).1.Numbers (noteLabel labels label) ∧
      (noteLabel labels label)[(t.number label).2]? = some label := by
  unfold LabelTable.number
  cases hget : LabelMap.get? t.ids label with
  | some id =>
    have hid := (h.ids label id).mp hget
    rw [noteLabel_of_mem (List.mem_of_getElem? hid)]
    exact ⟨h, hid⟩
  | none =>
    have hsize : t.symbols.size = labels.length := by simp [← h.symbols]
    have hnew : label ∉ labels := fun hmem => by
      obtain ⟨id, hid⟩ := List.getElem?_of_mem hmem
      simp [(h.ids label id).mpr hid] at hget
    have hnodup := ScoreState.nodup_noteLabel h.nodup label
    rw [noteLabel_of_not_mem hnew] at hnodup ⊢
    refine ⟨⟨by simp [h.symbols], hnodup, fun l id => ?_⟩, by simp [hsize]⟩
    rw [LabelMap.insert, LabelMap.get?_upsert, hsize]
    by_cases hl : l = label
    · subst hl
      simp only [if_true, Option.some.injEq]
      constructor
      · rintro rfl
        simp
      · intro hid
        exact eq_of_same_label hnodup List.getElem?_concat_length hid
    · rw [if_neg hl, h.ids]
      constructor
      · intro hid
        rw [List.getElem?_append_left (List.getElem?_eq_some_iff.mp hid).1, hid]
      · intro hid
        rcases Nat.lt_or_ge id labels.length with hlt | hge
        · rwa [List.getElem?_append_left hlt] at hid
        · rw [List.getElem?_append_right hge] at hid
          have := List.mem_of_getElem? hid
          exact absurd (List.mem_singleton.mp this) hl

end LabelTable

/-! ## Arrays by number -/

def alterAt? (blank : α) (a : Array α) (id : Nat) (f : α → α) : Option (Array α) :=
  let a := a ++ Array.replicate (id + 1 - a.size) blank
  if id < a.size then some (a.modify id f) else none

theorem alterAt?_eq_some (blank : α) (a : Array α) (id : Nat) (f : α → α) :
    alterAt? blank a id f =
      some ((a ++ Array.replicate (id + 1 - a.size) blank).modify id f) :=
  if_pos (by simp; omega)

theorem getD_grown (blank : α) (a : Array α) (n i : Nat) :
    (a ++ Array.replicate n blank).getD i blank = a.getD i blank := by
  simp only [Array.getD_eq_getD_getElem?, Array.getElem?_append, Array.getElem?_replicate]
  split
  · rfl
  · rename_i h
    simp [Nat.not_lt.mp h]
    split <;> rfl

theorem getD_altered {blank : α} {a : Array α} {id n : Nat} (h : id < a.size + n) (f : α → α)
    (i : Nat) : ((a ++ Array.replicate n blank).modify id f).getD i blank =
      if i = id then f (a.getD id blank) else a.getD i blank := by
  rw [← getD_grown blank a n id, ← getD_grown blank a n i]
  simp only [Array.getD_eq_getD_getElem?, Array.getElem?_modify]
  by_cases hi : id = i
  · subst hi
    simp [h]
  · simp [hi, Ne.symm hi]

/-- The array has at the number of each label what the map has for the label. Numbers beyond it
are those of labels without a value. -/
structure Stored (labels : List Symbol) (blank : α) (R : α → Option β → Prop) (a : Array α)
    (m : LabelMap β) : Prop where
  size : a.size ≤ labels.length
  value : ∀ (id : Nat) label, labels[id]? = some label → R (a.getD id blank) (LabelMap.get? m label)
  held : ∀ label x, LabelMap.get? m label = some x → ∃ id < a.size, labels[id]? = some label
  nodup : (LabelMap.keys m).Nodup

namespace Stored

variable {labels labels' : List Symbol} {blank : α} {R : α → Option β → Prop} {a : Array α}
  {m : LabelMap β}

theorem empty (h : R blank none) : Stored labels blank R #[] [] :=
  ⟨Nat.zero_le _, fun _ _ _ => h, fun _ _ hx => by simp [LabelMap.get?] at hx, .nil⟩

theorem mono {R' : α → Option β → Prop} (h : Stored labels blank R a m)
    (hR : ∀ x o, R x o → R' x o) : Stored labels blank R' a m :=
  ⟨h.size, fun id label hid => hR _ _ (h.value id label hid), h.held, h.nodup⟩

theorem grow (h : Stored labels blank R a m) (hR : R blank none) (hext : labels <+: labels')
    (hnodup : labels'.Nodup) : Stored labels' blank R a m := by
  refine ⟨Nat.le_trans h.size hext.length_le, fun id label hid => ?_, fun label x hx => ?_, h.nodup⟩
  · rcases Nat.lt_or_ge id labels.length with hlt | hge
    · have hsame := getElem?_of_extends hext (List.getElem?_eq_getElem hlt)
      rw [hid] at hsame
      exact h.value id label (by rw [List.getElem?_eq_getElem hlt, hsame])
    · have hblank : a.getD id blank = blank := by
        simp [Nat.le_trans h.size hge]
      have hnone : LabelMap.get? m label = none := by
        by_contra hsome
        obtain ⟨x, hx⟩ := Option.ne_none_iff_exists'.mp hsome
        obtain ⟨i, hi, hlabel⟩ := h.held label x hx
        have heq := eq_of_same_label hnodup hid (getElem?_of_extends hext hlabel)
        have := h.size
        omega
      rw [hblank, hnone]
      exact hR
  · obtain ⟨id, hid, hlabel⟩ := h.held label x hx
    exact ⟨id, hid, getElem?_of_extends hext hlabel⟩

theorem alter (h : Stored labels blank R a m) (hnodup : labels.Nodup) {id : Nat} {label : Symbol}
    (hid : labels[id]? = some label) {f : α → α} {g : Option β → β}
    (hfg : ∀ x o, R x o → R (f x) (some (g o))) :
    Yields (alterAt? blank a id f) (Stored labels blank R · (LabelMap.upsert label g m)) := by
  have hlt := (List.getElem?_eq_some_iff.mp hid).1
  have hsize := h.size
  rw [alterAt?_eq_some]
  refine yields_some ⟨by simp; omega, fun i l hi => ?_, fun l x hx => ?_,
    LabelMap.nodup_keys_upsert h.nodup label g⟩
  · rw [getD_altered (by omega), LabelMap.get?_upsert]
    by_cases heq : i = id
    · subst heq
      obtain rfl : label = l := Option.some.inj (hid.symm.trans hi)
      simp only [if_true]
      exact hfg _ _ (h.value i label hid)
    · have hne : l ≠ label := by
        rintro rfl
        exact heq (eq_of_same_label hnodup hi hid)
      rw [if_neg heq, if_neg hne]
      exact h.value i l hi
  · rw [LabelMap.get?_upsert] at hx
    by_cases hl : l = label
    · subst hl
      exact ⟨id, by simp; omega, hid⟩
    · rw [if_neg hl] at hx
      obtain ⟨i, hi, hlabel⟩ := h.held l x hx
      exact ⟨i, by simp; omega, hlabel⟩

theorem pad (h : Stored labels blank R a m) {n : Nat} (hsize : a.size + n ≤ labels.length) :
    Stored labels blank R (a ++ Array.replicate n blank) m := by
  refine ⟨by simpa using hsize, fun id label hid => ?_, fun label x hx => ?_, h.nodup⟩
  · rw [getD_grown]
    exact h.value id label hid
  · obtain ⟨id, hid, hlabel⟩ := h.held label x hx
    exact ⟨id, by simp; omega, hlabel⟩

end Stored

namespace Chart

def alter? (c : Chart (Array α)) (first last : Nat) (blank : α) (id : Nat) (f : α → α) :
    Option (Chart (Array α)) := do
  let cell ← c.get? first last
  let cell ← alterAt? blank cell id f
  c.set? first last cell

theorem Cellwise.alter {labels : List Symbol} {blank : α} {R : α → Option β → Prop}
    {c : Chart (Array α)} {d : Chart (LabelMap β)} {first last : Nat}
    (h : Cellwise (Stored labels blank R) c d) (hspan : d.IsSpan first last)
    (hnodup : labels.Nodup) {id : Nat} {label : Symbol} (hid : labels[id]? = some label)
    {f : α → α} {g : Option β → β} (hfg : ∀ x o, R x o → R (f x) (some (g o))) :
    Yields (c.alter? first last blank id f) (Cellwise (Stored labels blank R) ·
      (d.modify first last (LabelMap.upsert label g))) := by
  have hspan' := h.isSpan_iff.mpr hspan
  rw [alter?, get?_eq_some_get hspan']
  refine ((h.cell first last).alter hnodup hid hfg).bind fun cell hcell => ?_
  rw [set?_eq_some hspan']
  exact yields_some (h.modify fun _ => hcell)

theorem size_le_alter {c c' : Chart (Array α)} {first last : Nat} (hspan : c.IsSpan first last)
    {blank : α} {id : Nat} {f : α → α} (h : c.alter? first last blank id f = some c') (i j : Nat) :
    (c.get i j).size ≤ (c'.get i j).size := by
  rw [alter?, get?_eq_some_get hspan, Option.bind_eq_bind, Option.bind_some, alterAt?_eq_some,
    Option.bind_some, set?_eq_some hspan] at h
  obtain rfl := Option.some.inj h
  rw [get_set _ _ _ _ _ _ hspan]
  split
  · rename_i hij
    rw [hij.1, hij.2]
    simp
  · exact Nat.le_refl _

theorem Cellwise.grow {labels labels' : List Symbol} {blank : α} {R : α → Option β → Prop}
    {c : Chart (Array α)} {d : Chart (LabelMap β)} (h : Cellwise (Stored labels blank R) c d)
    (hR : R blank none) (hext : labels <+: labels') (hnodup : labels'.Nodup) :
    Cellwise (Stored labels' blank R) c d :=
  h.mono fun _ _ hs => hs.grow hR hext hnodup

end Chart

/-! ## Scores and edges -/

def scoreAt [Score S] (scores : Array S) (id : Nat) : S := scores.getD id Score.zero

def nonEmpty {E : Type} (cell : Array (Array E)) : List Nat :=
  (List.range cell.size).filter fun id => !(cell.getD id #[]).isEmpty

def IsScore [Score S] (x : S) (o : Option S) : Prop := x = o.getD Score.zero

def AreEdges {E E' : Type} (Q : E' → E → Prop) (es' : Array E') (es : Option (Array E)) : Prop :=
  (es.isSome = !es'.isEmpty) ∧ List.Forall₂ Q es'.toList (es.getD #[]).toList

section

variable {labels : List Symbol} {first last : Nat}

theorem isScore_best [Score S] (score : S) (x : S) (o : Option S) (h : IsScore x o) :
    IsScore (Score.best x score) (some (Score.best (o.getD Score.zero) score)) := by
  rw [IsScore, h]
  rfl

theorem Stored.scoreAt_eq [Score S] {a : Array S} {m : LabelMap S}
    (h : Stored labels Score.zero IsScore a m) {id : Nat} {label : Symbol}
    (hid : labels[id]? = some label) : scoreAt a id = scoreOf m label :=
  h.value id label hid

variable {E E' : Type} {Q : E' → E → Prop}

theorem areEdges_none : AreEdges Q #[] none := ⟨rfl, .nil⟩

theorem areEdges_push {e' : E'} {e : E} (he : Q e' e) (es' : Array E') (es : Option (Array E))
    (h : AreEdges Q es' es) : AreEdges Q (es'.push e') (some ((es.getD #[]).push e)) := by
  refine ⟨by simp, ?_⟩
  simpa using List.rel_append h.2 (.cons he .nil)

theorem AreEdges.mono {Q' : E' → E → Prop} (hQ : ∀ e' e, Q e' e → Q' e' e) (es' : Array E')
    (es : Option (Array E)) (h : AreEdges Q es' es) : AreEdges Q' es' es :=
  ⟨h.1, h.2.imp hQ⟩

theorem Stored.edges {cell : Array (Array E')} {m : EdgeMap E}
    (h : Stored labels #[] (AreEdges Q) cell m) {id : Nat} {label : Symbol}
    (hid : labels[id]? = some label) :
    List.Forall₂ Q (cell.getD id #[]).toList (m.edges label).toList :=
  (h.value id label hid).2

theorem Stored.has {cell : Array (Array E')} {m : EdgeMap E}
    (h : Stored labels #[] (AreEdges Q) cell m) {id : Nat} {label : Symbol}
    (hid : labels[id]? = some label) : m.has label = !(cell.getD id #[]).isEmpty :=
  (h.value id label hid).1

theorem forall₂_range_take (labels : List α) {n : Nat} (h : n ≤ labels.length) :
    List.Forall₂ (fun id label => labels[id]? = some label) (List.range n) (labels.take n) := by
  refine List.forall₂_iff_get.mpr ⟨by simp [h], fun i hi hi' => ?_⟩
  rw [List.length_range] at hi
  have hlt : i < labels.length := by omega
  simp [hlt]

theorem Stored.among_eq {cell : Array (Array E')} {m : EdgeMap E}
    (h : Stored labels #[] (AreEdges Q) cell m) (hnodup : labels.Nodup) :
    m.among labels = (labels.take cell.size).filter m.has := by
  have hbeyond : (labels.drop cell.size).filter m.has = [] := by
    refine List.filter_eq_nil_iff.mpr fun label hlabel hhas => ?_
    obtain ⟨es, hes⟩ := Option.isSome_iff_exists.mp hhas
    obtain ⟨id, hid, hsame⟩ := h.held label es hes
    obtain ⟨i, hi⟩ := List.getElem?_of_mem hlabel
    rw [List.getElem?_drop] at hi
    have := eq_of_same_label hnodup hi hsame
    omega
  rw [EdgeMap.among, ← List.append_nil (List.filter _ (labels.take _)), ← hbeyond,
    ← List.filter_append, List.take_append_drop]

theorem Stored.nonEmpty_among {cell : Array (Array E')} {m : EdgeMap E}
    (h : Stored labels #[] (AreEdges Q) cell m) (hnodup : labels.Nodup) :
    List.Forall₂ (fun id label => labels[id]? = some label) (nonEmpty cell) (m.among labels) := by
  rw [h.among_eq hnodup, nonEmpty]
  refine List.rel_filter (fun id label hid => ?_) (forall₂_range_take labels h.size)
  change _ ↔ m.has label = true
  rw [h.has hid]

theorem Stored.foldl_among {cell : Array (Array E')} {m : EdgeMap E}
    (h : Stored labels #[] (AreEdges Q) cell m) (hnodup : labels.Nodup) {f : α → Symbol → α}
    (hf : ∀ x label, m.has label = false → f x label = x) (x : α) :
    (m.among labels).foldl f x = (labels.take cell.size).foldl f x := by
  rw [h.among_eq hnodup, List.foldl_filter]
  congr 1
  funext x label
  split
  · rfl
  · exact (hf x label (Bool.eq_false_iff.mpr ‹_›)).symm

end

end ParseForest
