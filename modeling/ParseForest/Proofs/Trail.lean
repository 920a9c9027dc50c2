import Mathlib.Data.List.Forall2
import ParseForest.Matching
import ParseForest.Proofs.Enumeration
import ParseForest.Proofs.Spans

/-!
# Trails of items

A trail says how an item has come about: over which entries and over which arcs, and where each
of them begins. `Trail.item?` is the item at the end of a trail, and `Trail.Over` says that the
trail runs from one position to another over the given entries.

The state that is reached depends on the labels of the entries only, so two trails that take the
same steps over entries with the same labels reach the same state; `Along` relates such trails.
-/

namespace ParseForest

variable {V E L : Type}

inductive Trail (E : Type)
  | start
  | entry (before : Trail E) (position : Nat) (e : E)
  | arc (before : Trail E) (position index : Nat)
  deriving DecidableEq

def listed (entries : (first last : Nat) → List E) (first last : Nat) : Set E :=
  {e | e ∈ entries first last}

namespace Trail

/-- The number of the arc does not count as a step when the lattice has no such arc. -/
def item? (c : Carrier V E L) (t : RuleTable V) (o : Options V) (lattice : Lattice V) :
    Trail E → Option (Item L)
  | start => some (Item.start c)
  | entry x _ e => (x.item? c t o lattice).bind fun item => item.overLabel? c t e
  | arc x p k => (x.item? c t o lattice).bind fun item =>
      ((lattice.arcsAt p)[k]?).bind fun a => item.overArc? c t o a

def state? (label : E → Symbol) (t : RuleTable V) (o : Options V) (lattice : Lattice V) :
    Trail E → Option StateId
  | start => some RuleTable.root
  | entry x _ e => (x.state? label t o lattice).bind fun s =>
      if t.next s (label e) = RuleTable.root then none else some (t.next s (label e))
  | arc x p k => (x.state? label t o lattice).bind fun s =>
      ((lattice.arcsAt p)[k]?).bind fun a =>
        if (t.wordFor o a.label).isEpsilon then some s
        else if t.next s (t.wordFor o a.label) = RuleTable.root then none
        else some (t.next s (t.wordFor o a.label))

def load (c : Carrier V E L) (lattice : Lattice V) : Trail E → L
  | start => c.start
  | entry x _ e => c.overEntry (x.load c lattice) e
  | arc x p k =>
    match (lattice.arcsAt p)[k]? with
    | some a => c.overArc (x.load c lattice) a
    | none => x.load c lattice

theorem item?_eq (c : Carrier V E L) (t : RuleTable V) (o : Options V) (lattice : Lattice V)
    (x : Trail E) : x.item? c t o lattice =
      (x.state? c.label t o lattice).map fun s => ⟨s, x.load c lattice⟩ := by
  induction x with
  | start => rfl
  | entry x p e ih =>
    rw [item?, state?, ih]
    cases x.state? c.label t o lattice with
    | none => rfl
    | some s =>
      simp only [Option.map_some, Option.bind_some, Item.overLabel?, load]
      split <;> rfl
  | arc x p k ih =>
    rw [item?, state?, ih, load]
    cases x.state? c.label t o lattice with
    | none => rfl
    | some s =>
      cases (lattice.arcsAt p)[k]? with
      | none => rfl
      | some a =>
        simp only [Option.map_some, Option.bind_some, Item.overArc?]
        split
        · rfl
        · split <;> rfl

def entries : Trail E → List E
  | start => []
  | entry x _ e => x.entries ++ [e]
  | arc x _ _ => x.entries

/-- The trail runs from `first` to a position over entries that begin and end where `entries`
has them. The spans on the way are covered by the table; in a treebank an arc is only taken where
the trail begins. -/
def Over (t : RuleTable V) (o : Options V) (lattice : Lattice V)
    (entries : (first last : Nat) → Set E) (first : Nat) : Trail E → Nat → Prop
  | start, last => last = first ∧ first < lattice.size ∧ t.covers 0 = true
  | entry x p e, last => x.Over t o lattice entries first p ∧ p < last ∧ last ≤ lattice.size ∧
      e ∈ entries p last ∧ t.covers (lattice.distanceTable.length first last) = true
  | arc x p k, last => x.Over t o lattice entries first p ∧
      t.covers (lattice.distanceTable.length first (p + 1)) = true ∧
      (o.treebank = true → p = first) ∧
      ∃ a, (lattice.arcsAt p)[k]? = some a ∧ last = p + a.distance

def Arrived (done : List (Nat × Nat)) (first last : Nat) : Trail E → Prop
  | start => True
  | entry _ _ _ => (first, last) ∈ done
  | arc _ p _ => (first, p + 1) ∈ done

def Joins (s : Nat × Nat) (first last : Nat) : Trail E → Prop
  | start => False
  | entry _ p _ => first = s.1 ∧ last = s.2 ∧ s.1 < p
  | arc _ p _ => first = s.1 ∧ p + 1 = s.2

def Begins (s : Nat × Nat) (first last : Nat) : Trail E → Prop
  | entry _ p _ => first = s.1 ∧ last = s.2 ∧ p = s.1
  | _ => False

section

variable {t : RuleTable V} {o : Options V} {lattice : Lattice V}
  {entries : (first last : Nat) → Set E} {s : Nat × Nat} {i j : Nat} {x : Trail E}

theorem Joins.first_eq (h : x.Joins s i j) : i = s.1 := by
  cases x with
  | start => cases h
  | entry x p e => exact h.1
  | arc x p k => exact h.1

theorem Joins.not_arrived (h : x.Joins s i j) {done : List (Nat × Nat)} (hs : s ∉ done) :
    ¬x.Arrived done i j := by
  cases x with
  | start => cases h
  | entry x p e =>
    obtain ⟨rfl, rfl, -⟩ := h
    exact hs
  | arc x p k =>
    intro hdone
    rw [Arrived, h.1, h.2] at hdone
    exact hs hdone

theorem Over.covers_of_joins {first last : Nat} (h : x.Over t o lattice entries i j)
    (hx : x.Joins (first, last) i j) :
    t.covers (lattice.distanceTable.length first last) = true := by
  cases x with
  | start => cases hx
  | entry x p e =>
    obtain ⟨rfl, rfl, -⟩ := hx
    exact h.2.2.2.2
  | arc x p k =>
    obtain ⟨rfl, rfl⟩ : i = first ∧ p + 1 = last := hx
    exact h.2.1

theorem Begins.exists_entry (h : x.Begins s i j) : ∃ y e, x = entry y i e := by
  cases x with
  | start => cases h
  | entry x p e => exact ⟨x, e, by rw [h.2.2, h.1]⟩
  | arc x p k => cases h

theorem Begins.span_eq (h : x.Begins s i j) : i = s.1 ∧ j = s.2 := by
  obtain ⟨y, e, rfl⟩ := h.exists_entry
  exact ⟨h.1, h.2.1⟩

theorem Over.covers_of_begins {first last : Nat} (h : x.Over t o lattice entries i j)
    (hx : x.Begins (first, last) i j) :
    t.covers (lattice.distanceTable.length first last) = true := by
  obtain ⟨rfl, rfl⟩ : i = first ∧ j = last := hx.span_eq
  obtain ⟨y, e, rfl⟩ := hx.exists_entry
  exact h.2.2.2.2

end

end Trail

namespace Lattice

variable {lattice : Lattice V}

theorem mem_arcsAt_iff {p k : Nat} {a : Arc V} :
    (lattice.arcsAt p)[k]? = some a ↔ (a, k) ∈ (lattice.arcsAt p).zipIdx := by
  rw [List.mem_zipIdx_iff_getElem?]

theorem arc_bounds {p : Nat} {a : Arc V} (ha : a ∈ lattice.arcsAt p) :
    0 < a.distance ∧ p + a.distance ≤ lattice.size := by
  unfold arcsAt at ha
  cases hrow : lattice.arcs[p]? with
  | none => simp [hrow] at ha
  | some row =>
    rw [hrow, Option.getD_some] at ha
    have hmem : (row, p) ∈ lattice.arcs.zipIdx := List.mem_zipIdx_iff_getElem?.mpr hrow
    have hfault := lattice.inside (row, p) hmem a ha
    unfold Arc.fault? at hfault
    unfold size
    split at hfault
    · cases hfault
    · split at hfault
      · cases hfault
      · simp only at *
        omega

theorem size_of_isEmpty (lattice : Lattice V) (h : lattice.isEmpty = true) :
    lattice.size = 0 := by
  rw [isEmpty, List.isEmpty_iff] at h
  rw [size, h]
  rfl

theorem arc_bounds_of_getElem? {p k : Nat} {a : Arc V} (ha : (lattice.arcsAt p)[k]? = some a) :
    0 < a.distance ∧ p + a.distance ≤ lattice.size :=
  arc_bounds (List.mem_of_getElem? ha)

end Lattice

namespace Trail

variable {c : Carrier V E L} {t : RuleTable V} {o : Options V} {lattice : Lattice V}
variable {entries : (first last : Nat) → Set E}

theorem Over.bounds {first last : Nat} {x : Trail E}
    (h : x.Over t o lattice entries first last) : first ≤ last ∧ last ≤ lattice.size := by
  induction x generalizing last with
  | start =>
    obtain ⟨rfl, hlt, -⟩ := h
    omega
  | entry x p e ih =>
    obtain ⟨hx, hp, hn, -⟩ := h
    have := ih hx
    omega
  | arc x p k ih =>
    obtain ⟨hx, -, -, a, ha, rfl⟩ := h
    have hx := ih hx
    have ha := Lattice.arc_bounds_of_getElem? ha
    omega

theorem Over.eq_start {first : Nat} {x : Trail E}
    (h : x.Over t o lattice entries first first) : x = start := by
  cases x with
  | start => rfl
  | entry x p e =>
    obtain ⟨hx, hp, -⟩ := h
    have := hx.bounds
    omega
  | arc x p k =>
    obtain ⟨hx, -, -, a, ha, heq⟩ := h
    have hx := hx.bounds
    have ha := Lattice.arc_bounds_of_getElem? ha
    omega

def placed : Trail E → Nat → List (Nat × Nat × E)
  | start, _ => []
  | entry x p e, last => x.placed p ++ [(p, last, e)]
  | arc x p _, _ => x.placed p

theorem map_placed (x : Trail E) (last : Nat) : (x.placed last).map (·.2.2) = x.entries := by
  induction x generalizing last with
  | start => rfl
  | entry x p e ih => rw [placed, List.map_append, ih, entries]; rfl
  | arc x p k ih => exact ih p

theorem exists_placed {x : Trail E} {e : E} (he : e ∈ x.entries) (last : Nat) :
    ∃ p q, (p, q, e) ∈ x.placed last := by
  rw [← map_placed x last] at he
  obtain ⟨⟨p, q, e⟩, hmem, rfl⟩ := List.mem_map.mp he
  exact ⟨p, q, hmem⟩

theorem mem_entries_of_mem_placed {x : Trail E} {last p q : Nat} {e : E}
    (h : (p, q, e) ∈ x.placed last) : e ∈ x.entries := by
  rw [← map_placed x last]
  exact List.mem_map.mpr ⟨_, h, rfl⟩

theorem Over.mem_placed {first last p q : Nat} {e : E} {x : Trail E}
    (h : x.Over t o lattice entries first last) (he : (p, q, e) ∈ x.placed last) :
    first ≤ p ∧ p < q ∧ q ≤ last ∧ e ∈ entries p q := by
  induction x generalizing last with
  | start => cases he
  | entry x m e' ih =>
    obtain ⟨hx, hm, -, hmem, -⟩ := h
    have hb := hx.bounds
    rcases List.mem_append.mp he with he | he
    · have hi := ih hx he
      exact ⟨hi.1, hi.2.1, by omega, hi.2.2.2⟩
    · cases List.mem_singleton.mp he
      exact ⟨hb.1, hm, Nat.le_refl _, hmem⟩
  | arc x m k ih =>
    obtain ⟨hx, -, -, a, ha, rfl⟩ := h
    have hi := ih hx he
    exact ⟨hi.1, hi.2.1, by omega, hi.2.2.2⟩

theorem Over.begins_iff {first last : Nat} {x : Trail E}
    (h : x.Over t o lattice entries first last) :
    x.Begins (first, last) first last ↔ ∃ e, x = entry start first e := by
  constructor
  · intro hx
    cases x with
    | start => cases hx
    | entry x p e =>
      obtain ⟨-, -, rfl⟩ := hx
      exact ⟨e, by rw [h.1.eq_start]⟩
    | arc x p k => cases hx
  · rintro ⟨e, rfl⟩
    exact ⟨rfl, rfl, rfl⟩

/-- The entries of a trail that is not a single entry lie strictly inside its span. -/
theorem Over.placed_inside {first last p q : Nat} {e : E} {x : Trail E}
    (h : x.Over t o lattice entries first last) (hx : ¬x.Begins (first, last) first last)
    (he : (p, q, e) ∈ x.placed last) : q - p < last - first := by
  cases x with
  | start => cases he
  | entry x m e' =>
    obtain ⟨hover, hm, -⟩ := h
    have hb := hover.bounds
    have hne : m ≠ first := fun heq => hx ⟨rfl, rfl, heq⟩
    rcases List.mem_append.mp he with he | he
    · have hi := hover.mem_placed he
      omega
    · cases List.mem_singleton.mp he
      omega
  | arc x m k =>
    obtain ⟨hover, -, -, a, ha, rfl⟩ := h
    have hi := hover.mem_placed he
    have ha := Lattice.arc_bounds_of_getElem? ha
    omega

/-! ## Trails that take the same steps -/

variable {E' : Type}

def map (f : E → E') : Trail E → Trail E'
  | start => start
  | entry x p e => entry (x.map f) p (f e)
  | arc x p k => arc (x.map f) p k

theorem entries_map (f : E → E') (x : Trail E) : (x.map f).entries = x.entries.map f := by
  induction x with
  | start => rfl
  | entry x p e ih => rw [map, entries, entries, ih, List.map_append, List.map_singleton]
  | arc x p k ih => exact ih

theorem begins_map (f : E → E') (x : Trail E) (s : Nat × Nat) (first last : Nat) :
    (x.map f).Begins s first last ↔ x.Begins s first last := by
  cases x <;> exact Iff.rfl

inductive Along (R : (first last : Nat) → E → E' → Prop) : (last : Nat) → Trail E → Trail E' → Prop
  | start {last : Nat} : Along R last start start
  | entry {last p : Nat} {x : Trail E} {x' : Trail E'} {e : E} {e' : E'}
    (before : Along R p x x') (step : R p last e e') : Along R last (entry x p e) (entry x' p e')
  | arc {last p k : Nat} {x : Trail E} {x' : Trail E'} (before : Along R p x x') :
    Along R last (arc x p k) (arc x' p k)

namespace Along

variable {R : (first last : Nat) → E → E' → Prop} {last : Nat} {x : Trail E} {x' : Trail E'}

variable (R last x) in
theorem exists_of_placed (h : ∀ p q e, (p, q, e) ∈ x.placed last → ∃ e', R p q e e') :
    ∃ x', Along R last x x' := by
  induction x generalizing last with
  | start => exact ⟨Trail.start, Along.start⟩
  | entry x p e ih =>
    obtain ⟨x', hx'⟩ := ih p fun q r f hf => h q r f (List.mem_append_left _ hf)
    obtain ⟨e', he'⟩ := h p last e (List.mem_append_right _ List.mem_cons_self)
    exact ⟨Trail.entry x' p e', Along.entry hx' he'⟩
  | arc x p k ih =>
    obtain ⟨x', hx'⟩ := ih p h
    exact ⟨Trail.arc x' p k, Along.arc hx'⟩

variable (last x) in
theorem of_map {f : E → E'} (h : ∀ p q e, (p, q, e) ∈ x.placed last → R p q e (f e)) :
    Along R last x (x.map f) := by
  induction x generalizing last with
  | start => exact Along.start
  | entry x p e ih =>
    have hbefore := ih p fun q r e' he' => h q r e' (List.mem_append_left _ he')
    exact Along.entry hbefore (h p last e (List.mem_append_right _ List.mem_cons_self))
  | arc x p k ih => exact Along.arc (ih p h)

theorem forall₂_append_singleton {A B : Type} {S : A → B → Prop} {as : List A} {a : A}
    {bs : List B} (h : List.Forall₂ S (as ++ [a]) bs) :
    ∃ bs' b, List.Forall₂ S as bs' ∧ S a b ∧ bs = bs' ++ [b] := by
  rw [← List.forall₂_reverse_iff, List.reverse_append, List.reverse_singleton,
    List.singleton_append, List.forall₂_cons_left_iff] at h
  obtain ⟨b, bs', hb, hbs', heq⟩ := h
  refine ⟨bs'.reverse, b, ?_, hb, ?_⟩
  · rw [← List.forall₂_reverse_iff, List.reverse_reverse]
    exact hbs'
  · rw [← List.reverse_reverse bs, heq, List.reverse_cons]

theorem exists_of_forall₂ {Y : Type} {S : Y → E' → Prop} {l : List Y}
    (h : List.Forall₂ (fun a y => ∃ e', R a.1 a.2.1 a.2.2 e' ∧ S y e') (x.placed last) l) :
    ∃ x', Along R last x x' ∧ List.Forall₂ S l x'.entries := by
  induction x generalizing last l with
  | start =>
    cases h
    exact ⟨Trail.start, Along.start, List.Forall₂.nil⟩
  | entry x p e ih =>
    obtain ⟨l', y, hl', ⟨e', he', hy⟩, rfl⟩ := forall₂_append_singleton h
    obtain ⟨x', hx', hl⟩ := ih hl'
    refine ⟨Trail.entry x' p e', Along.entry hx' he', ?_⟩
    exact List.rel_append hl (List.Forall₂.cons hy List.Forall₂.nil)
  | arc x p k ih =>
    obtain ⟨x', hx', hl⟩ := ih h
    exact ⟨Trail.arc x' p k, Along.arc hx', hl⟩

theorem right_unique (hR : ∀ p q e e₁ e₂, R p q e e₁ → R p q e e₂ → e₁ = e₂) {y : Trail E'}
    (h : Along R last x x') (k : Along R last x y) : x' = y := by
  induction h generalizing y with
  | start =>
    cases k
    rfl
  | entry _ step ih =>
    cases k with
    | entry before step' => rw [ih before, hR _ _ _ _ _ step step']
  | arc _ ih =>
    cases k with
    | arc before => rw [ih before]

theorem eq_of_entries {S : (first last : Nat) → E → E' → Prop} {y : Trail E'}
    (h : Along R last x x') (k : Along S last x y) (heq : x'.entries = y.entries) : x' = y := by
  induction h generalizing y with
  | start =>
    cases k
    rfl
  | entry _ _ ih =>
    cases k with
    | entry before _ =>
      obtain ⟨hbefore, hlast⟩ := List.append_inj' heq rfl
      rw [ih before hbefore, List.singleton_inj.mp hlast]
  | arc _ ih =>
    cases k with
    | arc before => rw [ih before heq]

theorem forall₂_entries (h : Along R last x x') :
    List.Forall₂ (fun e e' => ∃ p q, R p q e e') x.entries x'.entries := by
  induction h with
  | start => exact .nil
  | entry _ step ih => exact List.rel_append ih (.cons ⟨_, _, step⟩ .nil)
  | arc _ ih => exact ih

theorem begins_iff (h : Along R last x x') (s : Nat × Nat) (first : Nat) :
    x.Begins s first last ↔ x'.Begins s first last := by
  cases h with
  | start => exact Iff.rfl
  | entry => exact Iff.rfl
  | arc => exact Iff.rfl

theorem refl {R : (first last : Nat) → E → E → Prop} {last : Nat} (x : Trail E)
    (h : ∀ p q e, R p q e e) : Along R last x x := by
  induction x generalizing last with
  | start => exact Along.start
  | entry x p e ih => exact Along.entry ih (h p last e)
  | arc x p k ih => exact Along.arc ih

theorem flip (h : Along R last x x') : Along (fun p q e' e => R p q e e') last x' x := by
  induction h with
  | start => exact Along.start
  | entry _ step ih => exact Along.entry ih step
  | arc _ ih => exact Along.arc ih

theorem imp {S : (first last : Nat) → E → E' → Prop} (hRS : ∀ p q e e', R p q e e' → S p q e e')
    (h : Along R last x x') : Along S last x x' := by
  induction h with
  | start => exact Along.start
  | entry _ step ih => exact Along.entry ih (hRS _ _ _ _ step)
  | arc _ ih => exact Along.arc ih

theorem state?_eq {label : E → Symbol} {label' : E' → Symbol}
    (hR : ∀ p q e e', R p q e e' → label e = label' e') (h : Along R last x x')
    (t : RuleTable V) (o : Options V) (lattice : Lattice V) :
    x.state? label t o lattice = x'.state? label' t o lattice := by
  induction h with
  | start => rfl
  | entry _ step ih => rw [state?, state?, ih, hR _ _ _ _ step]
  | arc _ ih => rw [state?, state?, ih]

theorem runs_over {entries' : (first last : Nat) → Set E'} {first : Nat}
    (hR : ∀ p q e e', (p, q, e) ∈ x.placed last → R p q e e' → e' ∈ entries' p q)
    (h : Along R last x x') (hx : x.Over t o lattice entries first last) :
    x'.Over t o lattice entries' first last := by
  induction h with
  | start => exact hx
  | @entry last p x x' e e' _ step ih =>
    obtain ⟨hx, hp, hn, -, hcov⟩ := hx
    refine ⟨ih (fun q r f f' hf => hR q r f f' (List.mem_append_left _ hf)) hx, hp, hn, ?_, hcov⟩
    exact hR p last e e' (List.mem_append_right _ List.mem_cons_self) step
  | arc _ ih =>
    obtain ⟨hx, hrest⟩ := hx
    exact ⟨ih hR hx, hrest⟩

theorem of_mem_placed (h : Along R last x x') {p q : Nat} {e' : E'}
    (he : (p, q, e') ∈ x'.placed last) : ∃ e, (p, q, e) ∈ x.placed last ∧ R p q e e' := by
  induction h with
  | start => cases he
  | @entry last m x x' e f' _ step ih =>
    rcases List.mem_append.mp he with he | he
    · obtain ⟨e, he, hR⟩ := ih he
      exact ⟨e, List.mem_append_left _ he, hR⟩
    · cases List.mem_singleton.mp he
      exact ⟨e, List.mem_append_right _ List.mem_cons_self, step⟩
  | arc _ ih => exact ih he

end Along

end Trail

end ParseForest
