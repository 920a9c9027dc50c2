import ParseForest.Symbol

/-!
# Maps from labels

A `LabelMap` is a list of labels with their values, a label at most once, in the order in which
the labels came. `upsert` changes a value where it stands and puts a new label at the end.
-/

namespace ParseForest

/-- Values of labels, in the order in which the labels came. -/
abbrev LabelMap (α : Type) := List (Symbol × α)

namespace LabelMap

variable {α : Type}

def keys (m : LabelMap α) : List Symbol := m.map (·.1)

def get? (m : LabelMap α) (label : Symbol) : Option α := List.lookup label m

def inOrder (labels : List Symbol) (m : LabelMap α) : LabelMap α :=
  labels.filterMap fun label => (m.get? label).map fun x => (label, x)

def upsert (label : Symbol) (f : Option α → α) : LabelMap α → LabelMap α
  | [] => [(label, f none)]
  | (key, value) :: rest =>
    if key = label then (key, f (some value)) :: rest
    else (key, value) :: upsert label f rest

def insert (m : LabelMap α) (label : Symbol) (value : α) : LabelMap α :=
  upsert label (fun _ => value) m

theorem get?_upsert (m : LabelMap α) (label l : Symbol) (f : Option α → α) :
    get? (upsert label f m) l = if l = label then some (f (get? m label)) else get? m l := by
  induction m with
  | nil =>
    by_cases h : l = label
    · simp [upsert, get?, h]
    · simp [upsert, get?, List.lookup_cons, h, beq_eq_false_iff_ne.mpr h]
  | cons kv rest ih =>
    obtain ⟨key, value⟩ := kv
    by_cases hk : key = label
    · subst hk
      by_cases h : l = key
      · simp [upsert, get?, h]
      · simp [upsert, get?, List.lookup_cons, h, beq_eq_false_iff_ne.mpr h]
    · by_cases h : l = key
      · subst h
        simp [upsert, get?, hk]
      · have hl : (label == key) = false := beq_eq_false_iff_ne.mpr (Ne.symm hk)
        simp only [get?] at ih
        simp [upsert, get?, List.lookup_cons, hk, beq_eq_false_iff_ne.mpr h, hl, ih]

end LabelMap

end ParseForest
