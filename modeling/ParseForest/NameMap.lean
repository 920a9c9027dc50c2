/-!
# Maps from names

A `NameMap` holds one value a name and lists its entries in the order of their names, so that two
maps with the same values are equal. `upsert` is the one way to change a map; `insert` replaces,
and `merge` combines two maps entry by entry.
-/

namespace ParseForest

variable {α : Type}

/-- Entries in strictly increasing order of their names. -/
structure NameMap (α : Type) where
  entries : List (String × α)
  sorted : entries.Pairwise (fun a b => a.1 < b.1)

namespace NameMap

def upsertEntry (name : String) (f : Option α → α) : List (String × α) → List (String × α)
  | [] => [(name, f none)]
  | (key, value) :: rest =>
    if name < key then (name, f none) :: (key, value) :: rest
    else if name = key then (key, f (some value)) :: rest
    else (key, value) :: upsertEntry name f rest

theorem mem_upsertEntry {name : String} {f : Option α → α} {entries : List (String × α)}
    {e : String × α} (h : e ∈ upsertEntry name f entries) : e.1 = name ∨ e ∈ entries := by
  induction entries with
  | nil => simp_all [upsertEntry]
  | cons kv rest ih =>
    obtain ⟨key, value⟩ := kv
    rw [upsertEntry] at h
    split at h
    · rcases List.mem_cons.mp h with rfl | h
      · exact .inl rfl
      · exact .inr h
    · split at h
      · rename_i heq
        rcases List.mem_cons.mp h with rfl | h
        · exact .inl heq.symm
        · exact .inr (List.mem_cons_of_mem _ h)
      · rcases List.mem_cons.mp h with rfl | h
        · exact .inr List.mem_cons_self
        · rcases ih h with h | h
          · exact .inl h
          · exact .inr (List.mem_cons_of_mem _ h)

theorem pairwise_upsertEntry {name : String} {f : Option α → α} {entries : List (String × α)}
    (h : entries.Pairwise (fun a b => a.1 < b.1)) :
    (upsertEntry name f entries).Pairwise (fun a b => a.1 < b.1) := by
  induction entries with
  | nil => simp [upsertEntry]
  | cons kv rest ih =>
    obtain ⟨key, value⟩ := kv
    obtain ⟨hhead, htail⟩ := List.pairwise_cons.mp h
    rw [upsertEntry]
    split
    · rename_i hlt
      refine List.pairwise_cons.mpr ⟨fun e he => ?_, h⟩
      rcases List.mem_cons.mp he with rfl | he
      · exact hlt
      · exact String.lt_trans hlt (hhead e he)
    · rename_i hnlt
      split
      · exact List.pairwise_cons.mpr ⟨hhead, htail⟩
      · rename_i hne
        refine List.pairwise_cons.mpr ⟨fun e he => ?_, ih htail⟩
        rcases mem_upsertEntry he with h | h
        · rw [h]
          rcases Std.lt_trichotomy name key with h | h | h
          · exact absurd h hnlt
          · exact absurd h hne
          · exact h
        · exact hhead e h

def empty : NameMap α := ⟨[], .nil⟩

instance : Inhabited (NameMap α) := ⟨empty⟩

def isEmpty (m : NameMap α) : Bool := m.entries.isEmpty

def size (m : NameMap α) : Nat := m.entries.length

def get? (m : NameMap α) (name : String) : Option α := m.entries.lookup name

def upsert (m : NameMap α) (name : String) (f : Option α → α) : NameMap α :=
  ⟨upsertEntry name f m.entries, pairwise_upsertEntry m.sorted⟩

theorem lookup_upsertEntry (name key : String) (f : Option α → α) {entries : List (String × α)}
    (h : entries.Pairwise (fun a b => a.1 < b.1)) :
    (upsertEntry name f entries).lookup key =
      if key = name then some (f (entries.lookup name)) else entries.lookup key := by
  induction entries with
  | nil =>
    by_cases hk : key = name
    · simp [upsertEntry, hk]
    · simp [upsertEntry, List.lookup_cons, beq_eq_false_iff_ne.mpr hk, hk]
  | cons kv rest ih =>
    obtain ⟨first, value⟩ := kv
    obtain ⟨hhead, htail⟩ := List.pairwise_cons.mp h
    rw [upsertEntry]
    split
    · rename_i hlt
      have hne : name ≠ first := Std.ne_of_lt hlt
      have habsent : rest.lookup name = none := by
        refine List.lookup_eq_none_iff.mpr fun e he => ?_
        simpa using Std.ne_of_lt (String.lt_trans hlt (hhead e he))
      by_cases hk : key = name
      · subst hk
        simp [List.lookup_cons, beq_eq_false_iff_ne.mpr hne, habsent]
      · rw [List.lookup_cons, beq_eq_false_iff_ne.mpr hk, if_neg hk]
    · split
      · rename_i heq
        subst heq
        by_cases hk : key = name
        · subst hk
          simp
        · simp [List.lookup_cons, beq_eq_false_iff_ne.mpr hk, hk]
      · rename_i hne
        by_cases hk : key = first
        · subst hk
          simp [Ne.symm hne]
        · simp only [List.lookup_cons, beq_eq_false_iff_ne.mpr hk, ih htail,
            beq_eq_false_iff_ne.mpr hne]

theorem get?_upsert (m : NameMap α) (name key : String) (f : Option α → α) :
    (m.upsert name f).get? key = if key = name then some (f (m.get? name)) else m.get? key :=
  lookup_upsertEntry name key f m.sorted

def insert (m : NameMap α) (name : String) (value : α) : NameMap α := m.upsert name fun _ => value

def merge (m other : NameMap α) (f : Option α → α → α) : NameMap α :=
  other.entries.foldl (fun m e => m.upsert e.1 fun old => f old e.2) m

def ofList (entries : List (String × α)) : NameMap α :=
  entries.foldl (fun m e => m.insert e.1 e.2) empty

def render (f : α → String) (m : NameMap α) : String :=
  " ".intercalate (m.entries.map fun e => e.1 ++ "=" ++ f e.2)

@[ext]
theorem ext {m n : NameMap α} (h : m.entries = n.entries) : m = n := by
  cases m
  cases n
  simp_all

end NameMap

end ParseForest
