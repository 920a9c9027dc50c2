import ParseForest.Number.Whole

/-!
# Charts

A chart of size `n` has one cell for each span `[first, last)` with `first ≤ last ≤ n`, the empty
spans included. `get?` refuses everything that is no span; `get` answers with the blank cell
there, and `set` and `modify` leave the chart as it is.
-/

namespace ParseForest

variable {α : Type}

structure Chart (α : Type) where
  size : Nat
  cells : Array α
  full : cells.size = (size + 1) * (size + 1)

namespace Chart

def new [Inhabited α] (size : Nat) : Chart α :=
  ⟨size, Array.replicate ((size + 1) * (size + 1)) default, by simp⟩

def IsSpan (c : Chart α) (first last : Nat) : Prop := first ≤ last ∧ last ≤ c.size

instance (c : Chart α) (first last : Nat) : Decidable (c.IsSpan first last) :=
  inferInstanceAs (Decidable (_ ∧ _))

def place (c : Chart α) (first last : Nat) : Nat := first * (c.size + 1) + last

def get? (c : Chart α) (first last : Nat) : Option α :=
  if c.IsSpan first last then c.cells[c.place first last]? else none

def get [Inhabited α] (c : Chart α) (first last : Nat) : α := (c.get? first last).getD default

def modify (c : Chart α) (first last : Nat) (f : α → α) : Chart α :=
  if c.IsSpan first last then
    { c with cells := c.cells.modify (c.place first last) f, full := by simp [c.full] }
  else c

def set (c : Chart α) (first last : Nat) (cell : α) : Chart α := c.modify first last fun _ => cell

def spans (n : Nat) : List (Nat × Nat) :=
  (List.range (n + 1)).flatMap fun first =>
    (List.range' first (n + 1 - first)).map fun last => (first, last)

/-- The non-empty spans in the order in which a parser fills them: by length, then by first
position. -/
def spansByLength (n : Nat) : List (Nat × Nat) :=
  (List.range' 1 n).flatMap fun length =>
    (List.range (n - length + 1)).map fun first => (first, first + length)

def spansFromLong (n : Nat) : List (Nat × Nat) :=
  (List.range' 1 n).reverse.flatMap fun length =>
    (List.range (n - length + 1)).map fun first => (first, first + length)

def render (f : α → String) (c : Chart α) : String :=
  String.join ((spans c.size).map fun (first, last) =>
    match c.get? first last with
    | some cell =>
      Number.renderNatural first ++ ".." ++ Number.renderNatural last ++ ": " ++ f cell ++ "\n"
    | none => "")

theorem size_modify (c : Chart α) (first last : Nat) (f : α → α) :
    (c.modify first last f).size = c.size := by
  unfold modify
  split <;> rfl

theorem place_lt (c : Chart α) {first last : Nat} (h : c.IsSpan first last) :
    c.place first last < c.cells.size := by
  obtain ⟨hfl, hl⟩ := h
  have hmul : first * (c.size + 1) ≤ c.size * (c.size + 1) :=
    Nat.mul_le_mul_right _ (by omega)
  rw [c.full, place, Nat.add_mul]
  omega

theorem place_inj (c : Chart α) {first last first' last' : Nat} (h : c.IsSpan first last)
    (h' : c.IsSpan first' last') :
    c.place first last = c.place first' last' ↔ first = first' ∧ last = last' := by
  refine ⟨fun heq => ?_, fun ⟨h₁, h₂⟩ => by rw [h₁, h₂]⟩
  have hl : last < c.size + 1 := by have := h.2; omega
  have hl' : last' < c.size + 1 := by have := h'.2; omega
  have key (a b : Nat) (hb : b < c.size + 1) :
      c.place a b / (c.size + 1) = a ∧ c.place a b % (c.size + 1) = b := by
    have hpos : 0 < c.size + 1 := by omega
    unfold place
    rw [Nat.add_comm, Nat.add_mul_div_right _ _ hpos, Nat.add_mul_mod_self_right,
      Nat.div_eq_of_lt hb, Nat.mod_eq_of_lt hb]
    exact ⟨Nat.zero_add a, rfl⟩
  obtain ⟨h₁, h₂⟩ := key first last hl
  obtain ⟨h₃, h₄⟩ := key first' last' hl'
  rw [heq] at h₁ h₂
  exact ⟨h₁.symm.trans h₃, h₂.symm.trans h₄⟩

theorem get_modify [Inhabited α] (c : Chart α) (first last i j : Nat) (f : α → α)
    (h : c.IsSpan first last) :
    (c.modify first last f).get i j =
      if i = first ∧ j = last then f (c.get i j) else c.get i j := by
  have hsize : (c.modify first last f).size = c.size := c.size_modify first last f
  have hspan : (c.modify first last f).IsSpan i j ↔ c.IsSpan i j := by simp [IsSpan, hsize]
  by_cases hij : c.IsSpan i j
  · have hlt := c.place_lt hij
    have hcells : (c.modify first last f).cells = c.cells.modify (c.place first last) f := by
      simp [modify, h]
    have hplace : (c.modify first last f).place i j = c.place i j := by simp [place, hsize]
    by_cases hs : i = first ∧ j = last
    · obtain ⟨rfl, rfl⟩ := hs
      simp [get, get?, hspan, hij, hcells, hplace, hlt, Array.getElem_modify]
    · have hne : c.place first last ≠ c.place i j := fun heq =>
        hs (((c.place_inj h hij).mp heq).imp Eq.symm Eq.symm)
      simp [get, get?, hspan, hij, hcells, hplace, hlt, hs, hne, Array.getElem_modify]
  · have hs : ¬(i = first ∧ j = last) := fun ⟨h₁, h₂⟩ => hij (h₁ ▸ h₂ ▸ h)
    simp [get, get?, hspan, hij, hs]

theorem get_new [Inhabited α] (size first last : Nat) :
    (new size : Chart α).get first last = default := by
  unfold get get? new
  split
  · simp [Array.getElem?_replicate]
    split <;> rfl
  · rfl

theorem get_set [Inhabited α] (c : Chart α) (first last i j : Nat) (cell : α)
    (h : c.IsSpan first last) :
    (c.set first last cell).get i j = if i = first ∧ j = last then cell else c.get i j :=
  c.get_modify first last i j (fun _ => cell) h

end Chart

end ParseForest
