import Mathlib.Data.List.Forall2
import ParseForest.Proofs.RuleTable.Paths
import ParseForest.Proofs.Track
import ParseForest.Pruner

/-!
# Access by number

The parsers keep what they find in tables and name it by number: spans, nodes, states of rule
tables, labels, edges. The accesses here answer `none` where a number is out of range or a
difference falls below zero, so a computation that goes through them comes to an answer only when
none of its accesses fails. `Yields` says that it does, and what the answer is like.
-/

namespace ParseForest

variable {α β γ σ τ : Type}

/-- The computation comes to an answer, and the answer is as `P` says. -/
def Yields (x : Option α) (P : α → Prop) : Prop := ∃ a, x = some a ∧ P a

section Yields

variable {x : Option α} {P P' : α → Prop}

theorem yields_some {a : α} (h : P a) : Yields (some a) P := ⟨a, rfl, h⟩

theorem Yields.bind {f : α → Option β} {Q : β → Prop} (h : Yields x P)
    (hf : ∀ a, P a → Yields (f a) Q) : Yields (x >>= f) Q := by
  obtain ⟨a, rfl, ha⟩ := h
  exact hf a ha

theorem Yields.mono (h : Yields x P) (hP : ∀ a, P a → P' a) : Yields x P' := by
  obtain ⟨a, hx, ha⟩ := h
  exact ⟨a, hx, hP a ha⟩

theorem Yields.of_eq_some {a : α} (h : x = some a) (ha : P a) : Yields x P := ⟨a, h, ha⟩

theorem Yields.eq_some {a : α} (h : Yields x (· = a)) : x = some a := by
  obtain ⟨b, hx, rfl⟩ := h
  exact hx

theorem Yields.and (h : Yields x P) (hP : ∀ a, x = some a → P' a) :
    Yields x fun a => P a ∧ P' a := by
  obtain ⟨a, hx, ha⟩ := h
  exact ⟨a, hx, ha, hP a hx⟩

theorem Yields.map {f : α → β} {Q : β → Prop} (h : Yields x fun a => Q (f a)) :
    Yields (x.map f) Q := by
  obtain ⟨a, rfl, ha⟩ := h
  exact yields_some ha

end Yields

/-! ## Loops -/

/-- A loop whose steps correspond to those of another one comes to an end that corresponds. -/
theorem yields_foldlM {f : σ → α → Option σ} {g : τ → β → τ} {R : σ → τ → Prop}
    {Q : α → β → Prop} (step : ∀ s t a b, R s t → Q a b → Yields (f s a) (R · (g t b)))
    {as : List α} {bs : List β} (h : List.Forall₂ Q as bs) {s : σ} {t : τ} (hst : R s t) :
    Yields (as.foldlM f s) (R · (bs.foldl g t)) := by
  induction h generalizing s t with
  | nil => exact yields_some hst
  | cons hab _ ih =>
    rw [List.foldlM_cons, List.foldl_cons]
    exact (step _ _ _ _ hst hab).bind fun s' hs' => ih hs'

theorem forall_mem_of_forall₂ {Q : α → β → Prop} {P : β → Prop} (hQ : ∀ a b, Q a b → P b)
    {as : List α} {bs : List β} (h : List.Forall₂ Q as bs) : ∀ b ∈ bs, P b := by
  induction h with
  | nil => simp
  | cons hab _ ih => exact List.forall_mem_cons.mpr ⟨hQ _ _ hab, ih⟩

theorem forall₂_mem_right {Q : α → β → Prop} {as : List α} {bs : List β}
    (h : List.Forall₂ Q as bs) : List.Forall₂ (fun a b => Q a b ∧ b ∈ bs) as bs := by
  have hzip := List.forall₂_iff_zip.mp h
  exact List.forall₂_iff_zip.mpr ⟨hzip.1, fun hab => ⟨hzip.2 hab, (List.of_mem_zip hab).2⟩⟩

theorem yields_foldlM_same {f : σ → α → Option σ} {g : τ → α → τ} {R : σ → τ → Prop}
    {as : List α} (step : ∀ s t, ∀ a ∈ as, R s t → Yields (f s a) (R · (g t a))) {s : σ} {t : τ}
    (hst : R s t) : Yields (as.foldlM f s) (R · (as.foldl g t)) :=
  yields_foldlM (Q := fun a b => a = b ∧ a ∈ as)
    (fun s t a _ hst ⟨hab, ha⟩ => hab ▸ step s t a ha hst)
    (List.forall₂_same.mpr fun _ ha => ⟨rfl, ha⟩) hst

theorem foldlM_eq_some {f : σ → α → Option σ} {g : σ → α → σ} {I : σ → Prop} {as : List α}
    (step : ∀ s, ∀ a ∈ as, I s → f s a = some (g s a) ∧ I (g s a)) {s : σ} (h : I s) :
    as.foldlM f s = some (as.foldl g s) ∧ I (as.foldl g s) := by
  induction as generalizing s with
  | nil => exact ⟨rfl, h⟩
  | cons a as ih =>
    obtain ⟨hstep, hkept⟩ := step s a List.mem_cons_self h
    rw [List.foldlM_cons, hstep, List.foldl_cons]
    exact ih (fun s' a' ha' => step s' a' (List.mem_cons_of_mem a ha')) hkept

theorem yields_foldlM_prefix {f : σ → α → Option σ} {P : List α → σ → Prop} {as : List α}
    (step : ∀ done a rest, as = done ++ a :: rest → ∀ s, P done s →
      Yields (f s a) (P (done ++ [a]))) {s : σ} (h : P [] s) : Yields (as.foldlM f s) (P as) := by
  have key (rest done : List α) (hsplit : as = done ++ rest) (s : σ) (hs : P done s) :
      Yields (rest.foldlM f s) (P as) := by
    induction rest generalizing done s with
    | nil => exact yields_some (by simpa [hsplit] using hs)
    | cons a rest ih =>
      rw [List.foldlM_cons]
      exact (step done a rest hsplit s hs).bind fun s' hs' =>
        ih (done ++ [a]) (by simp [hsplit]) s' hs'
  exact key as [] rfl s h

theorem yields_foldlM_range {f : σ → Nat → Option σ} {P : Nat → σ → Prop} {n : Nat}
    (step : ∀ i < n, ∀ s, P i s → Yields (f s i) (P (i + 1))) {s : σ} (h : P 0 s) :
    Yields ((List.range n).foldlM f s) (P n) := by
  induction n with
  | zero => exact yields_some h
  | succ n ih =>
    rw [List.range_succ, List.foldlM_append]
    refine (ih fun i hi => step i (by omega)).bind fun s' hs' => ?_
    rw [List.foldlM_cons]
    exact (step n (by omega) s' hs').bind fun s'' hs'' => yields_some hs''

def gather (f : α → Option (List β)) : List α → Option (List β)
  | [] => some []
  | a :: as => do
    let here ← f a
    let rest ← gather f as
    return here ++ rest

theorem yields_gather {α' β' : Type} {f : α → Option (List β)} {g : α' → List β'}
    {Q : α → α' → Prop} {R : β → β' → Prop}
    (step : ∀ a a', Q a a' → Yields (f a) (List.Forall₂ R · (g a'))) {as : List α}
    {as' : List α'} (h : List.Forall₂ Q as as') :
    Yields (gather f as) (List.Forall₂ R · (as'.flatMap g)) := by
  induction h with
  | nil => exact yields_some .nil
  | cons hab _ ih =>
    rw [gather, List.flatMap_cons]
    exact (step _ _ hab).bind fun here hhere => ih.bind fun rest hrest =>
      yields_some (List.rel_append hhere hrest)

theorem yields_mapM {α' β' : Type} {f : α → Option β} {g : α' → β'} {Q : α → α' → Prop}
    {R : β → β' → Prop} (step : ∀ a a', Q a a' → Yields (f a) (R · (g a'))) {as : List α}
    {as' : List α'} (h : List.Forall₂ Q as as') :
    Yields (as.mapM f) (List.Forall₂ R · (as'.map g)) := by
  induction h with
  | nil => exact yields_some .nil
  | cons hab _ ih =>
    rw [List.mapM_cons, List.map_cons]
    exact (step _ _ hab).bind fun b hb => ih.bind fun bs hbs => yields_some (.cons hb hbs)

theorem gather_eq_some {f : α → Option (List β)} {g : α → List β} {as : List α}
    (h : ∀ a ∈ as, f a = some (g a)) : gather f as = some (as.flatMap g) := by
  induction as with
  | nil => rfl
  | cons a as ih =>
    rw [gather, h a List.mem_cons_self, ih fun a' ha' => h a' (List.mem_cons_of_mem a ha')]
    rfl

theorem gather_eq_filter {f : α → Option (List α)} {p : α → Bool} {as : List α}
    (h : ∀ a ∈ as, f a = some (if p a then [a] else [])) : gather f as = some (as.filter p) := by
  induction as with
  | nil => rfl
  | cons a as ih =>
    rw [gather, h a List.mem_cons_self, ih fun a' ha' => h a' (List.mem_cons_of_mem a ha')]
    cases hp : p a <;> simp [hp]

def setAt? (a : Array α) (i : Nat) (x : α) : Option (Array α) :=
  if i < a.size then some (a.setIfInBounds i x) else none

theorem setAt?_eq_some {a : Array α} {i : Nat} (h : i < a.size) (x : α) :
    setAt? a i x = some (a.setIfInBounds i x) := if_pos h

theorem getElem?_eq_some_getD {a : Array α} {i : Nat} (h : i < a.size) (x : α) :
    a[i]? = some (a.getD i x) := by
  simp [h]

def minus? (m n : Nat) : Option Nat := if n ≤ m then some (m - n) else none

theorem minus?_eq_some {m n : Nat} (h : n ≤ m) : minus? m n = some (m - n) := if_pos h

namespace Chart

def spansByLength? (size : Nat) : Option (List (Nat × Nat)) :=
  gather (fun length => do
    let starts ← minus? size length
    return (List.range (starts + 1)).map fun first => (first, first + length))
    (List.range' 1 size)

def spansFromLong? (size : Nat) : Option (List (Nat × Nat)) :=
  gather (fun length => do
    let starts ← minus? size length
    return (List.range (starts + 1)).map fun first => (first, first + length))
    (List.range' 1 size).reverse

theorem gather_starts {size : Nat} {lengths : List Nat} (h : ∀ length ∈ lengths, length ≤ size) :
    gather (fun length => do
      let starts ← minus? size length
      return (List.range (starts + 1)).map fun first => (first, first + length)) lengths =
      some (lengths.flatMap fun length =>
        (List.range (size - length + 1)).map fun first => (first, first + length)) :=
  gather_eq_some fun length hlength => by
    rw [minus?_eq_some (h length hlength)]
    rfl

theorem spansByLength?_eq (size : Nat) : spansByLength? size = some (spansByLength size) :=
  gather_starts fun length h => by have := List.mem_range'_1.mp h; omega

theorem spansFromLong?_eq (size : Nat) : spansFromLong? size = some (spansFromLong size) :=
  gather_starts fun length h => by
    have := List.mem_range'_1.mp (List.mem_reverse.mp h)
    omega

/-! ## Cells -/

def modify? (c : Chart α) (first last : Nat) (f : α → α) : Option (Chart α) :=
  if c.IsSpan first last then some (c.modify first last f) else none

def set? (c : Chart α) (first last : Nat) (cell : α) : Option (Chart α) :=
  c.modify? first last fun _ => cell

variable [Inhabited α] [Inhabited β]

def take? (c : Chart α) (first last : Nat) : Option (α × Chart α) := do
  let cell ← c.get? first last
  let c ← c.set? first last default
  return (cell, c)

variable {c : Chart α} {d : Chart β} {first last : Nat} {R : α → β → Prop}

theorem get?_eq_some_get (h : c.IsSpan first last) :
    c.get? first last = some (c.get first last) := by
  have hlt := c.place_lt h
  simp [get, get?, h, hlt]

omit [Inhabited α] in
theorem modify?_eq_some (h : c.IsSpan first last) (f : α → α) :
    c.modify? first last f = some (c.modify first last f) := if_pos h

omit [Inhabited α] in
theorem set?_eq_some (h : c.IsSpan first last) (cell : α) :
    c.set? first last cell = some (c.set first last cell) := if_pos h

theorem take?_eq_some (h : c.IsSpan first last) :
    c.take? first last = some (c.get first last, c.set first last default) := by
  rw [take?, get?_eq_some_get h, set?_eq_some h]
  rfl

structure Cellwise (R : α → β → Prop) (c : Chart α) (d : Chart β) : Prop where
  size : c.size = d.size
  cell : ∀ i j, R (c.get i j) (d.get i j)

namespace Cellwise

theorem isSpan_iff (h : Cellwise R c d) : c.IsSpan first last ↔ d.IsSpan first last := by
  rw [IsSpan, IsSpan, h.size]

theorem new (h : R default default) (size : Nat) :
    Cellwise R (Chart.new size) (Chart.new size) := by
  refine ⟨rfl, fun i j => ?_⟩
  rw [get_new, get_new]
  exact h

theorem mono {R' : α → β → Prop} (h : Cellwise R c d) (hR : ∀ a b, R a b → R' a b) :
    Cellwise R' c d :=
  ⟨h.size, fun i j => hR _ _ (h.cell i j)⟩

theorem modify (h : Cellwise R c d) {f : α → α} {g : β → β}
    (hfg : c.IsSpan first last → R (f (c.get first last)) (g (d.get first last))) :
    Cellwise R (c.modify first last f) (d.modify first last g) := by
  by_cases hs : c.IsSpan first last
  · have hd := h.isSpan_iff.mp hs
    refine ⟨by rw [size_modify, size_modify, h.size], fun i j => ?_⟩
    rw [get_modify _ _ _ _ _ _ hs, get_modify _ _ _ _ _ _ hd]
    split
    · rename_i hij
      rw [hij.1, hij.2]
      exact hfg hs
    · exact h.cell i j
  · have hd : ¬d.IsSpan first last := fun hd => hs (h.isSpan_iff.mpr hd)
    simpa [Chart.modify, hs, hd] using h

theorem set_left (h : Cellwise R c d) {a : α} (ha : R a (d.get first last)) :
    Cellwise R (c.set first last a) d := by
  by_cases hs : c.IsSpan first last
  · refine ⟨(size_modify ..).trans h.size, fun i j => ?_⟩
    rw [get_set _ _ _ _ _ _ hs]
    split
    · rename_i hij
      rwa [hij.1, hij.2]
    · exact h.cell i j
  · simpa [Chart.set, Chart.modify, hs] using h

theorem set (h : Cellwise R c d) {a : α} {b : β} (hab : R a b) :
    Cellwise R (c.set first last a) (d.set first last b) :=
  h.modify fun _ => hab

end Cellwise

end Chart

/-! ## Rule tables -/

namespace RuleTable

variable {V : Type} {t : RuleTable V}

def state? (t : RuleTable V) (s : StateId) : Option (RuleState V) := t.states[s]?

def next? (t : RuleTable V) (s : StateId) (label : Symbol) : Option StateId := do
  let st ← t.state? s
  return (LabelMap.get? st.children label).getD root

def hasNext? (t : RuleTable V) (s : StateId) : Option Bool := do
  let st ← t.state? s
  return !st.children.isEmpty

def rulesAt? (t : RuleTable V) (s : StateId) : Option (List (RulePair V)) := do
  let st ← t.state? s
  return st.rules

structure Closed (t : RuleTable V) : Prop where
  size : 0 < t.states.size
  child : ∀ (s : Nat) label (n : Nat), t.child? s label = some n → n < t.states.size

def FromPairs (t : RuleTable V) : Prop :=
  ∃ pairs : List (RulePair V), t.states = (pairs.foldl insert empty).states

theorem state?_eq_some {s : Nat} (h : s < t.states.size) : t.state? s = some (t.state s) := by
  simp [state?, state, h]

theorem next?_eq_some {s : Nat} (h : s < t.states.size) (label : Symbol) :
    t.next? s label = some (t.next s label) := by
  rw [next?, state?_eq_some h]
  rfl

theorem hasNext?_eq_some {s : Nat} (h : s < t.states.size) :
    t.hasNext? s = some (t.hasNext s) := by
  rw [hasNext?, state?_eq_some h]
  rfl

theorem rulesAt?_eq_some {s : Nat} (h : s < t.states.size) :
    t.rulesAt? s = some (t.rulesAt s) := by
  rw [rulesAt?, state?_eq_some h]
  rfl

theorem Closed.root_lt (h : t.Closed) : (root : Nat) < t.states.size := h.size

theorem Closed.next_lt (h : t.Closed) (s : StateId) (label : Symbol) :
    (t.next s label : Nat) < t.states.size := by
  rw [next]
  cases hc : t.child? s label with
  | none => exact h.size
  | some n => exact h.child s label n hc

theorem exists_paths_foldl_insert (pairs : List (RulePair V)) :
    ∃ path, Paths (pairs.foldl insert empty) path := by
  induction pairs using List.reverseRecOn with
  | nil => exact ⟨_, paths_empty⟩
  | append_singleton pairs pair ih =>
    obtain ⟨path, hpath⟩ := ih
    obtain ⟨path', hpath', -, -⟩ := hpath.insert pair
    rw [List.foldl_append]
    exact ⟨path', hpath'⟩

theorem FromPairs.closed (h : t.FromPairs) : t.Closed := by
  obtain ⟨pairs, hstates⟩ := h
  obtain ⟨path, hpath⟩ := exists_paths_foldl_insert pairs
  have hchild : ∀ (s : Nat) label, t.child? s label =
      (pairs.foldl insert empty).child? s label := fun s label => by
    rw [child?, child?, state, state, hstates]
  refine ⟨hstates ▸ hpath.size, fun s label n hn => ?_⟩
  rw [hchild] at hn
  rw [hstates]
  by_cases hs : s < (pairs.foldl insert empty).states.size
  · exact (hpath.child s hs label n hn).1
  · rw [child?_of_le (Nat.not_lt.mp hs)] at hn
    cases hn

end RuleTable

/-! ## Pruners and lattices -/

namespace Pruner

def skipsSpan? (p : Pruner) (first last : Nat) : Option Bool :=
  if p.knows last then some (p.skipsSpan first last) else .none

def skipsLabel? (p : Pruner) (first last : Nat) (label : Symbol) : Option Bool :=
  if p.knows last then some (p.skipsLabel first last label) else .none

theorem knows_of_le {p : Pruner} {m n : Nat} (h : p.knows n = true) (hmn : m ≤ n) :
    p.knows m = true := by
  rw [knows, Option.all_eq_true] at h ⊢
  intro reach hreach
  have := of_decide_eq_true (h reach hreach)
  exact decide_eq_true (by omega)

theorem skipsSpan?_eq_some {p : Pruner} {last : Nat} (h : p.knows last = true) (first : Nat) :
    p.skipsSpan? first last = some (p.skipsSpan first last) := if_pos h

theorem skipsLabel?_eq_some {p : Pruner} {last : Nat} (h : p.knows last = true) (first : Nat)
    (label : Symbol) : p.skipsLabel? first last label = some (p.skipsLabel first last label) :=
  if_pos h

end Pruner

namespace Lattice

variable {V : Type} {lattice : Lattice V}

def arcsAt? (l : Lattice V) (position : Nat) : Option (List (Arc V)) := l.arcs[position]?

def distance? (l : Lattice V) (first last : Nat) : Option Nat :=
  if l.size < first ∨ l.size < last then some unreachable
  else do
    let row ← l.distanceTable[first]?
    let distance ← row[last]?
    return distance.getD unreachable

theorem arcsAt?_eq_some {position : Nat} (h : position < lattice.size) :
    lattice.arcsAt? position = some (lattice.arcsAt position) := by
  rw [size] at h
  simp [arcsAt?, arcsAt, h]

theorem size_relax (distances : Array (Option Nat)) (row : List (Arc V) × Nat) :
    (relax distances row).size = distances.size := by
  have harcs (arcs : List (Arc V)) (here : Nat) (ds : Array (Option Nat)) :
      (arcs.foldl (fun ds a => ds.modify (row.2 + a.distance) (closer (here + a.cost))) ds).size =
        ds.size := by
    induction arcs generalizing ds with
    | nil => rfl
    | cons a arcs ih => rw [List.foldl_cons, ih, Array.size_modify]
  unfold relax
  simp only
  split
  · rfl
  · exact harcs row.1 _ distances

theorem size_distancesFrom (first : Nat) : (lattice.distancesFrom first).size = lattice.size + 1 := by
  have hrows (rows : List (List (Arc V) × Nat)) (distances : Array (Option Nat)) :
      (rows.foldl relax distances).size = distances.size := by
    induction rows generalizing distances with
    | nil => rfl
    | cons row rows ih => rw [List.foldl_cons, ih, size_relax]
  rw [distancesFrom, hrows]
  simp

theorem distance?_eq_some (first last : Nat) :
    lattice.distance? first last = some (lattice.distanceTable.length first last) := by
  have hrow (h : first ≤ lattice.size) :
      lattice.distanceTable[first]? = some (lattice.distancesFrom first) := by
    simp [distanceTable, Nat.lt_succ_of_le h]
  rw [distance?, DistanceTable.length, DistanceTable.get]
  split
  · rename_i hout
    rcases Nat.lt_or_ge lattice.size first with hfirst | hfirst
    · have hnone : lattice.distanceTable[first]? = none := by
        simp [distanceTable]
        omega
      simp [hnone]
    · have hlast : (lattice.distancesFrom first)[last]? = none := by
        rw [Array.getElem?_eq_none_iff, size_distancesFrom]
        omega
      simp [hrow hfirst, hlast]
  · rename_i hin
    have hlast : last < (lattice.distancesFrom first).size := by
      rw [size_distancesFrom]
      omega
    simp [hrow (by omega), hlast]

end Lattice

end ParseForest
