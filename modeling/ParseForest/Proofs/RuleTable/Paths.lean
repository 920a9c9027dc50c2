import Mathlib.Data.List.Basic
import Mathlib.Data.List.Induction
import ParseForest.RuleTable

/-!
# Paths of rule tables

Each state of a rule table that is built by inserting rule pairs stands for the path of labels
that leads to it from the root. No two states have the same path, and the rule pairs of a state
are those whose source side without indices is its path.
-/

namespace ParseForest.RuleTable

variable {V : Type}

structure Paths (t : RuleTable V) (path : StateId → List Symbol) : Prop where
  size : 0 < t.states.size
  atRoot : path root = []
  child : ∀ s : Nat, s < t.states.size → ∀ label (n : Nat), t.child? s label = some n →
    n < t.states.size ∧ path n = path s ++ [label]
  parent : ∀ n : Nat, n < t.states.size → n ≠ root →
    ∃ s label, s < t.states.size ∧ t.child? s label = some n
  inj : ∀ s s' : Nat, s < t.states.size → s' < t.states.size → path s = path s' → s = s'
  rules : ∀ s : Nat, ∀ pair ∈ t.rulesAt s, RuleTable.path pair = path s

theorem child?_of_le {t : RuleTable V} {s : Nat} (h : t.states.size ≤ s) (label : Symbol) :
    t.child? s label = none := by
  simp [child?, state, Array.getD, Nat.not_lt.mpr h, LabelMap.get?]

theorem rulesAt_of_le {t : RuleTable V} {s : Nat} (h : t.states.size ≤ s) : t.rulesAt s = [] := by
  simp [rulesAt, state, Array.getD, Nat.not_lt.mpr h]

theorem rulesAt_empty (s : Nat) : (empty : RuleTable V).rulesAt s = [] := by
  by_cases hs : s < 1
  · rw [Nat.lt_one_iff.mp hs]
    rfl
  · exact rulesAt_of_le (Nat.not_lt.mp hs)

theorem lt_of_mem_rulesAt {t : RuleTable V} {s : Nat} {pair : RulePair V}
    (hpair : pair ∈ t.rulesAt s) : s < t.states.size := by
  by_contra hle
  rw [rulesAt_of_le (Nat.not_lt.mp hle)] at hpair
  cases hpair

namespace Paths

variable {t : RuleTable V} {path : StateId → List Symbol}

def walk (t : RuleTable V) (s : StateId) (labels : List Symbol) : Option StateId :=
  labels.foldl (fun s label => s.bind fun s => t.child? s label) (some s)

theorem walk_append (t : RuleTable V) (s : StateId) (labels : List Symbol) (label : Symbol) :
    walk t s (labels ++ [label]) = (walk t s labels).bind fun s => t.child? s label := by
  rw [walk, List.foldl_append]
  rfl

theorem exists_child (h : Paths t path) {s : Nat} (hs : s < t.states.size) {labels : List Symbol}
    {label : Symbol} (hpath : path s = labels ++ [label]) :
    ∃ p : Nat, p < t.states.size ∧ path p = labels ∧ t.child? p label = some s := by
  have hne : s ≠ root := by
    rintro rfl
    rw [h.atRoot] at hpath
    exact List.append_ne_nil_of_right_ne_nil _ (List.cons_ne_nil label []) hpath.symm
  obtain ⟨p, label', hp, hchild⟩ := h.parent s hs hne
  obtain ⟨-, hpath'⟩ := h.child p hp label' s hchild
  rw [hpath] at hpath'
  obtain ⟨hlabels, hlabel⟩ := List.append_inj' hpath' rfl
  cases hlabel
  exact ⟨p, hp, hlabels.symm, hchild⟩

theorem walk_eq_some_iff (h : Paths t path) {labels : List Symbol} {s : Nat} :
    walk t root labels = some s ↔ s < t.states.size ∧ path s = labels := by
  induction labels using List.reverseRecOn generalizing s with
  | nil =>
    constructor
    · intro hs
      cases hs
      exact ⟨h.size, h.atRoot⟩
    · rintro ⟨hs, hpath⟩
      rw [h.inj s root hs h.size (hpath.trans h.atRoot.symm)]
      rfl
  | append_singleton labels label ih =>
    rw [walk_append, Option.bind_eq_some_iff]
    constructor
    · rintro ⟨p, hp, hs⟩
      obtain ⟨hlt, hpath⟩ := ih.mp hp
      obtain ⟨hlt', hpath'⟩ := h.child p hlt label s hs
      exact ⟨hlt', by rw [hpath', hpath]⟩
    · rintro ⟨hs, hpath⟩
      obtain ⟨p, hp, hlabels, hchild⟩ := h.exists_child hs hpath
      exact ⟨p, ih.mpr ⟨hp, hlabels⟩, hchild⟩

theorem child?_ne_root (h : Paths t path) {s : Nat} {label : Symbol} :
    t.child? s label ≠ some root := by
  intro hchild
  by_cases hs : s < t.states.size
  · have hpath := (h.child s hs label root hchild).2
    rw [h.atRoot] at hpath
    exact List.append_ne_nil_of_right_ne_nil _ (List.cons_ne_nil label []) hpath.symm
  · rw [child?_of_le (Nat.not_lt.mp hs)] at hchild
    cases hchild

theorem step_eq (h : Paths t path) (s : StateId) (label : Symbol) :
    (if t.next s label = root then none else some (t.next s label)) = t.child? s label := by
  rw [next]
  cases hchild : t.child? s label with
  | none => rfl
  | some n =>
    rw [Option.getD_some, if_neg]
    rintro rfl
    exact h.child?_ne_root hchild

end Paths

/-! ## Inserting rule pairs -/

theorem paths_empty : Paths (empty : RuleTable V) fun _ => [] := by
  refine ⟨Nat.one_pos, rfl, fun s hs label n hn => ?_, fun n hn hne => ?_, fun s s' hs hs' _ => ?_,
    fun s pair hpair => ?_⟩
  · have hs : s = 0 := Nat.lt_one_iff.mp hs
    subst hs
    cases hn
  · exact absurd (Nat.lt_one_iff.mp hn) hne
  · rw [Nat.lt_one_iff.mp hs, Nat.lt_one_iff.mp hs']
  · rw [rulesAt_empty] at hpair
    cases hpair

theorem state_modify (t : RuleTable V) (s i : Nat) (f : RuleState V → RuleState V) :
    ({ t with states := t.states.modify s f } : RuleTable V).state i =
      if i = s ∧ s < t.states.size then f (t.state i) else t.state i := by
  by_cases hlt : i < t.states.size
  · by_cases heq : s = i
    · subst heq
      simp [state, Array.getD, hlt, Array.getElem_modify]
    · simp [state, Array.getD, hlt, Array.getElem_modify, heq, Ne.symm heq]
  · have hnot : ¬(i = s ∧ s < t.states.size) := fun ⟨h₁, h₂⟩ => hlt (h₁ ▸ h₂)
    simp [state, Array.getD, hlt, hnot]

theorem state_push (t : RuleTable V) (i : Nat) :
    ({ t with states := t.states.push {} } : RuleTable V).state i = t.state i := by
  by_cases hlt : i < t.states.size
  · simp [state, Array.getD, hlt, Nat.lt_succ_of_lt hlt, Array.getElem_push_lt]
  · by_cases heq : i = t.states.size
    · subst heq
      simp [state, Array.getD]
    · simp [state, Array.getD, hlt, show ¬i < t.states.size + 1 by omega]

theorem descend_of_none {t : RuleTable V} {s : Nat} {label : Symbol}
    (h : t.child? s label = none) :
    let t' := (t.descend s label).1
    (t.descend s label).2 = t.states.size ∧ t'.states.size = t.states.size + 1 ∧
      ∀ i : Nat, t'.state i = if i = s ∧ s < t.states.size then
        { t.state i with children := (t.state i).children ++ [(label, t.states.size)] }
        else t.state i := by
  unfold descend
  rw [h]
  refine ⟨rfl, by simp, fun i => ?_⟩
  simp only
  rw [← state_modify t s i fun st =>
    { st with children := st.children ++ [(label, t.states.size)] }]
  exact state_push ({ t with states := _ } : RuleTable V) i

theorem descend_of_some {t : RuleTable V} {s n : Nat} {label : Symbol}
    (h : t.child? s label = some n) : t.descend s label = (t, n) := by
  rw [descend, h]

theorem maxSpan_descend (t : RuleTable V) (s : Nat) (label : Symbol) :
    (t.descend s label).1.maxSpan = t.maxSpan := by
  unfold descend
  split <;> rfl

theorem rulesAt_descend (t : RuleTable V) (s : Nat) (label : Symbol) (i : Nat) :
    (t.descend s label).1.rulesAt i = t.rulesAt i := by
  cases h : t.child? s label with
  | some n => rw [descend_of_some h]
  | none =>
    obtain ⟨-, -, hstate⟩ := descend_of_none h
    rw [rulesAt, hstate]
    split <;> rfl

theorem child?_descend_of_none {t : RuleTable V} {s : Nat} (hs : s < t.states.size) {label : Symbol}
    (h : t.child? s label = none) (i : Nat) (l : Symbol) :
    (t.descend s label).1.child? i l =
      if i = s ∧ l = label then some t.states.size else t.child? i l := by
  obtain ⟨-, -, hstate⟩ := descend_of_none h
  rw [child?, hstate]
  by_cases hi : i = s
  · subst hi
    rw [if_pos ⟨rfl, hs⟩]
    simp only [LabelMap.get?, List.lookup_append]
    by_cases hl : l = label
    · subst hl
      have hnone : List.lookup l (t.state i).children = none := h
      rw [hnone]
      simp
    · have hone : List.lookup l [(label, t.states.size)] = none := by
        simp [List.lookup_cons, beq_eq_false_iff_ne.mpr hl]
      rw [if_neg fun hil => hl hil.2, hone, Option.or_none]
      rfl
  · rw [if_neg fun his => hi his.1, if_neg fun hil => hi hil.1]
    rfl

def addRule (t : RuleTable V) (s : StateId) (pair : RulePair V) : RuleTable V :=
  { t with states := t.states.modify s fun st => { st with rules := st.rules ++ [pair] } }

theorem insert_eq (t : RuleTable V) (pair : RulePair V) :
    t.insert pair =
      (t.descendAll (path pair)).1.addRule (t.descendAll (path pair)).2 pair := rfl

section

variable {t : RuleTable V} {s : Nat} (pair : RulePair V)

theorem size_addRule : (t.addRule s pair).states.size = t.states.size := Array.size_modify

theorem children_addRule (i : Nat) :
    ((t.addRule s pair).state i).children = (t.state i).children := by
  rw [addRule, state_modify]
  split <;> rfl

theorem child?_addRule (i : Nat) (label : Symbol) :
    (t.addRule s pair).child? i label = t.child? i label := by
  rw [child?, children_addRule]
  rfl

theorem rulesAt_addRule {pair : RulePair V} (hs : s < t.states.size) (i : Nat) :
    (t.addRule s pair).rulesAt i =
      if i = s then t.rulesAt i ++ [pair] else t.rulesAt i := by
  rw [rulesAt, addRule, state_modify]
  by_cases hi : i = s
  · rw [if_pos ⟨hi, hs⟩, if_pos hi]
    rfl
  · rw [if_neg fun h => hi h.1, if_neg hi]
    rfl

theorem Paths.addRule {path : StateId → List Symbol} (h : Paths t path) {pair : RulePair V}
    (hs : s < t.states.size) (hpath : path s = RuleTable.path pair) :
    Paths (t.addRule s pair) path := by
  refine ⟨?_, h.atRoot, ?_, ?_, ?_, fun i p hp => ?_⟩
  · rw [size_addRule]
    exact h.size
  · simp only [size_addRule, child?_addRule]
    exact h.child
  · simp only [size_addRule, child?_addRule]
    exact h.parent
  · simp only [size_addRule]
    exact h.inj
  · rw [rulesAt_addRule hs] at hp
    split at hp
    · rename_i heq
      rcases List.mem_append.mp hp with hp | hp
      · exact h.rules i p hp
      · rw [List.mem_singleton.mp hp, heq, hpath]
    · exact h.rules i p hp

end

namespace Paths

variable {t : RuleTable V} {path : StateId → List Symbol}

theorem path_ne_of_child?_eq_none (h : Paths t path) {s : Nat} (hs : s < t.states.size)
    {label : Symbol} (hchild : t.child? s label = none) {i : Nat} (hi : i < t.states.size) :
    path i ≠ path s ++ [label] := by
  intro heq
  have hw := walk_append t root (path s) label
  rw [h.walk_eq_some_iff.mpr ⟨hs, rfl⟩, Option.bind_some, hchild,
    h.walk_eq_some_iff.mpr ⟨hi, heq⟩] at hw
  cases hw

theorem descend_of_none (h : Paths t path) {s : Nat} (hs : s < t.states.size) {label : Symbol}
    (hchild : t.child? s label = none) :
    Paths (t.descend s label).1 (Function.update path t.states.size (path s ++ [label])) := by
  obtain ⟨-, hsize, -⟩ := RuleTable.descend_of_none hchild
  have hchild' := child?_descend_of_none hs hchild
  have hrules := rulesAt_descend t s label
  generalize (t.descend s label).1 = t' at hsize hchild' hrules
  have hold : ∀ i : Nat, i < t.states.size →
      Function.update path t.states.size (path s ++ [label]) i = path i :=
    fun i hi => Function.update_of_ne (Nat.ne_of_lt hi) _ _
  have hnew : Function.update path t.states.size (path s ++ [label]) t.states.size =
      path s ++ [label] := Function.update_self _ _ _
  generalize Function.update path t.states.size (path s ++ [label]) = path' at hold hnew
  have hcases : ∀ i : Nat, i < t'.states.size → i < t.states.size ∨ i = t.states.size := by
    intro i hi
    omega
  refine ⟨by omega, ?_, fun i hi l n hin => ?_, fun n hn hne => ?_, fun i j hi hj heq => ?_,
    fun i pair hpair => ?_⟩
  · rw [hold root h.size, h.atRoot]
  · rw [hchild'] at hin
    split at hin
    · rename_i heq
      obtain ⟨rfl, rfl⟩ := heq
      cases hin
      exact ⟨by omega, by rw [hnew, hold i hs]⟩
    · have hi' : i < t.states.size := by
        by_contra hle
        rw [child?_of_le (Nat.not_lt.mp hle)] at hin
        cases hin
      obtain ⟨hlt, hpath⟩ := h.child i hi' l n hin
      exact ⟨by omega, by rw [hold n hlt, hold i hi', hpath]⟩
  · rcases hcases n hn with hlt | rfl
    · obtain ⟨p, l, hp, hpn⟩ := h.parent n hlt hne
      refine ⟨p, l, by omega, ?_⟩
      rw [hchild', if_neg]
      · exact hpn
      · rintro ⟨rfl, rfl⟩
        rw [hchild] at hpn
        cases hpn
    · exact ⟨s, label, by omega, by rw [hchild', if_pos ⟨rfl, rfl⟩]⟩
  · -- the edge was missing, so no other state has the path of the new one
    have hapart : ∀ i : Nat, i < t.states.size → path' i ≠ path' t.states.size := by
      intro i hi
      rw [hold i hi, hnew]
      exact h.path_ne_of_child?_eq_none hs hchild hi
    rcases hcases i hi with hi | rfl <;> rcases hcases j hj with hj | rfl
    · rw [hold i hi, hold j hj] at heq
      exact h.inj i j hi hj heq
    · exact absurd heq (hapart i hi)
    · exact absurd heq.symm (hapart j hj)
    · rfl
  · rw [hrules] at hpair
    have hi : i < t.states.size := lt_of_mem_rulesAt hpair
    rw [hold i hi]
    exact h.rules i pair hpair

theorem descend (h : Paths t path) {s : Nat} (hs : s < t.states.size) (label : Symbol) :
    let t' := (t.descend s label).1
    ∃ path', Paths t' path' ∧ (∀ i : Nat, i < t.states.size → path' i = path i) ∧
      t.states.size ≤ t'.states.size ∧ (t.descend s label).2 < t'.states.size ∧
      path' (t.descend s label).2 = path s ++ [label] ∧
      (∀ i, t'.rulesAt i = t.rulesAt i) ∧ t'.maxSpan = t.maxSpan := by
  cases hchild : t.child? s label with
  | some n =>
    obtain ⟨hn, hpath⟩ := h.child s hs label n hchild
    rw [descend_of_some hchild]
    exact ⟨path, h, fun i _ => rfl, Nat.le_refl _, hn, hpath, fun i => rfl, rfl⟩
  | none =>
    obtain ⟨hn, hsize, -⟩ := RuleTable.descend_of_none hchild
    refine ⟨_, h.descend_of_none hs hchild, fun i hi => Function.update_of_ne (Nat.ne_of_lt hi) _ _,
      ?_, ?_, ?_, rulesAt_descend t s label, maxSpan_descend t s label⟩
    · rw [hsize]
      exact Nat.le_succ _
    · rw [hn, hsize]
      exact Nat.lt_succ_self _
    · rw [hn]
      exact Function.update_self _ _ _

theorem descendAll (h : Paths t path) (labels : List Symbol) :
    let t' := (t.descendAll labels).1
    ∃ path', Paths t' path' ∧ (t.descendAll labels).2 < t'.states.size ∧
      path' (t.descendAll labels).2 = labels ∧
      (∀ i, t'.rulesAt i = t.rulesAt i) ∧ t'.maxSpan = t.maxSpan := by
  induction labels using List.reverseRecOn with
  | nil => exact ⟨path, h, h.size, h.atRoot, fun i => rfl, rfl⟩
  | append_singleton labels label ih =>
    obtain ⟨path', h', hs, hpath, hrules, hmax⟩ := ih
    have hstep : t.descendAll (labels ++ [label]) =
        (t.descendAll labels).1.descend (t.descendAll labels).2 label := by
      rw [RuleTable.descendAll, List.foldl_append]
      rfl
    obtain ⟨path'', h'', -, -, hs', hpath', hrules', hmax'⟩ := h'.descend hs label
    rw [hstep]
    exact ⟨path'', h'', hs', by rw [hpath', hpath], fun i => (hrules' i).trans (hrules i),
      hmax'.trans hmax⟩

theorem insert (h : Paths t path) (pair : RulePair V) :
    ∃ path', Paths (t.insert pair) path' ∧ (t.insert pair).maxSpan = t.maxSpan ∧
      ∀ s, ∀ p ∈ (t.insert pair).rulesAt s, p ∈ t.rulesAt s ∨ p = pair := by
  obtain ⟨path', h', hs, hpath, hrules, hmax⟩ := h.descendAll (RuleTable.path pair)
  rw [insert_eq]
  refine ⟨path', h'.addRule hs hpath, hmax, fun s p hp => ?_⟩
  rw [rulesAt_addRule hs, hrules] at hp
  split at hp
  · rcases List.mem_append.mp hp with hp | hp
    · exact Or.inl hp
    · exact Or.inr (List.mem_singleton.mp hp)
  · exact Or.inl hp

end Paths

end ParseForest.RuleTable
