import Mathlib.Algebra.BigOperators.Group.List.Basic
import Mathlib.Data.List.Nodup
import Mathlib.Data.List.Sections
import ParseForest.Selection

/-!
# The selections of a list of choices

The choices are the wheels of an odometer, and the first one turns fastest. So the number of a
selection, written in mixed radix with the lengths of the choices as radices, has as its digits the
positions at which the elements of the selection stand in their choices.
-/

namespace ParseForest

variable {α : Type}

theorem selections_eq_sections {choices : List (List α)} (h : choices ≠ []) :
    selections choices = choices.sections := by
  induction choices with
  | nil => exact absurd rfl h
  | cons first rest ih =>
    cases rest with
    | nil => simp [selections, List.sections]
    | cons second rest =>
      rw [selections, ih (List.cons_ne_nil _ _)]
      · rfl
      · exact List.cons_ne_nil _ _

theorem nodup_sections {choices : List (List α)} (h : ∀ c ∈ choices, c.Nodup) :
    choices.sections.Nodup := by
  induction choices with
  | nil => simp [List.sections]
  | cons first rest ih =>
    obtain ⟨hfirst, hrest⟩ := List.forall_mem_cons.mp h
    refine List.nodup_flatMap.mpr ⟨fun later _ => hfirst.map fun x y hxy => (List.cons.inj hxy).1,
      (ih hrest).imp fun {a b} hab => ?_⟩
    refine List.disjoint_left.mpr fun x hx hx' => hab ?_
    obtain ⟨y, -, rfl⟩ := List.mem_map.mp hx
    obtain ⟨y', -, heq⟩ := List.mem_map.mp hx'
    exact (List.cons.inj heq).2.symm

theorem exists_mem_of_mem_selections {choices : List (List α)} {selection : List α}
    (h : selection ∈ selections choices) : ∀ x ∈ selection, ∃ c ∈ choices, x ∈ c := by
  have hne : choices ≠ [] := by
    intro hnil
    simp [hnil, selections] at h
  rw [selections_eq_sections hne, List.mem_sections] at h
  intro x hx
  obtain ⟨i, hi, rfl⟩ := List.getElem_of_mem hx
  have hi' : i < choices.length := h.length_eq ▸ hi
  exact ⟨choices[i], List.getElem_mem hi', h.get hi hi'⟩

/-! ## Numbers in mixed radix -/

/-- The digit of `k` at place `i`, where the digit at place 0 counts for least. -/
def mixedDigit (radices : List Nat) (k i : Nat) : Nat :=
  k / (radices.take i).prod % radices.getD i 0

@[simp] theorem mixedDigit_zero (n k : Nat) (radices : List Nat) :
    mixedDigit (n :: radices) k 0 = k % n := by
  simp [mixedDigit]

@[simp] theorem mixedDigit_succ (n k i : Nat) (radices : List Nat) :
    mixedDigit (n :: radices) k (i + 1) = mixedDigit radices (k / n) i := by
  simp [mixedDigit, Nat.div_div_eq_div_mul]

theorem existsUnique_mixedDigit {positions radices : List Nat}
    (h : List.Forall₂ (· < ·) positions radices) :
    ∃! k, k < radices.prod ∧
      ∀ i < radices.length, positions[i]? = some (mixedDigit radices k i) := by
  induction h with
  | nil =>
    refine ⟨0, by simp, fun k hk => ?_⟩
    simpa using hk.1
  | @cons p n positions radices hp _ ih =>
    obtain ⟨k, ⟨hk, hdigits⟩, hunique⟩ := ih
    have hn : 0 < n := by omega
    refine ⟨p + n * k, ⟨?_, fun i hi => ?_⟩, fun k' hk' => ?_⟩
    · have hle := Nat.mul_le_mul_left n (Nat.succ_le_of_lt hk)
      rw [Nat.mul_succ] at hle
      simp only [List.prod_cons]
      omega
    · cases i with
      | zero => simp [Nat.mod_eq_of_lt hp]
      | succ i =>
        have hdiv : (p + n * k) / n = k := by
          rw [Nat.add_mul_div_left p k hn, Nat.div_eq_of_lt hp, Nat.zero_add]
        simpa [hdiv] using hdigits i (by simpa using hi)
    · obtain ⟨hlt, hdigits'⟩ := hk'
      have hlow : p = k' % n := by simpa using hdigits' 0 (by simp)
      have hhigh : k' / n = k := by
        apply hunique
        constructor
        · exact Nat.div_lt_of_lt_mul (by simpa using hlt)
        · intro i hi
          simpa using hdigits' (i + 1) (by simpa using hi)
      rw [hlow, ← hhigh]
      exact (Nat.mod_add_div k' n).symm

/-! ## The selections by number -/

theorem getElem?_flatMap_cons (first : List α) (rows : List (List α)) (k : Nat) :
    (rows.flatMap fun later => first.map fun x => x :: later)[k]? =
      rows[k / first.length]?.bind fun later =>
        first[k % first.length]?.map fun x => x :: later := by
  induction rows generalizing k with
  | nil => simp
  | cons row rows ih =>
    rw [List.flatMap_cons]
    by_cases hk : k < first.length
    · rw [List.getElem?_append_left (by simpa using hk), Nat.div_eq_of_lt hk, Nat.mod_eq_of_lt hk]
      simp
    · have hle : first.length ≤ k := Nat.le_of_not_lt hk
      rw [List.getElem?_append_right (by simpa using hle), List.length_map, ih,
        ← Nat.mod_eq_sub_mod hle]
      cases hlen : first.length with
      | zero => simp [List.length_eq_zero_iff.mp hlen]
      | succ n =>
        have hdiv : k / (n + 1) = (k - (n + 1)) / (n + 1) + 1 :=
          Nat.div_eq_sub_div (by omega) (by omega)
        rw [hdiv, List.getElem?_cons_succ]

theorem length_sections (choices : List (List α)) :
    choices.sections.length = (choices.map List.length).prod := by
  induction choices with
  | nil => rfl
  | cons first rest ih => simp [List.sections, List.length_flatMap, ih, Nat.mul_comm]

theorem getElem?_sections {choices : List (List α)} {k : Nat}
    (hk : k < (choices.map List.length).prod) :
    ∃ row, choices.sections[k]? = some row ∧ row.length = choices.length ∧
      ∀ (i : Nat) (hi : i < choices.length),
        row[i]? = choices[i][mixedDigit (choices.map List.length) k i]? := by
  induction choices generalizing k with
  | nil =>
    refine ⟨[], ?_, rfl, fun i hi => absurd hi (Nat.not_lt_zero i)⟩
    have hzero : k = 0 := by simpa using hk
    rw [hzero]
    rfl
  | cons first rest ih =>
    rw [List.map_cons, List.prod_cons] at hk
    obtain ⟨later, hlater, hlength, hentries⟩ := ih (Nat.div_lt_of_lt_mul hk)
    have hpos : 0 < first.length := Nat.pos_of_mul_pos_right (Nat.zero_lt_of_lt hk)
    have hlt : k % first.length < first.length := Nat.mod_lt k hpos
    have hfirst := List.getElem?_eq_getElem hlt
    refine ⟨first[k % first.length] :: later, ?_, by simp [hlength], ?_⟩
    · rw [List.sections, getElem?_flatMap_cons, hlater, hfirst]
      rfl
    · intro i hi
      cases i with
      | zero => simp [hfirst]
      | succ i => simpa using hentries i (by simpa using hi)

/-- There are as many selections as the product of the lengths says. Selection number `k` takes
from each choice the element at the digit of `k`, and each way to take positions within the choices
is that of exactly one number. -/
theorem getElem?_selections {choices : List (List α)} (h : choices ≠ []) :
    let radices := choices.map List.length
    (selections choices).length = radices.prod ∧
    (∀ k < radices.prod, ∃ row, (selections choices)[k]? = some row ∧
      row.length = choices.length ∧
      ∀ (i : Nat) (hi : i < choices.length), row[i]? = choices[i][mixedDigit radices k i]?) ∧
    ∀ positions, List.Forall₂ (fun p choice => p < choice.length) positions choices →
      ∃! k, k < radices.prod ∧
        ∀ i < choices.length, positions[i]? = some (mixedDigit radices k i) := by
  intro radices
  rw [selections_eq_sections h]
  refine ⟨length_sections choices, fun k hk => getElem?_sections hk, fun positions hpositions => ?_⟩
  have hbelow : List.Forall₂ (· < ·) positions radices := List.forall₂_map_right_iff.mpr hpositions
  simpa [radices] using existsUnique_mixedDigit hbelow

theorem getElem?_selections_of_four :
    let choices := [[1], [2, 3], [4], [5, 6, 7]]
    choices ≠ [] ∧ (selections choices).length = 6 ∧
    (∃ row, (selections choices)[3]? = some row ∧ row.length = 4 ∧
      ∀ (i : Nat) (hi : i < 4), row[i]? = choices[i][mixedDigit [1, 2, 1, 3] 3 i]?) ∧
    List.Forall₂ (fun p choice => p < choice.length) [0, 1, 0, 1] choices ∧
    ∃! k, k < 6 ∧ ∀ i < 4, [0, 1, 0, 1][i]? = some (mixedDigit [1, 2, 1, 3] k i) := by
  intro choices
  have hne : choices ≠ [] := List.cons_ne_nil _ _
  have hpositions : List.Forall₂ (fun p choice => p < choice.length) [0, 1, 0, 1] choices := by
    simp [choices]
  obtain ⟨hlength, hrows, hunique⟩ := getElem?_selections hne
  exact ⟨hne, hlength, hrows 3 (by decide), hpositions, hunique _ hpositions⟩

example : selections [[1], [2, 3], [4], [5, 6, 7]] =
    [[1, 2, 4, 5], [1, 3, 4, 5], [1, 2, 4, 6], [1, 3, 4, 6], [1, 2, 4, 7], [1, 3, 4, 7]] := by
  decide

end ParseForest
