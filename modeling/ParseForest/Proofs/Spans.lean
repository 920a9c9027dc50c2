import Mathlib.Data.List.Nodup
import ParseForest.Chart

/-!
# The order of the spans

A parser fills the spans from short to long and passes scores back from long to short, both
times by first position among the spans of one length. So when it comes to a span, the spans it
is done with are exactly those that come before it in that order, and among them are all spans
that lie strictly inside.
-/

namespace ParseForest.Chart

variable {α β : Type}

def Earlier (s t : Nat × Nat) : Prop :=
  s.2 - s.1 < t.2 - t.1 ∨ s.2 - s.1 = t.2 - t.1 ∧ s.1 < t.1

def spansOfLength (n length : Nat) : List (Nat × Nat) :=
  (List.range (n - length + 1)).map fun first => (first, first + length)

theorem mem_spansOfLength {n length : Nat} (h : length ≤ n) {s : Nat × Nat} :
    s ∈ spansOfLength n length ↔ s.2 = s.1 + length ∧ s.2 ≤ n := by
  simp only [spansOfLength, List.mem_map, List.mem_range]
  constructor
  · rintro ⟨first, hf, rfl⟩
    exact ⟨rfl, by simp only; omega⟩
  · rintro ⟨hs, hn⟩
    exact ⟨s.1, by omega, Prod.ext rfl hs.symm⟩

theorem pairwise_spansOfLength (n length : Nat) :
    (spansOfLength n length).Pairwise fun s t => s.1 < t.1 := by
  refine List.pairwise_map.mpr ?_
  exact List.pairwise_lt_range

theorem mem_spansByLength {n : Nat} {s : Nat × Nat} :
    s ∈ spansByLength n ↔ s.1 < s.2 ∧ s.2 ≤ n := by
  change s ∈ (List.range' 1 n).flatMap (spansOfLength n) ↔ _
  rw [List.mem_flatMap]
  constructor
  · rintro ⟨length, hl, hs⟩
    have hle := List.mem_range'_1.mp hl
    have hs := (mem_spansOfLength (by omega)).mp hs
    omega
  · rintro ⟨hlt, hn⟩
    refine ⟨s.2 - s.1, List.mem_range'_1.mpr (by omega), ?_⟩
    exact (mem_spansOfLength (by omega)).mpr (by omega)

theorem mem_spansFromLong {n : Nat} {s : Nat × Nat} :
    s ∈ spansFromLong n ↔ s.1 < s.2 ∧ s.2 ≤ n := by
  rw [← mem_spansByLength]
  simp only [spansFromLong, spansByLength, List.mem_flatMap, List.mem_reverse]

theorem pairwise_spansByLength (n : Nat) : (spansByLength n).Pairwise Earlier := by
  change ((List.range' 1 n).flatMap (spansOfLength n)).Pairwise Earlier
  refine List.pairwise_flatMap.mpr ⟨fun length hl => ?_, ?_⟩
  · have hle := List.mem_range'_1.mp hl
    refine (pairwise_spansOfLength n length).imp_of_mem fun {s t} hs ht hlt => ?_
    have hs := (mem_spansOfLength (by omega)).mp hs
    have ht := (mem_spansOfLength (by omega)).mp ht
    exact Or.inr ⟨by omega, hlt⟩
  · refine (List.pairwise_lt_range' (s := 1) (n := n)).imp_of_mem fun {k l} hk hl hlt s hs t ht => ?_
    have hk := List.mem_range'_1.mp hk
    have hl := List.mem_range'_1.mp hl
    have hs := (mem_spansOfLength (by omega)).mp hs
    have ht := (mem_spansOfLength (by omega)).mp ht
    exact Or.inl (by omega)

def Outer (s t : Nat × Nat) : Prop :=
  t.2 - t.1 < s.2 - s.1 ∨ s.2 - s.1 = t.2 - t.1 ∧ s.1 < t.1

theorem pairwise_spansFromLong (n : Nat) : (spansFromLong n).Pairwise Outer := by
  change ((List.range' 1 n).reverse.flatMap (spansOfLength n)).Pairwise Outer
  refine List.pairwise_flatMap.mpr ⟨fun length hl => ?_, ?_⟩
  · have hle := List.mem_range'_1.mp (List.mem_reverse.mp hl)
    refine (pairwise_spansOfLength n length).imp_of_mem fun {s t} hs ht hlt => ?_
    have hs := (mem_spansOfLength (by omega)).mp hs
    have ht := (mem_spansOfLength (by omega)).mp ht
    exact Or.inr ⟨by omega, hlt⟩
  · refine List.pairwise_reverse.mpr ?_
    refine (List.pairwise_lt_range' (s := 1) (n := n)).imp_of_mem fun {k l} hk hl hlt s hs t ht => ?_
    have hk := List.mem_range'_1.mp hk
    have hl := List.mem_range'_1.mp hl
    have hs := (mem_spansOfLength (by omega)).mp hs
    have ht := (mem_spansOfLength (by omega)).mp ht
    exact Or.inl (by omega)

theorem mem_before_iff {R : α → α → Prop} (hirr : ∀ a, ¬R a a) (hasymm : ∀ a b, R a b → ¬R b a)
    {before after : List α} {a b : α} (h : (before ++ a :: after).Pairwise R) :
    b ∈ before ↔ b ∈ before ++ a :: after ∧ R b a := by
  rw [List.pairwise_append, List.pairwise_cons] at h
  obtain ⟨-, ⟨hafter, -⟩, hbefore⟩ := h
  constructor
  · intro hb
    exact ⟨List.mem_append_left _ hb, hbefore b hb a List.mem_cons_self⟩
  · rintro ⟨hb, hR⟩
    rcases List.mem_append.mp hb with hb | hb
    · exact hb
    · exfalso
      rcases List.mem_cons.mp hb with rfl | hb
      · exact hirr b hR
      · exact hasymm b a hR (hafter b hb)

theorem mem_done_iff {n : Nat} {done rest : List (Nat × Nat)} {s : Nat × Nat}
    (h : spansByLength n = done ++ s :: rest) {t : Nat × Nat} :
    t ∈ done ↔ t.1 < t.2 ∧ t.2 ≤ n ∧ Earlier t s := by
  have hirr : ∀ a, ¬Earlier a a := fun a ha => by
    unfold Earlier at ha
    omega
  have hasymm : ∀ a b, Earlier a b → ¬Earlier b a := fun a b hab hba => by
    unfold Earlier at hab hba
    omega
  rw [mem_before_iff hirr hasymm (h ▸ pairwise_spansByLength n), ← h, mem_spansByLength, and_assoc]

theorem mem_passed_iff {n : Nat} {done rest : List (Nat × Nat)} {s : Nat × Nat}
    (h : spansFromLong n = done ++ s :: rest) {t : Nat × Nat} :
    t ∈ done ↔ t.1 < t.2 ∧ t.2 ≤ n ∧ Outer t s := by
  have hirr : ∀ a, ¬Outer a a := fun a ha => by
    unfold Outer at ha
    omega
  have hasymm : ∀ a b, Outer a b → ¬Outer b a := fun a b hab hba => by
    unfold Outer at hab hba
    omega
  rw [mem_before_iff hirr hasymm (h ▸ pairwise_spansFromLong n), ← h, mem_spansFromLong, and_assoc]

theorem isSpan_of_split {n : Nat} {done rest : List (Nat × Nat)} {s : Nat × Nat}
    (h : spansByLength n = done ++ s :: rest) : s.1 < s.2 ∧ s.2 ≤ n :=
  mem_spansByLength.mp (h ▸ List.mem_append_right _ List.mem_cons_self)

theorem not_mem_done {n : Nat} {done rest : List (Nat × Nat)} {s : Nat × Nat}
    (h : spansByLength n = done ++ s :: rest) : s ∉ done := by
  intro hs
  obtain ⟨-, -, he⟩ := (mem_done_iff h).mp hs
  rcases he with he | he <;> omega

theorem nodup_spansByLength (n : Nat) : (spansByLength n).Nodup := by
  refine (pairwise_spansByLength n).imp fun {s t} hst heq => ?_
  unfold Earlier at hst
  rw [heq] at hst
  omega

theorem disjoint_rest {n : Nat} {done rest : List (Nat × Nat)}
    (h : spansByLength n = done ++ rest) {t : Nat × Nat} (ht : t ∈ done) : t ∉ rest := by
  have hnd := nodup_spansByLength n
  rw [h] at hnd
  exact List.disjoint_of_nodup_append hnd ht

theorem not_mem_rest_of_shorter {n : Nat} {done rest : List (Nat × Nat)}
    (h : spansByLength n = done ++ rest) {s t : Nat × Nat} (hs : s ∈ done)
    (hlt : t.2 - t.1 < s.2 - s.1) : t ∉ rest := by
  intro ht
  have hpairwise := pairwise_spansByLength n
  rw [h] at hpairwise
  have hearlier := (List.pairwise_append.mp hpairwise).2.2 s hs t ht
  unfold Earlier at hearlier
  omega

theorem exists_split {n first last : Nat} (h : first < last ∧ last ≤ n) :
    ∃ done rest, spansByLength n = done ++ (first, last) :: rest := by
  have hmem : (first, last) ∈ spansByLength n := mem_spansByLength.mpr h
  exact List.append_of_mem hmem

theorem split_after {n : Nat} {done rest : List (Nat × Nat)} {s : Nat × Nat}
    (h : spansByLength n = done ++ s :: rest) :
    spansByLength n = (done ++ [s]) ++ rest ∧ s ∉ rest := by
  have hs : spansByLength n = (done ++ [s]) ++ rest := by
    rw [h, List.append_assoc]
    rfl
  exact ⟨hs, disjoint_rest hs (List.mem_append_right _ List.mem_cons_self)⟩

end ParseForest.Chart
