import Mathlib.Algebra.Group.Nat.Defs
import ParseForest.Proofs.Symbol.Index

/-!
# Latent annotations cut down

The annotation of a category is the number after the last `@`. Keeping some of its lowest bits and
then fewer of them is keeping the fewer ones at once, and nothing is left to the annotation when
no bit is kept. So the labels of finer and finer grammars lie above one another.
-/

namespace ParseForest.Symbol

open Number

theorem lowBits_eq {n : Nat} (h : n < wordLimit) (bits : Nat) : lowBits bits n = n % 2 ^ bits := by
  unfold lowBits
  split
  · rename_i hbits
    have hle : wordLimit ≤ 2 ^ bits := Nat.pow_le_pow_right (by decide) hbits
    rw [Nat.mod_eq_of_lt (Nat.lt_of_lt_of_le h hle)]
  · rfl

theorem lowBits_lt {n : Nat} (h : n < wordLimit) (bits : Nat) : lowBits bits n < wordLimit := by
  rw [lowBits_eq h]
  exact Nat.lt_of_le_of_lt (Nat.mod_le _ _) h

theorem lowBits_lowBits {n : Nat} (h : n < wordLimit) (a b : Nat) :
    lowBits a (lowBits b n) = lowBits (min a b) n := by
  rw [lowBits_eq (lowBits_lt h b), lowBits_eq h, lowBits_eq h]
  rcases Nat.le_total a b with hab | hba
  · rw [Nat.min_eq_left hab, Nat.mod_mod_of_dvd _ (Nat.pow_dvd_pow 2 hab)]
  · rw [Nat.min_eq_right hba, Nat.mod_eq_of_lt]
    have hlow : n % 2 ^ b < 2 ^ b := Nat.mod_lt _ (Nat.two_pow_pos b)
    exact Nat.lt_of_lt_of_le hlow (Nat.pow_le_pow_right (by decide) hba)

theorem coarse_of_not_mem {s : Symbol} (h : '@' ∉ s.category) (bits : Nat) :
    s.coarse bits = s.unindexed := by
  unfold coarse
  split
  · simp [coarseCategory?, Text.splitLast?_eq_none_iff.mpr h]
  · rename_i hword
    exact (unindexed_eq_of_isTerminal (by simpa [isTerminal] using hword)).symm

theorem coarse_of_category {s : Symbol} (hs : s.isNonTerminal = true) {cs ds : List Char} {n : Nat}
    (h : s.category = cs ++ '@' :: ds) (hds : IsNumeral wordLimit ds n) (bits : Nat) :
    s.coarse bits =
      if bits = 0 then bracket cs else bracket (cs ++ '@' :: digits (lowBits bits n)) := by
  have hat : '@' ∉ ds := hds.not_mem (by decide) (by decide)
  rw [coarse, if_pos hs, h, coarseCategory?, Text.splitLast?_append hat]
  simp only [readNatural?_eq_some_iff.mpr hds, Option.map_some]
  split <;> rfl

theorem coarse_bracket {cs : List Char} (hat : '@' ∉ cs) (hcomma : ',' ∉ cs) (bits : Nat) :
    (bracket cs).coarse bits = bracket cs := by
  have hsplit := splitIndex_of_not_mem hcomma
  rw [coarse_of_not_mem (by simpa [hsplit] using hat), unindexed_of_index (by simp [hsplit])]

theorem coarse_unindexed {s : Symbol} (hat : '@' ∉ s.category) (hcomma : ',' ∉ s.category)
    (bits : Nat) : s.unindexed.coarse bits = s.unindexed := by
  by_cases hzero : s.index = 0
  · rw [unindexed_of_index hzero, coarse_of_not_mem hat, unindexed_of_index hzero]
  · rw [unindexed_of_index_ne hzero, coarse_bracket hat hcomma]

def annotated (category : List Char) (latent index : Option (List Char)) : Symbol :=
  bracket (category ++ latent.elim [] (fun ds => '@' :: ds) ++ index.elim [] fun ds => ',' :: ds)

section

variable {category : List Char} {latent index : Option (List Char)}

theorem category_annotated (hcomma : ',' ∉ category)
    (hlatent : ∀ ds ∈ latent, ∃ n, IsNumeral wordLimit ds n)
    (hindex : ∀ ds ∈ index, ∃ n, IsNumeral wordLimit ds n) :
    (annotated category latent index).category =
      category ++ latent.elim [] fun ds => '@' :: ds := by
  rw [annotated, category_bracket]
  cases index with
  | some ds =>
    obtain ⟨n, hds⟩ := hindex ds rfl
    rw [Option.elim_some, splitIndex_append hds]
  | none =>
    rw [Option.elim_none, List.append_nil, splitIndex_of_not_mem]
    cases latent with
    | none => simpa using hcomma
    | some ds =>
      obtain ⟨n, hds⟩ := hlatent ds rfl
      have hcomma' : ',' ∉ ds := hds.not_mem (by decide) (by decide)
      simp [hcomma, hcomma']

theorem coarse_annotated (hcomma : ',' ∉ category) {ds : List Char} {n : Nat}
    (hds : IsNumeral wordLimit ds n) (hindex : ∀ ds ∈ index, ∃ n, IsNumeral wordLimit ds n)
    (bits : Nat) : (annotated category (some ds) index).coarse bits =
      if bits = 0 then bracket category
      else annotated category (some (digits (lowBits bits n))) none := by
  have hnon : (annotated category (some ds) index).isNonTerminal = true := isNonTerminal_bracket _
  have hcategory : (annotated category (some ds) index).category = category ++ '@' :: ds :=
    category_annotated hcomma (by simpa using ⟨n, hds⟩) hindex
  rw [coarse_of_category hnon hcategory hds]
  simp [annotated]

theorem coarse_coarse_annotated (hat : '@' ∉ category) (hcomma : ',' ∉ category) {ds : List Char}
    {n : Nat} (hds : IsNumeral wordLimit ds n)
    (hindex : ∀ ds ∈ index, ∃ n, IsNumeral wordLimit ds n) (a b : Nat) :
    ((annotated category (some ds) index).coarse b).coarse a =
      (annotated category (some ds) index).coarse (min a b) := by
  rw [coarse_annotated hcomma hds hindex, coarse_annotated hcomma hds hindex]
  by_cases hb : b = 0
  · rw [if_pos hb, if_pos (by omega), coarse_bracket hat hcomma]
  · have hlow := isNumeral_digits (lowBits_lt hds.1 b)
    rw [if_neg hb, coarse_annotated hcomma hlow (by simp), lowBits_lowBits hds.1]
    by_cases ha : a = 0
    · rw [if_pos ha, if_pos (by omega)]
    · rw [if_neg ha, if_neg (by omega)]

/-- Cutting an annotation down to `b` bits and then to `a` bits is cutting it down to the fewer of
them, and what is left of an annotation `n` is `n` modulo the power of two. -/
theorem coarse_coarse (hat : '@' ∉ category) (hcomma : ',' ∉ category)
    (hlatent : ∀ ds ∈ latent, ∃ n, IsNumeral wordLimit ds n)
    (hindex : ∀ ds ∈ index, ∃ n, IsNumeral wordLimit ds n) (a b : Nat) :
    let s := annotated category latent index
    (s.coarse b).coarse a = s.coarse (min a b) ∧
    (a ≤ b → (s.coarse b).coarse a = s.coarse a) ∧
    ∀ ds ∈ latent, ∀ n, IsNumeral wordLimit ds n → s.coarse b =
      if b = 0 then bracket category else bracket (category ++ '@' :: digits (n % 2 ^ b)) := by
  intro s
  have htower : (s.coarse b).coarse a = s.coarse (min a b) := by
    cases latent with
    | none =>
      have hcategory := category_annotated hcomma hlatent hindex
      rw [Option.elim_none, List.append_nil] at hcategory
      have hat' : '@' ∉ s.category := hcategory ▸ hat
      rw [coarse_of_not_mem hat', coarse_of_not_mem hat',
        coarse_unindexed hat' (hcategory ▸ hcomma)]
    | some ds =>
      obtain ⟨n, hds⟩ := hlatent ds rfl
      exact coarse_coarse_annotated hat hcomma hds hindex a b
  refine ⟨htower, fun hab => ?_, fun ds hmem n hds => ?_⟩
  · rw [htower, Nat.min_eq_left hab]
  · cases hmem
    rw [coarse_annotated hcomma hds hindex, lowBits_eq hds.1]
    simp [annotated]

theorem coarse_coarse_of_padded :
    let category := ['N', 'P', '^']
    let latent := some ['0', '1', '3']
    let index := some ['+', '2']
    let s := annotated category latent index
    ('@' ∉ category ∧ ',' ∉ category ∧ (∀ ds ∈ latent, ∃ n, IsNumeral wordLimit ds n) ∧
      ∀ ds ∈ index, ∃ n, IsNumeral wordLimit ds n) ∧
      s = ⟨"[NP^@013,+2]"⟩ ∧ s.coarse 3 = ⟨"[NP^@5]"⟩ ∧ s.coarse 0 = ⟨"[NP^]"⟩ ∧
      (s.coarse 3).coarse 2 = s.coarse 2 ∧ (s.coarse 2).coarse 64 = s.coarse 2 := by
  intro category latent index s
  have hlatent : ∀ ds ∈ latent, ∃ n, IsNumeral wordLimit ds n := by
    simpa [latent] using ⟨13, readNatural?_eq_some_iff.mp (by decide)⟩
  have hindex : ∀ ds ∈ index, ∃ n, IsNumeral wordLimit ds n := by
    simpa [index] using ⟨2, readNatural?_eq_some_iff.mp (by decide)⟩
  have hat : '@' ∉ category := by decide
  have hcomma : ',' ∉ category := by decide
  obtain ⟨-, hfewer, -⟩ := coarse_coarse hat hcomma hlatent hindex 2 3
  obtain ⟨hmore, -, -⟩ := coarse_coarse hat hcomma hlatent hindex 64 2
  exact ⟨⟨hat, hcomma, hlatent, hindex⟩, by decide +kernel, by decide +kernel, by decide +kernel,
    hfewer (by decide), hmore⟩

end

end ParseForest.Symbol
