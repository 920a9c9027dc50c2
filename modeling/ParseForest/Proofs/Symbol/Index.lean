import Mathlib.Tactic.ByContra
import ParseForest.Symbol

/-!
# Categories and indices of non-terminals

What stands between the brackets of a non-terminal is read from its end: a numeral after the last
comma is an index, and what comes before that comma is the category. A numeral of value zero is
taken from the category as well, but the symbol then counts as one without an index and keeps it.
-/

namespace ParseForest

/-! ## Numerals -/

namespace Number

def IsNumeral (bound : Nat) (cs : List Char) (n : Nat) : Prop :=
  n < bound ∧ ∃ ds, (cs = ds ∨ cs = '+' :: ds) ∧ ds ≠ [] ∧ (∀ c ∈ ds, c.isDigit = true) ∧
    digitsValue 0 ds = n

theorem readDigits?_eq_some_iff {ds : List Char} {n : Nat} : readDigits? ds = some n ↔
    ds ≠ [] ∧ (∀ c ∈ ds, c.isDigit = true) ∧ digitsValue 0 ds = n := by
  simp [readDigits?, and_assoc]

theorem readNatural?_eq_some_iff {bound n : Nat} {cs : List Char} :
    readNatural? bound cs = some n ↔ IsNumeral bound cs n := by
  unfold readNatural?
  rw [Option.filter_eq_some_iff, readDigits?_eq_some_iff, decide_eq_true_iff, and_comm]
  refine and_congr_right fun _ => ⟨fun h => ?_, fun h => ?_⟩
  · split at h
    · exact ⟨_, .inr rfl, h⟩
    · exact ⟨_, .inl rfl, h⟩
  · obtain ⟨ds, hcs, hds⟩ := h
    rcases hcs with rfl | rfl
    · split
      · -- a plus sign is no digit
        exact absurd (hds.2.1 '+' List.mem_cons_self) (by decide)
      · exact hds
    · exact hds

theorem isDigit_of_mem_digits {n : Nat} {c : Char} (h : c ∈ digits n) : c.isDigit = true :=
  Nat.isDigit_of_mem_toDigits (by decide) (by decide) h

theorem isNumeral_digits {bound n : Nat} (h : n < bound) : IsNumeral bound (digits n) n := by
  refine ⟨h, digits n, .inl rfl, ?_, fun c => isDigit_of_mem_digits, ?_⟩
  · simp [digits]
  · exact Nat.ofDigitChars_ten_toDigits

theorem IsNumeral.not_mem {bound n : Nat} {cs : List Char} (h : IsNumeral bound cs n) {c : Char}
    (hdigit : c.isDigit = false) (hplus : c ≠ '+') : c ∉ cs := by
  obtain ⟨-, ds, hcs, -, hall, -⟩ := h
  have hds : c ∉ ds := by
    intro hc
    simp [hall c hc] at hdigit
  rcases hcs with rfl | rfl
  · exact hds
  · simp [hplus, hds]

end Number

open Number

namespace Symbol

/-! ## Brackets -/

theorem inside?_bracket (cs : List Char) : (bracket cs).inside? = some cs := by
  have hlist : (bracket cs).text.toList = '[' :: (cs ++ [']']) := by
    simp [bracket, ofChars]
  rw [inside?, hlist]
  simp

theorem isNonTerminal_bracket (cs : List Char) : (bracket cs).isNonTerminal = true := by
  rw [isNonTerminal, inside?_bracket]
  rfl

theorem bracket_inj {cs cs' : List Char} : bracket cs = bracket cs' ↔ cs = cs' := by
  constructor
  · intro h
    simpa [inside?_bracket] using congrArg inside? h
  · exact congrArg bracket

theorem exists_eq_bracket {s : Symbol} (h : s.isNonTerminal = true) : ∃ cs, s = bracket cs := by
  obtain ⟨cs, hcs⟩ := Option.isSome_iff_exists.mp h
  unfold inside? at hcs
  split at hcs
  · rename_i rest htext
    split at hcs
    · rename_i hlast
      obtain ⟨ds, rfl⟩ := List.getLast?_eq_some_iff.mp hlast
      refine ⟨ds, ?_⟩
      rw [bracket, List.cons_append, ofChars, ← htext, String.ofList_toList]
    · cases hcs
  · cases hcs

@[simp] theorem category_bracket (cs : List Char) : (bracket cs).category = (splitIndex cs).1 := by
  simp [category, split?, inside?_bracket]

@[simp] theorem index_bracket (cs : List Char) : (bracket cs).index = (splitIndex cs).2 := by
  simp [index, split?, inside?_bracket]

theorem unindexed_of_index {s : Symbol} (h : s.index = 0) : s.unindexed = s := by
  unfold index at h
  unfold unindexed
  split
  · rename_i cs n hsplit
    rw [hsplit] at h
    exact if_pos h
  · rfl

theorem unindexed_of_index_ne {s : Symbol} (h : s.index ≠ 0) :
    s.unindexed = bracket s.category := by
  unfold index at h
  unfold unindexed category
  split
  · rename_i cs n hsplit
    rw [hsplit] at h
    exact if_neg h
  · rename_i hsplit
    rw [hsplit] at h
    exact absurd rfl h

/-! ## Splitting off the index -/

theorem splitIndex_of_not_mem {cs : List Char} (h : ',' ∉ cs) : splitIndex cs = (cs, 0) := by
  simp [splitIndex, Text.splitLast?_eq_none_iff.mpr h]

theorem splitIndex_append {ds : List Char} {n : Nat} (h : IsNumeral wordLimit ds n)
    (cs : List Char) : splitIndex (cs ++ ',' :: ds) = (cs, n) := by
  have hcomma : ',' ∉ ds := h.not_mem (by decide) (by decide)
  simp [splitIndex, Text.splitLast?_append hcomma, readNatural?_eq_some_iff.mpr h]

theorem splitIndex_cases (cs : List Char) : splitIndex cs = (cs, 0) ∨
    ∃ before ds n, IsNumeral wordLimit ds n ∧ cs = before ++ ',' :: ds := by
  unfold splitIndex
  split
  · rename_i before after hsplit
    split
    · rename_i n hnumber
      exact .inr ⟨before, after, n, readNatural?_eq_some_iff.mp hnumber,
        Text.eq_of_splitLast? hsplit⟩
    · exact .inl rfl
  · exact .inl rfl

def Numbered (s t : Symbol) (n : Nat) : Prop :=
  ∃ cs ds, IsNumeral wordLimit ds n ∧ t = bracket cs ∧ s = bracket (cs ++ ',' :: ds)

namespace Numbered

variable {s t : Symbol} {n : Nat}

theorem index_eq (h : s.Numbered t n) : s.index = n := by
  obtain ⟨cs, ds, hds, rfl, rfl⟩ := h
  simp [splitIndex_append hds]

theorem bracket_category (h : s.Numbered t n) : bracket s.category = t := by
  obtain ⟨cs, ds, hds, rfl, rfl⟩ := h
  simp [splitIndex_append hds]

theorem ne (h : s.Numbered t n) : s ≠ t := by
  obtain ⟨cs, ds, hds, rfl, rfl⟩ := h
  simp [bracket_inj]

end Numbered

theorem eq_bracket_or_numbered {s : Symbol} (h : s.isNonTerminal = true) :
    (s.index = 0 ∧ bracket s.category = s) ∨ s.Numbered (bracket s.category) s.index := by
  obtain ⟨cs, rfl⟩ := exists_eq_bracket h
  rcases splitIndex_cases cs with hplain | ⟨before, ds, n, hds, rfl⟩
  · exact .inl (by simp [hplain])
  · refine .inr ⟨before, ds, ?_, ?_, rfl⟩
    · simpa [splitIndex_append hds] using hds
    · simp [splitIndex_append hds]

theorem isNonTerminal_of_index_ne {s : Symbol} (h : s.index ≠ 0) : s.isNonTerminal = true := by
  by_contra hword
  simp only [isNonTerminal, Option.isSome_iff_ne_none, not_not] at hword
  simp [index, split?, hword] at h

theorem numbered_of_index_ne {s : Symbol} (h : s.index ≠ 0) :
    s.Numbered (bracket s.category) s.index :=
  (eq_bracket_or_numbered (isNonTerminal_of_index_ne h)).resolve_left fun hplain => h hplain.1

theorem unindexed_eq_of_isTerminal {s : Symbol} (h : s.isTerminal = true) : s.unindexed = s := by
  apply unindexed_of_index
  by_contra hne
  simp [isTerminal, isNonTerminal_of_index_ne hne] at h

theorem isNonTerminal_unindexed (s : Symbol) : s.unindexed.isNonTerminal = s.isNonTerminal := by
  by_cases h : s.index = 0
  · rw [unindexed_of_index h]
  · rw [unindexed_of_index_ne h, isNonTerminal_bracket, isNonTerminal_of_index_ne h]

theorem unindexed_eq_self_iff {s : Symbol} : s.unindexed = s ↔ s.index = 0 := by
  constructor
  · intro h
    by_contra hne
    rw [unindexed_of_index_ne hne] at h
    exact (numbered_of_index_ne hne).ne h.symm
  · exact unindexed_of_index

theorem unindexed_eq_bracket_iff {s : Symbol} (h : s.isNonTerminal = true) :
    s.unindexed = bracket s.category ↔ ¬∃ t, s.Numbered t 0 := by
  rcases eq_bracket_or_numbered h with ⟨hindex, hplain⟩ | hnumbered
  · rw [unindexed_of_index hindex, hplain]
    refine iff_of_true rfl fun ⟨t, ht⟩ => ht.ne ?_
    rw [← ht.bracket_category, hplain]
  · by_cases hindex : s.index = 0
    · rw [unindexed_of_index hindex]
      rw [hindex] at hnumbered
      exact iff_of_false hnumbered.ne fun hnot => hnot ⟨_, hnumbered⟩
    · rw [unindexed_of_index_ne hindex]
      exact iff_of_true rfl fun ⟨t, ht⟩ => hindex ht.index_eq

/-- Taking the index off leaves an index when two numerals stand at the end, neither of them of
value zero. -/
theorem index_unindexed_eq_zero_iff {s : Symbol} : s.unindexed.index = 0 ↔
    ¬∃ t u m n, 0 < m ∧ 0 < n ∧ s.Numbered t n ∧ t.Numbered u m := by
  constructor
  · intro h htwo
    obtain ⟨t, u, m, n, hm, hn, hs, ht⟩ := htwo
    have hindex : s.index ≠ 0 := by
      have hs := hs.index_eq
      omega
    rw [unindexed_of_index_ne hindex, hs.bracket_category, ht.index_eq] at h
    omega
  · intro h
    by_contra hne
    have hindex : s.index ≠ 0 := by
      intro hzero
      rw [unindexed_of_index hzero] at hne
      exact hne hzero
    have hs := numbered_of_index_ne hindex
    have ht := numbered_of_index_ne hne
    rw [unindexed_of_index_ne hindex] at ht hne
    exact h ⟨_, _, _, _, Nat.pos_of_ne_zero hne, Nat.pos_of_ne_zero hindex, hs, ht⟩

theorem numbered_withIndex (s : Symbol) {n : Nat} (h : n < wordLimit) :
    (s.withIndex n).Numbered (bracket s.category) n :=
  ⟨s.category, digits n, isNumeral_digits h, rfl, rfl⟩

theorem category_withIndex (s : Symbol) {n : Nat} (h : n < wordLimit) :
    (s.withIndex n).category = s.category :=
  bracket_inj.mp (s.numbered_withIndex h).bracket_category

/-- A non-terminal without its index is its category in brackets unless it ends in a numeral of
value zero, which is read as no part of the category and yet as no index. It has no index any more,
and stays when the index is taken off again, unless two numerals stand at its end. An index put in
takes the place of the old one, and taking it off leaves the category. -/
theorem unindexed_eq_bracket_and_withIndex (s : Symbol) (h : s.isNonTerminal = true) :
    (s.unindexed = bracket s.category ↔ ¬∃ t, s.Numbered t 0) ∧
    (s.unindexed.index = 0 ↔
      ¬∃ t u m n, 0 < m ∧ 0 < n ∧ s.Numbered t n ∧ t.Numbered u m) ∧
    (s.unindexed.unindexed = s.unindexed ↔ s.unindexed.index = 0) ∧
    ∀ i, 1 ≤ i → i < wordLimit → (s.withIndex i).index = i ∧
      (s.withIndex i).category = s.category ∧ (s.withIndex i).unindexed = bracket s.category := by
  refine ⟨unindexed_eq_bracket_iff h, index_unindexed_eq_zero_iff, unindexed_eq_self_iff,
    fun i hi hlimit => ?_⟩
  have hindex := (s.numbered_withIndex hlimit).index_eq
  have hcategory := s.category_withIndex hlimit
  refine ⟨hindex, hcategory, ?_⟩
  rw [unindexed_of_index_ne (by omega), hcategory]

theorem unindexed_eq_bracket_and_withIndex_of_plus :
    let s : Symbol := ⟨"[A^,+3]"⟩
    s.isNonTerminal = true ∧ (¬∃ t, s.Numbered t 0) ∧ s.unindexed.index = 0 ∧
      s.unindexed.unindexed = s.unindexed ∧ (s.withIndex 12).index = 12 ∧
      (s.withIndex 12).category = s.category ∧
      (s.withIndex 12).unindexed = bracket s.category := by
  intro s
  have hnon : s.isNonTerminal = true := by decide +kernel
  have hbracket : s.unindexed = bracket s.category := by decide +kernel
  have hindex : s.unindexed.index = 0 := by decide +kernel
  obtain ⟨hzero, -, hsame, hput⟩ := s.unindexed_eq_bracket_and_withIndex hnon
  exact ⟨hnon, hzero.mp hbracket, hindex, hsame.mpr hindex, hput 12 (by decide) (by decide)⟩

/-- The numeral of value zero is taken from the category and left in the symbol; of two numerals
the first is left as an index. -/
theorem unindexed_ne_bracket_category :
    let s : Symbol := ⟨"[A,0]"⟩
    let t : Symbol := ⟨"[A,1,2]"⟩
    (s.isNonTerminal = true ∧ bracket s.category = ⟨"[A]"⟩ ∧ s.unindexed = s ∧
      s.unindexed ≠ bracket s.category) ∧
    (t.isNonTerminal = true ∧ t.unindexed.index = 1 ∧
      t.unindexed.unindexed ≠ t.unindexed) := by
  decide +kernel

end Symbol

end ParseForest
