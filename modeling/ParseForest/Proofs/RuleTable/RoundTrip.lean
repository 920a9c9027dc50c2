import ParseForest.Proofs.RuleTable.Lines
import ParseForest.Proofs.RuleTable.Numbering

/-!
# Reading what a table prints

A table that was read prints its rule pairs by state, a line each. Reading these lines makes the
same states again, with the same rule pairs at them in the same order. Only the attributes are
lost, which are not printed.
-/

namespace ParseForest

open Text

/-! ## Numerals -/

namespace Number

theorem plain_of_isDigit {c : Char} (h : c.isDigit = true) :
    isBlank c = false ∧ c ≠ '/' ∧ c ≠ '=' := by
  have hrange : 48 ≤ c.toNat ∧ c.toNat ≤ 57 := by
    simpa [Char.isDigit, UInt32.le_iff_toNat_le] using h
  refine ⟨?_, ?_, ?_⟩
  · have hne : ∀ n, n < 48 ∨ 57 < n → c.toNat ≠ n := by omega
    simp [isBlank]
    omega
  · rintro rfl
    simp at hrange
  · rintro rfl
    simp at hrange

theorem mem_positional {d : Decimal} {c : Char} (h : c ∈ d.positional) :
    c.isDigit = true ∨ c = '.' := by
  have hzero : Char.isDigit '0' = true := by decide
  unfold Decimal.positional at h
  split at h
  · rcases List.mem_append.mp h with h | h
    · exact .inl (isDigit_of_mem_digits h)
    · rw [List.eq_of_mem_replicate h]
      exact .inl hzero
  · rename_i n _
    have hpadded : ∀ c ∈ List.replicate (n + 1 + 1 - (digits d.digits).length) '0' ++
        digits d.digits, c.isDigit = true := by
      intro c hc
      rcases List.mem_append.mp hc with hc | hc
      · rw [List.eq_of_mem_replicate hc]
        exact hzero
      · exact isDigit_of_mem_digits hc
    rcases List.mem_append.mp h with h | h
    · exact .inl (hpadded c (List.mem_of_mem_take h))
    · rcases List.mem_cons.mp h with rfl | h
      · exact .inr rfl
      · exact .inl (hpadded c (List.mem_of_mem_drop h))

theorem positional_ne_nil (d : Decimal) : d.positional ≠ [] := by
  unfold Decimal.positional
  split
  · simp [digits]
  · simp

theorem renderReal_plain (x : Float) : (renderReal x).toList ≠ [] ∧
    ∀ c ∈ (renderReal x).toList, isBlank c = false ∧ c ≠ '/' ∧ c ≠ '=' := by
  have hpositional : ∀ d : Decimal, ∀ c ∈ d.positional, isBlank c = false ∧ c ≠ '/' ∧ c ≠ '=' := by
    intro d c hc
    rcases mem_positional hc with hdigit | rfl
    · exact plain_of_isDigit hdigit
    · decide
  have hword : ∀ w ∈ ["NaN", "inf", "0", "", "-"], ∀ c ∈ w.toList,
      isBlank c = false ∧ c ≠ '/' ∧ c ≠ '=' := by
    have hall : (["NaN", "inf", "0", "", "-"].all fun w =>
        w.toList.all fun c => !isBlank c && c != '/' && c != '=') = true := by decide +kernel
    simpa [and_assoc] using hall
  have hsign : (if x.toBits.toNat < Nat.pow 2 63 then "" else "-") ∈
      ["NaN", "inf", "0", "", "-"] := by
    split <;> simp
  have hsigned : ∀ body : String, body.toList ≠ [] → (∀ c ∈ body.toList,
      isBlank c = false ∧ c ≠ '/' ∧ c ≠ '=') →
      ((if x.toBits.toNat < Nat.pow 2 63 then "" else "-") ++ body).toList ≠ [] ∧
        ∀ c ∈ ((if x.toBits.toNat < Nat.pow 2 63 then "" else "-") ++ body).toList,
          isBlank c = false ∧ c ≠ '/' ∧ c ≠ '=' := by
    intro body hne hbody
    refine ⟨by simp [hne], fun c hc => ?_⟩
    rw [String.toList_append] at hc
    rcases List.mem_append.mp hc with hc | hc
    · exact hword _ hsign c hc
    · exact hbody c hc
  unfold renderReal
  split
  · exact ⟨by simp, hword "NaN" (by simp)⟩
  · simp only
    split
    · exact hsigned "inf" (by simp) (hword "inf" (by simp))
    · split
      · exact hsigned "0" (by simp) (hword "0" (by simp))
      · refine hsigned _ ?_ ?_
        · simpa using positional_ne_nil _
        · simpa using hpositional _

end Number

/-! ## Tables -/

def RulePair.withoutAttributes {V : Type} (pair : RulePair V) : RulePair V :=
  { pair with attributes := NameMap.empty }

variable {V : Type} [NumberText V]

theorem RuleReader.eq_foldl_of_readLines {lines : List (List Char × Nat)} {t u : RuleTable V}
    (h : readLines t lines = .ok u) :
    ∃ pairs : List (RulePair V), (∀ pair ∈ pairs, IsLine pair) ∧
      u = pairs.foldl RuleTable.insert t := by
  induction lines generalizing t with
  | nil =>
    cases h
    exact ⟨[], by simp, rfl⟩
  | cons line lines ih =>
    rw [readLines] at h
    split at h
    · exact ih h
    · split at h
      · cases h
      · rename_i pair hpair
        obtain ⟨pairs, hpairs, rfl⟩ := ih h
        have hclear : Clear (content line.1) := (clear_beforeMark line.1).of_isInfix
          (isInfix_trim _)
        refine ⟨pair :: pairs, fun p hp => ?_, rfl⟩
        rcases List.mem_cons.mp hp with rfl | hp
        · exact isLine_of_readPair hpair hclear
        · exact hpairs p hp

namespace RuleTable

omit [NumberText V] in
theorem numbered_foldl_insert {t : RuleTable V} (h : t.Numbered root) (pairs : List (RulePair V)) :
    (pairs.foldl insert t).Numbered root := by
  induction pairs generalizing t with
  | nil => exact h
  | cons pair pairs ih => exact ih (h.insert pair)

theorem isLine_of_read {text : String} {t : RuleTable V} (h : read text = .ok t) :
    t.Numbered root ∧ t.Plain ∧ ∀ pair ∈ t.pairs, RuleReader.IsLine pair := by
  obtain ⟨pairs, hpairs, rfl⟩ := RuleReader.eq_foldl_of_readLines h
  have hshares : pairs.foldl insert empty ∈ Grammar.ofShares [pairs] := by simp [Grammar.ofShares]
  refine ⟨numbered_foldl_insert numbered_empty pairs, Grammar.plain_ofShares _ _ hshares,
    fun pair hpair => hpairs pair ?_⟩
  have hperm := Grammar.perm_pairs_ofShares [pairs]
  simp [Grammar.ofShares, Grammar.pairs] at hperm
  exact hperm.mem_iff.mp hpair

theorem read_lines {pairs : List (RulePair V)} (hpairs : ∀ pair ∈ pairs, RuleReader.IsLine pair)
    (hvalues : ∀ pair ∈ pairs, ∀ e ∈ pair.features.entries, RuleReader.ReadsBack e.2) :
    read (String.join (pairs.map fun pair => pair.render ++ "\n")) =
      .ok ((pairs.map RulePair.withoutAttributes).foldl insert empty) := by
  have htext : (String.join (pairs.map fun pair => pair.render ++ "\n")).toList =
      (pairs.map RulePair.render).flatMap fun line => line.toList ++ ['\n'] := by
    simp [String.toList_join, List.flatMap_map]
  rw [read, htext]
  refine RuleReader.readLines_eq (fun line hline => ?_) ?_ empty 1
  · obtain ⟨pair, hpair, rfl⟩ := List.mem_map.mp hline
    exact (hpairs pair hpair).not_mem_render (hvalues pair hpair)
  · rw [List.forall₂_map_left_iff, List.forall₂_map_right_iff, List.forall₂_same]
    intro pair hpair
    rw [(hpairs pair hpair).content_render (hvalues pair hpair)]
    exact (hpairs pair hpair).readPair_render (hvalues pair hpair)

/-- A table that was read is read again from what it prints, without the attributes, and prints
the same again. Its numbers have to be read back from their texts. -/
theorem read_render {text : String} {t : RuleTable Float} (h : read text = .ok t)
    (hvalues : ∀ pair ∈ t.pairs, ∀ e ∈ pair.features.entries,
      NumberText.read (NumberText.render e.2).toList = .ok e.2) :
    read t.render = .ok (t.mapPairs RulePair.withoutAttributes) ∧
      (t.mapPairs RulePair.withoutAttributes).render = t.render := by
  obtain ⟨hnumbered, hplain, hlines⟩ := isLine_of_read h
  constructor
  · have hread := read_lines hlines fun pair hpair e he =>
      ⟨(Number.renderReal_plain e.2).1, (Number.renderReal_plain e.2).2, hvalues pair hpair e he⟩
    have hmade : (t.pairs.map RulePair.withoutAttributes).foldl insert empty =
        t.mapPairs RulePair.withoutAttributes :=
      foldl_insert_mapPairs hnumbered hplain.kind hplain.maxSpan fun _ => rfl
    rw [← hmade]
    exact hread
  · simp only [render, pairs_mapPairs, List.map_map]
    rfl

def lettered : String :=
  "[S]|||[A,1] b |||[A,1] |x|||y ||| x=0.5 y==-1 |||k=\"v\" // first\n\n  [S] ||| c\n" ++
    "[S] ||| [A] ||| [A] d ||| x=1e-3\n"

theorem read_render_lettered : ∃ t : RuleTable Float, read lettered = .ok t ∧
    (∀ pair ∈ t.pairs, ∀ e ∈ pair.features.entries,
      NumberText.read (NumberText.render e.2).toList = .ok e.2) ∧
    t.states.size = 4 ∧ t.pairs.length = 3 ∧
    read t.render = .ok (t.mapPairs RulePair.withoutAttributes) ∧
    (t.mapPairs RulePair.withoutAttributes).render = t.render := by
  have hread : read lettered = .ok (ofText lettered : RuleTable Float) := by
    have hsome : (read lettered : Except _ (RuleTable Float)).toOption.isSome = true := by
      decide +kernel
    rw [ofText]
    cases h : (read lettered : Except _ (RuleTable Float)) with
    | error e =>
      rw [h] at hsome
      cases hsome
    | ok t => rfl
  have hvalues : ∀ pair ∈ (ofText lettered : RuleTable Float).pairs,
      ∀ e ∈ pair.features.entries,
        NumberText.read (NumberText.render e.2).toList = .ok e.2 := by decide +kernel
  have hsize : (ofText lettered : RuleTable Float).states.size = 4 ∧
      (ofText lettered : RuleTable Float).pairs.length = 3 := by decide +kernel
  obtain ⟨hback, hsame⟩ := read_render hread hvalues
  exact ⟨_, hread, hvalues, hsize.1, hsize.2, hback, hsame⟩

end RuleTable

end ParseForest
