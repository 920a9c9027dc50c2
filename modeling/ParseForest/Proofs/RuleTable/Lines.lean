import Mathlib.Data.List.Chain
import ParseForest.Proofs.Features
import ParseForest.Proofs.RuleTable.Read

/-!
# Lines of rule tables

What the reader of a line takes for a symbol or for the name of a feature is a word: it has no
blank, no bar triple in front and, since comments are cut off before, no two slashes in a row.
Words with a space before each are read back one by one, so the line of a rule pair that was read
gives the rule pair again, without its attributes.
-/

namespace ParseForest

open Text

namespace Text

theorem suffix_skipBlanks (cs : List Char) : skipBlanks cs <:+ cs := List.dropWhile_suffix _

theorem isInfix_trim (cs : List Char) : trim cs <:+: cs := by
  have hright : trim cs <+: skipBlanks cs := by
    rw [trim, ← List.reverse_suffix, List.reverse_reverse]
    exact suffix_skipBlanks _
  exact hright.isInfix.trans (suffix_skipBlanks cs).isInfix

theorem isBlank_head_skipBlanks {cs rest : List Char} {c : Char} (h : skipBlanks cs = c :: rest) :
    isBlank c = false := by
  have hhead := List.head?_dropWhile_not isBlank cs
  rw [← skipBlanks, h] at hhead
  simpa using hhead

def Clear (cs : List Char) : Prop := cs.IsChain fun a b => ¬(a = '/' ∧ b = '/')

theorem Clear.of_isInfix {part cs : List Char} (h : Clear cs) (hpart : part <:+: cs) :
    Clear part := by
  obtain ⟨front, back, rfl⟩ := hpart
  exact (List.isChain_append.mp (List.isChain_append.mp h).1).2.1

theorem clear_beforeMark (cs : List Char) : Clear (beforeMark ['/', '/'] cs) := by
  induction cs with
  | nil => exact List.isChain_nil
  | cons c cs ih =>
    rw [beforeMark]
    split
    · exact List.isChain_nil
    · rename_i hmark
      refine List.isChain_cons.mpr ⟨fun d hd => ?_, ih⟩
      rintro ⟨rfl, rfl⟩
      cases cs with
      | nil => simp [beforeMark] at hd
      | cons e cs =>
        rw [beforeMark] at hd
        split at hd
        · simp at hd
        · cases hd
          simp [afterLead?] at hmark

theorem beforeMark_of_clear {cs : List Char} (h : Clear cs) : beforeMark ['/', '/'] cs = cs := by
  induction cs with
  | nil => rfl
  | cons c cs ih =>
    obtain ⟨hhead, htail⟩ := List.isChain_cons.mp h
    rw [beforeMark, ih htail, if_neg]
    intro hmark
    obtain ⟨rest, hrest⟩ := Option.isSome_iff_exists.mp hmark
    cases eq_append_of_afterLead? hrest
    exact hhead '/' rfl ⟨rfl, rfl⟩

theorem span_append {p : Char → Bool} {w rest : List Char} (hw : ∀ c ∈ w, p c = true)
    (hrest : ∀ c ∈ rest.head?, p c = false) : (w ++ rest).span p = (w, rest) := by
  have hdrop : rest.takeWhile p = [] ∧ rest.dropWhile p = rest := by
    cases rest with
    | nil => simp
    | cons c rest => simp [hrest c rfl]
  rw [List.span_eq_takeWhile_dropWhile, List.takeWhile_append_of_pos hw,
    List.dropWhile_append_of_pos hw, hdrop.1, hdrop.2, List.append_nil]

theorem afterLead?_append_eq_none {lead w rest : List Char} (h : afterLead? lead w = none)
    (hrest : ∀ c ∈ rest.head?, c ∉ lead) : afterLead? lead (w ++ rest) = none := by
  induction lead generalizing w with
  | nil => cases h
  | cons l lead ih =>
    cases w with
    | nil =>
      cases rest with
      | nil => rfl
      | cons c rest =>
        have hne : l ≠ c := fun heq => hrest c rfl (heq ▸ List.mem_cons_self)
        simp [afterLead?, hne]
    | cons c w =>
      by_cases heq : l = c
      · have hrest : ∀ c ∈ rest.head?, c ∉ lead := fun c hc hmem =>
          hrest c hc (List.mem_cons_of_mem _ hmem)
        simp only [afterLead?, heq, if_true, List.cons_append] at h ⊢
        exact ih h hrest
      · simp [afterLead?, heq]

end Text

namespace RuleReader

structure IsWord (w : List Char) : Prop where
  nonempty : w ≠ []
  noBlank : ∀ c ∈ w, isBlank c = false
  noSeparator : afterSeparator? w = none
  clear : Clear w

def spaced (words : List (List Char)) : List Char := words.flatMap (' ' :: ·)

def AtEnd (tail : List Char) : Prop := tail = [] ∨ ∃ rest, tail = ' ' :: separator ++ rest

theorem AtEnd.fieldEnds {tail : List Char} (h : AtEnd tail) :
    fieldEnds (skipBlanks tail) = true := by
  rcases h with rfl | ⟨rest, rfl⟩
  · rfl
  · rfl

theorem head_spaced {words : List (List Char)} {tail : List Char} (htail : AtEnd tail) :
    ∀ c ∈ (spaced words ++ tail).head?, c = ' ' := by
  cases words with
  | nil =>
    rcases htail with rfl | ⟨rest, rfl⟩
    · simp [spaced]
    · simp [spaced]
  | cons w words => simp [spaced]

theorem length_le_spaced (words : List (List Char)) (tail : List Char) :
    words.length ≤ (spaced words ++ tail).length := by
  induction words with
  | nil => simp
  | cons w words ih =>
    simp only [spaced, List.flatMap_cons, List.length_append, List.length_cons] at ih ⊢
    omega

namespace IsWord

variable {w rest : List Char} (h : IsWord w)
include h

theorem skipBlanks_cons : skipBlanks (' ' :: w ++ rest) = w ++ rest := by
  obtain ⟨c, w, rfl⟩ := List.exists_cons_of_ne_nil h.nonempty
  have hc := h.noBlank c List.mem_cons_self
  have hspace : isBlank ' ' = true := by decide
  simp [skipBlanks, hspace, hc]

theorem spanWord_append (hrest : ∀ c ∈ rest.head?, c = ' ') : spanWord (w ++ rest) = (w, rest) := by
  refine span_append (fun c hc => by simp [h.noBlank c hc]) fun c hc => ?_
  rw [hrest c hc]
  decide

theorem not_fieldEnds (hrest : ∀ c ∈ rest.head?, c = ' ') : fieldEnds (w ++ rest) = false := by
  have hnone : afterSeparator? (w ++ rest) = none :=
    afterLead?_append_eq_none h.noSeparator fun c hc => by simp [hrest c hc, separator]
  simp [fieldEnds, hnone, h.nonempty]

end IsWord

/-! ## Symbols -/

def IsSymbol (s : Symbol) : Prop := IsWord s.text.toList ∧ isMalformed s.text.toList = false

theorem readSymbolsFrom_spaced {symbols : List Symbol} (h : ∀ s ∈ symbols, IsSymbol s)
    {tail : List Char} (htail : AtEnd tail) {fuel : Nat} (hfuel : symbols.length ≤ fuel) :
    readSymbolsFrom fuel (skipBlanks (spaced (symbols.map (·.text.toList)) ++ tail)) =
      .ok (symbols, skipBlanks tail) := by
  induction symbols generalizing fuel with
  | nil =>
    cases fuel with
    | zero => rfl
    | succ fuel => simp [readSymbolsFrom, spaced, htail.fieldEnds]
  | cons s symbols ih =>
    obtain ⟨hword, hmalformed⟩ := h s List.mem_cons_self
    have hrest : ∀ c ∈ (spaced (symbols.map (·.text.toList)) ++ tail).head?, c = ' ' :=
      head_spaced htail
    simp only [List.length_cons] at hfuel
    obtain ⟨fuel, rfl⟩ : ∃ n, fuel = n + 1 := ⟨fuel - 1, by omega⟩
    have hih := ih (fun s hs => h s (List.mem_cons_of_mem _ hs)) (Nat.le_of_succ_le_succ hfuel)
    have hsplit : spaced ((s :: symbols).map (·.text.toList)) ++ tail =
        ' ' :: s.text.toList ++ (spaced (symbols.map (·.text.toList)) ++ tail) := by
      simp [spaced]
    rw [hsplit, hword.skipBlanks_cons, readSymbolsFrom, hword.not_fieldEnds hrest,
      hword.spanWord_append hrest]
    simp only [hmalformed, hih, Symbol.ofChars, String.ofList_toList]
    rfl

theorem readSymbols_spaced {symbols : List Symbol} (h : ∀ s ∈ symbols, IsSymbol s)
    {tail : List Char} (htail : AtEnd tail) :
    readSymbols (spaced (symbols.map (·.text.toList)) ++ tail) =
      .ok (symbols, skipBlanks tail) :=
  readSymbolsFrom_spaced h htail (by simpa using length_le_spaced (symbols.map (·.text.toList)) tail)

theorem spanWord_eq (cs : List Char) : (spanWord cs).1 ++ (spanWord cs).2 = cs ∧
    (∀ c ∈ (spanWord cs).1, isBlank c = false) ∧ ∀ c ∈ (spanWord cs).2.head?, isBlank c = true := by
  rw [spanWord, List.span_eq_takeWhile_dropWhile]
  refine ⟨List.takeWhile_append_dropWhile, fun c hc => ?_, fun c hc => ?_⟩
  · simpa using List.all_eq_true.mp List.all_takeWhile c hc
  · have hhead := List.head?_dropWhile_not (fun c => !isBlank c) cs
    rw [Option.mem_def.mp hc] at hhead
    simpa using hhead

theorem isWord_spanWord {cs : List Char} (hclear : Clear cs) (hend : fieldEnds cs = false)
    (hhead : ∀ c ∈ cs.head?, isBlank c = false) : IsWord (spanWord cs).1 := by
  obtain ⟨happend, hblank, hstop⟩ := spanWord_eq cs
  simp only [fieldEnds, Bool.or_eq_false_iff, Option.isSome_eq_false_iff,
    Option.isNone_iff_eq_none, List.isEmpty_eq_false_iff] at hend
  refine ⟨fun hnil => ?_, hblank, ?_, hclear.of_isInfix (List.IsPrefix.isInfix ⟨_, happend⟩)⟩
  · obtain ⟨c, rest, hcs⟩ := List.exists_cons_of_ne_nil hend.1
    rw [hnil, List.nil_append] at happend
    rw [happend, hcs] at hstop
    have hc := hhead c (by simp [hcs])
    simp [hc] at hstop
  · by_contra hsome
    obtain ⟨rest, hrest⟩ := Option.ne_none_iff_exists'.mp hsome
    have hcs : cs = separator ++ (rest ++ (spanWord cs).2) := by
      rw [← List.append_assoc, ← eq_append_of_afterLead? hrest, happend]
    have hnone := hend.2
    rw [hcs, afterSeparator?, afterLead?_append] at hnone
    cases hnone

theorem isSymbol_of_readSymbolsFrom {fuel : Nat} {cs rest : List Char} {symbols : List Symbol}
    (h : readSymbolsFrom fuel cs = .ok (symbols, rest)) (hclear : Clear cs)
    (hhead : ∀ c ∈ cs.head?, isBlank c = false) : (∀ s ∈ symbols, IsSymbol s) ∧ rest <:+ cs := by
  induction fuel generalizing cs symbols with
  | zero =>
    cases h
    simp
  | succ fuel ih =>
    rw [readSymbolsFrom] at h
    split at h
    · cases h
      simp
    · rename_i hend
      obtain ⟨happend, -, -⟩ := spanWord_eq cs
      have hword := isWord_spanWord hclear (by simpa using hend) hhead
      generalize spanWord cs = p at h happend hword
      obtain ⟨token, after⟩ := p
      simp only at h happend hword
      split at h
      · cases h
      · rename_i hmalformed
        obtain ⟨⟨found, last⟩, hfound, h⟩ := ok_of_bind h
        cases h
        have hsuffix : skipBlanks after <:+ cs :=
          (suffix_skipBlanks after).trans ⟨token, happend⟩
        obtain ⟨hsymbols, hlast⟩ := ih hfound (hclear.of_isInfix hsuffix.isInfix) fun c hc =>
          isBlank_head_skipBlanks (List.cons_head?_tail hc).symm
        refine ⟨fun s hs => ?_, hlast.trans hsuffix⟩
        rcases List.mem_cons.mp hs with rfl | hs
        · exact ⟨by simpa [Symbol.ofChars] using hword, by simpa [Symbol.ofChars] using hmalformed⟩
        · exact hsymbols s hs

theorem isSymbol_of_readSymbols {cs rest : List Char} {symbols : List Symbol}
    (h : readSymbols cs = .ok (symbols, rest)) (hclear : Clear cs) :
    (∀ s ∈ symbols, IsSymbol s) ∧ rest <:+ cs := by
  have hsuffix := suffix_skipBlanks cs
  obtain ⟨hsymbols, hrest⟩ := isSymbol_of_readSymbolsFrom h (hclear.of_isInfix hsuffix.isInfix)
    fun c hc => isBlank_head_skipBlanks (List.cons_head?_tail hc).symm
  exact ⟨hsymbols, hrest.trans hsuffix⟩

/-! ## Features -/

def IsName (name : String) : Prop := IsWord name.toList ∧ '=' ∉ name.toList

structure ReadsBack {V : Type} [NumberText V] (x : V) : Prop where
  nonempty : (NumberText.render x).toList ≠ []
  plain : ∀ c ∈ (NumberText.render x).toList, isBlank c = false ∧ c ≠ '/' ∧ c ≠ '='
  read : NumberText.read (NumberText.render x).toList = .ok x

variable {V : Type} [NumberText V]

def featureWord (e : String × V) : List Char :=
  e.1.toList ++ '=' :: (NumberText.render e.2).toList

theorem clear_of_not_mem {cs : List Char} (h : ∀ c ∈ cs, c ≠ '/') : Clear cs := by
  induction cs with
  | nil => exact List.isChain_nil
  | cons c cs ih =>
    refine List.isChain_cons.mpr ⟨fun d _ hand => ?_, ih fun d hd => h d (by simp [hd])⟩
    exact h c (by simp) hand.1

theorem isWord_featureWord {e : String × V} (hname : IsName e.1) (hvalue : ReadsBack e.2) :
    IsWord (featureWord e) := by
  refine ⟨by simp [featureWord], fun c hc => ?_, ?_, ?_⟩
  · simp only [featureWord, List.mem_append, List.mem_cons] at hc
    rcases hc with hc | rfl | hc
    · exact hname.1.noBlank c hc
    · decide
    · exact (hvalue.plain c hc).1
  · exact afterLead?_append_eq_none hname.1.noSeparator fun c hc => by
      cases hc
      decide
  · refine List.isChain_append.mpr ⟨hname.1.clear, ?_, fun c _ d hd hand => ?_⟩
    · refine clear_of_not_mem fun c hc => ?_
      rcases List.mem_cons.mp hc with rfl | hc
      · decide
      · exact (hvalue.plain c hc).2.1
    · cases hd
      cases hand.2

theorem readName?_featureWord {e : String × V} (hname : IsName e.1) (rest : List Char) :
    readName? (featureWord e ++ rest) = some (e.1, (NumberText.render e.2).toList ++ rest) := by
  have hspan : (e.1.toList ++ '=' :: ((NumberText.render e.2).toList ++ rest)).span
      (fun c => c != '=' && !isBlank c) =
        (e.1.toList, '=' :: ((NumberText.render e.2).toList ++ rest)) := by
    refine span_append (fun c hc => ?_) fun c hc => ?_
    · have hne : c ≠ '=' := fun heq => hname.2 (heq ▸ hc)
      simp [hne, hname.1.noBlank c hc]
    · cases hc
      decide
  obtain ⟨c, cs, hcs⟩ := List.exists_cons_of_ne_nil hname.1.nonempty
  have hofList : String.ofList (c :: cs) = e.1 := by rw [← hcs, String.ofList_toList]
  rw [readName?, featureWord, List.append_assoc, List.cons_append, hspan, hcs]
  simp only [hofList]

theorem readFeaturesFrom_spaced {entries : List (String × V)}
    (hnames : ∀ e ∈ entries, IsName e.1) (hvalues : ∀ e ∈ entries, ReadsBack e.2)
    {fuel : Nat} (hfuel : entries.length ≤ fuel) (features : FeatureVector V) :
    readFeaturesFrom fuel features (skipBlanks (spaced (entries.map featureWord))) =
      .ok (entries.foldl (fun m e => m.insert e.1 e.2) features, []) := by
  induction entries generalizing fuel features with
  | nil =>
    cases fuel with
    | zero => rfl
    | succ fuel => rfl
  | cons e entries ih =>
    have hname := hnames e List.mem_cons_self
    have hvalue := hvalues e List.mem_cons_self
    have hword := isWord_featureWord hname hvalue
    have hrest : ∀ c ∈ (spaced (entries.map featureWord) ++ []).head?, c = ' ' :=
      head_spaced (.inl rfl)
    rw [List.append_nil] at hrest
    simp only [List.length_cons] at hfuel
    obtain ⟨fuel, rfl⟩ : ∃ n, fuel = n + 1 := ⟨fuel - 1, by omega⟩
    have hsplit : spaced ((e :: entries).map featureWord) =
        ' ' :: featureWord e ++ spaced (entries.map featureWord) := by
      simp [spaced]
    have hspan : spanWord ((NumberText.render e.2).toList ++ spaced (entries.map featureWord)) =
        ((NumberText.render e.2).toList, spaced (entries.map featureWord)) := by
      refine span_append (fun c hc => by simp [(hvalue.plain c hc).1]) fun c hc => ?_
      rw [hrest c hc]
      decide
    have hdrop : (NumberText.render e.2).toList.dropWhile (· == '=') =
        (NumberText.render e.2).toList := by
      obtain ⟨c, cs, hcs⟩ := List.exists_cons_of_ne_nil hvalue.nonempty
      have hc := (hvalue.plain c (by simp [hcs])).2.2
      simp [hcs, hc]
    rw [hsplit, hword.skipBlanks_cons, readFeaturesFrom, hword.not_fieldEnds hrest,
      readName?_featureWord hname]
    simp [hspan, hdrop, hvalue.nonempty, hvalue.read]
    exact ih (fun e he => hnames e (by simp [he])) (fun e he => hvalues e (by simp [he]))
      (Nat.le_of_succ_le_succ hfuel) _

theorem readFeatures_spaced {features : FeatureVector V}
    (hnames : ∀ e ∈ features.entries, IsName e.1) (hvalues : ∀ e ∈ features.entries, ReadsBack e.2) :
    readFeatures (spaced (features.entries.map featureWord)) = .ok (features, []) := by
  have hsame : features.entries.foldl (fun m e => m.insert e.1 e.2) NameMap.empty = features := by
    refine NameMap.ext_get? fun name => ?_
    have hget := NameMap.get?_foldl_upsert (fun _ x => x) NameMap.empty features.sorted name
    refine hget.trans ?_
    cases hname : features.entries.lookup name with
    | none => exact hname.symm
    | some x => exact hname.symm
  have hlength := length_le_spaced (features.entries.map featureWord) []
  rw [readFeatures, readFeaturesFrom_spaced hnames hvalues (by simpa using hlength), hsame]

theorem isName_of_readName? {cs rest : List Char} {name : String}
    (h : readName? cs = some (name, rest)) (hclear : Clear cs) (hend : fieldEnds cs = false) :
    IsName name ∧ rest <:+ cs := by
  have hspan : (cs.span fun c => c != '=' && !isBlank c).1 ++
      (cs.span fun c => c != '=' && !isBlank c).2 = cs ∧
      ∀ c ∈ (cs.span fun c => c != '=' && !isBlank c).1, c ≠ '=' ∧ isBlank c = false := by
    rw [List.span_eq_takeWhile_dropWhile]
    refine ⟨List.takeWhile_append_dropWhile, fun c hc => ?_⟩
    simpa using List.all_eq_true.mp List.all_takeWhile c hc
  rw [readName?] at h
  split at h
  · rename_i c chars after heq
    rw [heq] at hspan
    obtain ⟨happend, hchars⟩ := hspan
    cases h
    simp only at happend hchars
    have hprefix : c :: chars <+: cs := ⟨_, happend⟩
    have hword : IsWord (c :: chars) := by
      refine ⟨by simp, fun d hd => (hchars d hd).2, ?_, hclear.of_isInfix hprefix.isInfix⟩
      by_contra hsome
      obtain ⟨last, hlast⟩ := Option.ne_none_iff_exists'.mp hsome
      rw [← happend, eq_append_of_afterLead? hlast, List.append_assoc, RuleReader.fieldEnds,
        afterSeparator?, afterLead?_append] at hend
      simp at hend
    refine ⟨⟨by simpa using hword, ?_⟩, ⟨c :: chars ++ ['='], by simp [← happend]⟩⟩
    rw [String.toList_ofList]
    exact fun hmem => (hchars '=' hmem).1 rfl
  · cases h

theorem isName_of_readFeaturesFrom {fuel : Nat} {cs rest : List Char}
    {features found : FeatureVector V}
    (h : readFeaturesFrom fuel features cs = .ok (found, rest)) (hclear : Clear cs)
    (hfeatures : ∀ e ∈ features.entries, IsName e.1) : ∀ e ∈ found.entries, IsName e.1 := by
  induction fuel generalizing cs features with
  | zero =>
    cases h
    exact hfeatures
  | succ fuel ih =>
    rw [readFeaturesFrom] at h
    split at h
    · cases h
      exact hfeatures
    · rename_i hend
      split at h
      · cases h
      · rename_i name after hname
        obtain ⟨hname, hsuffix⟩ := isName_of_readName? hname hclear (by simpa using hend)
        obtain ⟨happend, -, -⟩ := spanWord_eq after
        simp only at h
        split at h
        · cases h
        · split at h
          · cases h
          · have hlast := ((suffix_skipBlanks _).trans ⟨_, happend⟩).trans hsuffix
            refine ih h (hclear.of_isInfix hlast.isInfix) fun e he => ?_
            rcases NameMap.mem_upsertEntry he with heq | he
            · exact heq ▸ hname
            · exact hfeatures e he

theorem isName_of_readFeatures {cs rest : List Char} {features : FeatureVector V}
    (h : readFeatures cs = .ok (features, rest)) (hclear : Clear cs) :
    ∀ e ∈ features.entries, IsName e.1 :=
  isName_of_readFeaturesFrom h (hclear.of_isInfix (suffix_skipBlanks cs).isInfix)
    (by simp [NameMap.empty])

/-! ## Rule pairs -/

def IsLabel (s : Symbol) : Prop :=
  ∃ name, name ≠ [] ∧ (∀ c ∈ name, isLabelChar c = true) ∧ Clear name ∧ s = Symbol.bracket name

theorem readLabel_bracket {name : List Char} (hne : name ≠ [])
    (hname : ∀ c ∈ name, isLabelChar c = true) (rest : List Char) :
    readLabel (skipBlanks ((Symbol.bracket name).text.toList ++ rest)) =
      .ok (Symbol.bracket name, rest) := by
  have hlist : skipBlanks ((Symbol.bracket name).text.toList ++ rest) =
      '[' :: (name ++ ']' :: rest) := by
    simp only [Symbol.bracket, Symbol.ofChars, String.toList_ofList, List.append_assoc]
    rfl
  have hspan : (name ++ ']' :: rest).span isLabelChar = (name, ']' :: rest) :=
    span_append hname fun c hc => by
      cases hc
      decide
  obtain ⟨c, name, rfl⟩ := List.exists_cons_of_ne_nil hne
  simp only [hlist, readLabel, hspan]

theorem isLabel_of_readLabel {cs rest : List Char} {label : Symbol}
    (h : readLabel cs = .ok (label, rest)) (hclear : Clear cs) :
    IsLabel label ∧ label.text.toList ++ rest = cs := by
  unfold readLabel at h
  split at h
  · rename_i after
    have hspan : (after.span isLabelChar).1 ++ (after.span isLabelChar).2 = after ∧
        ∀ c ∈ (after.span isLabelChar).1, isLabelChar c = true := by
      rw [List.span_eq_takeWhile_dropWhile]
      exact ⟨List.takeWhile_append_dropWhile, List.all_eq_true.mp List.all_takeWhile⟩
    split at h
    · rename_i c name last heq
      rw [heq] at hspan
      obtain ⟨happend, hchars⟩ := hspan
      cases h
      simp only at happend hchars
      refine ⟨⟨c :: name, by simp, hchars, ?_, rfl⟩, ?_⟩
      · exact hclear.of_isInfix ⟨['['], ']' :: rest, by simp [← happend]⟩
      · simp [Symbol.bracket, Symbol.ofChars, ← happend]
    · cases h
  · cases h

theorem ok_of_mapError {ε ε' α : Type} {f : ε → ε'} {x : Except ε α} {a : α}
    (h : x.mapError f = .ok a) : x = .ok a := by
  cases x with
  | error e => cases h
  | ok b =>
    cases h
    rfl

theorem ok_of_field {ε α β : Type} {cs : List Char} {default : α}
    {read : List Char → Except ε α} {next : α → Except ε β} {b : β}
    (h : (match afterSeparator? cs with
      | none => Except.ok default >>= next
      | some field => read field >>= next) = .ok b) :
    ∃ a, (afterSeparator? cs = none ∧ a = default ∨
      ∃ field, afterSeparator? cs = some field ∧ read field = .ok a) ∧ next a = .ok b := by
  cases hfield : afterSeparator? cs with
  | none =>
    rw [hfield] at h
    exact ⟨default, .inl ⟨rfl, rfl⟩, h⟩
  | some field =>
    rw [hfield] at h
    obtain ⟨a, ha, h⟩ := ok_of_bind h
    exact ⟨a, .inr ⟨field, rfl, ha⟩, h⟩

theorem fields_of_readPair {cs : List Char} {pair : RulePair V} (h : readPair cs = .ok pair) :
    ∃ afterLabel source sourceEnd targetEnd : List Char,
      readLabel (skipBlanks cs) = .ok (pair.source.lhs, afterLabel) ∧
      afterSeparator? (skipBlanks afterLabel) = some source ∧
      readSymbols source = .ok (pair.source.rhs, sourceEnd) ∧
      (afterSeparator? sourceEnd = none ∧
          (pair.target.rhs, targetEnd) = (pair.source.rhs, sourceEnd) ∨
        ∃ target, afterSeparator? sourceEnd = some target ∧
          readSymbols target = .ok (pair.target.rhs, targetEnd)) ∧
      (pair.features = NameMap.empty ∨ ∃ features last, afterSeparator? targetEnd = some features ∧
        readFeatures features = .ok (pair.features, last)) ∧
      checkAlignment pair.source pair.target = .ok () := by
  unfold readPair at h
  obtain ⟨⟨lhs, afterLabel⟩, hlabel, h⟩ := ok_of_bind h
  simp only at h
  split at h
  · rename_i source hsource
    obtain ⟨⟨symbols, sourceEnd⟩, hsymbols, h⟩ := ok_of_bind h
    have hsymbols := ok_of_mapError hsymbols
    simp only at h
    obtain ⟨⟨symbols', targetEnd⟩, htarget, h⟩ := ok_of_field h
    obtain ⟨⟨features, featuresEnd⟩, hfeatures, h⟩ := ok_of_field h
    obtain ⟨attributes, -, h⟩ := ok_of_field h
    obtain ⟨_, halign, h⟩ := ok_of_bind h
    cases h
    refine ⟨afterLabel, source, sourceEnd, targetEnd, hlabel, hsource, hsymbols, ?_, ?_, halign⟩
    · exact htarget.imp_right fun ⟨target, hfield, hread⟩ => ⟨target, hfield, ok_of_mapError hread⟩
    · rcases hfeatures with ⟨-, heq⟩ | ⟨field, hfield, hread⟩
      · cases heq
        exact .inl rfl
      · exact .inr ⟨field, featuresEnd, hfield, hread⟩
  · cases h

theorem readPair_of_fields {cs afterLabel source target tail : List Char} {pair : RulePair V}
    (hlabel : readLabel (skipBlanks cs) = .ok (pair.source.lhs, afterLabel))
    (hlhs : pair.target.lhs = pair.source.lhs)
    (hafter : skipBlanks afterLabel = separator ++ source)
    (hsource : readSymbols source = .ok (pair.source.rhs, separator ++ target))
    (htarget : readSymbols target = .ok (pair.target.rhs, tail))
    (hfeatures : pair.features = NameMap.empty ∧ tail = [] ∨
      ∃ field, tail = separator ++ field ∧ readFeatures field = .ok (pair.features, []))
    (haligned : checkAlignment pair.source pair.target = .ok ()) :
    readPair cs = .ok { pair with attributes := NameMap.empty } := by
  have hseparator : ∀ rest, afterSeparator? (separator ++ rest) = some rest :=
    afterLead?_append separator
  have hnone : afterSeparator? [] = none := rfl
  obtain ⟨⟨lhs, rhs⟩, ⟨lhs', rhs'⟩, features, attributes⟩ := pair
  simp only at *
  subst hlhs
  rcases hfeatures with ⟨rfl, rfl⟩ | ⟨field, rfl, hread⟩
  · simp [readPair, hlabel, hafter, hseparator, hsource, htarget, hnone, haligned, Except.mapError,
      bind, Except.bind]
  · simp [readPair, hlabel, hafter, hseparator, hsource, htarget, hread, hnone, haligned,
      Except.mapError, bind, Except.bind]

/-- A rule pair that has a line of its own. -/
structure IsLine (pair : RulePair V) : Prop where
  label : IsLabel pair.source.lhs
  lhs : pair.target.lhs = pair.source.lhs
  source : ∀ s ∈ pair.source.rhs, IsSymbol s
  target : ∀ s ∈ pair.target.rhs, IsSymbol s
  features : ∀ e ∈ pair.features.entries, IsName e.1
  aligned : checkAlignment pair.source pair.target = .ok ()

theorem suffix_of_afterSeparator? {cs rest : List Char} (h : afterSeparator? cs = some rest) :
    rest <:+ cs := ⟨separator, (eq_append_of_afterLead? h).symm⟩

theorem isLine_of_readPair {cs : List Char} {pair : RulePair V} (h : readPair cs = .ok pair)
    (hclear : Clear cs) : IsLine pair := by
  obtain ⟨afterLabel, source, sourceEnd, targetEnd, hlabel, hsource, hsymbols, htarget, hfeatures,
    haligned⟩ := fields_of_readPair h
  obtain ⟨hlabel, hcs⟩ := isLabel_of_readLabel hlabel
    (hclear.of_isInfix (suffix_skipBlanks cs).isInfix)
  have hsource : source <:+ cs :=
    (((suffix_of_afterSeparator? hsource).trans (suffix_skipBlanks _)).trans ⟨_, hcs⟩).trans
      (suffix_skipBlanks cs)
  obtain ⟨hwords, hend⟩ := isSymbol_of_readSymbols hsymbols (hclear.of_isInfix hsource.isInfix)
  have hend := hend.trans hsource
  obtain ⟨htarget, hend⟩ : (∀ s ∈ pair.target.rhs, IsSymbol s) ∧ targetEnd <:+ cs := by
    rcases htarget with ⟨-, heq⟩ | ⟨target, hfield, hread⟩
    · obtain ⟨hrhs, rfl⟩ := Prod.mk.inj heq
      exact ⟨hrhs ▸ hwords, hend⟩
    · have htarget := (suffix_of_afterSeparator? hfield).trans hend
      obtain ⟨hread, hlast⟩ := isSymbol_of_readSymbols hread (hclear.of_isInfix htarget.isInfix)
      exact ⟨hread, hlast.trans htarget⟩
  refine ⟨hlabel, (aligned_of_readPair h).1, hwords, htarget, ?_, haligned⟩
  rcases hfeatures with hempty | ⟨features, last, hfield, hread⟩
  · simp [hempty, NameMap.empty]
  · have hfeatures := (suffix_of_afterSeparator? hfield).trans hend
    exact isName_of_readFeatures hread (hclear.of_isInfix hfeatures.isInfix)

def lineWords (pair : RulePair V) : List (List Char) :=
  separator :: pair.source.rhs.map (·.text.toList) ++
    separator :: pair.target.rhs.map (·.text.toList) ++
      if pair.features.isEmpty then [] else separator :: pair.features.entries.map featureWord

theorem toList_renderSymbols (symbols : List Symbol) :
    (Rule.renderSymbols symbols).toList = spaced (symbols.map (·.text.toList)) := by
  simp [Rule.renderSymbols, String.toList_join, spaced, List.flatMap_map]

theorem cons_intercalate {words : List (List Char)} (hne : words ≠ []) :
    ' ' :: [' '].intercalate words = spaced words := by
  induction words with
  | nil => exact absurd rfl hne
  | cons w words ih =>
    cases words with
    | nil => simp [spaced]
    | cons next words => simpa [spaced] using ih (by simp)

theorem toList_render (pair : RulePair V) :
    pair.render.toList = pair.source.lhs.text.toList ++ spaced (lineWords pair) := by
  have hfeatures : (if pair.features.isEmpty then "" else
      " ||| " ++ FeatureVector.render pair.features).toList =
        spaced (if pair.features.isEmpty then [] else
          separator :: pair.features.entries.map featureWord) := by
    by_cases hempty : pair.features.isEmpty = true
    · simp [hempty, spaced]
    · have hne : pair.features.entries.map featureWord ≠ [] := by
        simpa [NameMap.isEmpty] using hempty
      have hentries : pair.features.entries.map (String.toList ∘ fun e => e.1 ++ "=" ++
          NumberText.render e.2) = pair.features.entries.map featureWord := by
        simp [featureWord, Function.comp_def]
      simp [hempty, FeatureVector.render, NameMap.render, String.toList_intercalate, hentries,
        cons_intercalate hne, spaced, separator]
  simp only [RulePair.render, String.toList_append, toList_renderSymbols, hfeatures, lineWords]
  simp [spaced, separator]

theorem clear_append_spaced {cs : List Char} (hcs : Clear cs) {words : List (List Char)}
    (hwords : ∀ w ∈ words, Clear w) : Clear (cs ++ spaced words) := by
  induction words generalizing cs with
  | nil => simpa [spaced] using hcs
  | cons w words ih =>
    have hfirst : Clear (cs ++ ' ' :: w) := by
      refine List.isChain_append.mpr ⟨hcs, ?_, fun c _ d hd hand => ?_⟩
      · exact List.isChain_cons.mpr ⟨fun d _ hand => by simp at hand, hwords w (by simp)⟩
      · cases hd
        simp at hand
    simpa [spaced] using ih hfirst fun w hw => hwords w (by simp [hw])

theorem trim_of_not_isBlank {cs : List Char} (hhead : ∀ c ∈ cs.head?, isBlank c = false)
    (hlast : ∀ c ∈ cs.getLast?, isBlank c = false) : trim cs = cs := by
  have hskip : ∀ cs : List Char, (∀ c ∈ cs.head?, isBlank c = false) → skipBlanks cs = cs := by
    intro cs hcs
    cases cs with
    | nil => rfl
    | cons c cs => simp [skipBlanks, hcs c rfl]
  rw [trim, hskip cs hhead, hskip cs.reverse (by simpa using hlast), List.reverse_reverse]

theorem getLast?_append_spaced {cs : List Char} (hcs : ∀ c ∈ cs.getLast?, isBlank c = false)
    {words : List (List Char)} (hwords : ∀ w ∈ words, w ≠ [] ∧ ∀ c ∈ w, isBlank c = false) :
    ∀ c ∈ (cs ++ spaced words).getLast?, isBlank c = false := by
  induction words generalizing cs with
  | nil => simpa [spaced] using hcs
  | cons w words ih =>
    obtain ⟨hne, hblank⟩ := hwords w (by simp)
    have hfirst : ∀ c ∈ (cs ++ ' ' :: w).getLast?, isBlank c = false := by
      intro c hc
      rw [List.append_cons, List.getLast?_append_of_ne_nil _ hne] at hc
      exact hblank c (List.mem_of_getLast? hc)
    simpa [spaced] using ih hfirst fun w hw => hwords w (by simp [hw])

section

variable {pair : RulePair V} (h : IsLine pair)
  (hvalues : ∀ e ∈ pair.features.entries, ReadsBack e.2)
include h hvalues

theorem IsLine.lineWords_plain : ∀ w ∈ lineWords pair, w ≠ [] ∧ (∀ c ∈ w, isBlank c = false) ∧
    Clear w := by
  have hbars : ∀ c ∈ separator, c = '|' := by simp [separator]
  have hseparator : separator ≠ [] ∧ (∀ c ∈ separator, isBlank c = false) ∧ Clear separator := by
    refine ⟨by simp [separator], fun c hc => ?_, clear_of_not_mem fun c hc => ?_⟩
    · rw [hbars c hc]
      decide
    · rw [hbars c hc]
      decide
  have hword : ∀ w, IsWord w → w ≠ [] ∧ (∀ c ∈ w, isBlank c = false) ∧ Clear w :=
    fun w hw => ⟨hw.nonempty, hw.noBlank, hw.clear⟩
  intro w hw
  simp only [lineWords, List.mem_append, List.mem_cons, List.mem_map] at hw
  rcases hw with ((rfl | ⟨s, hs, rfl⟩) | rfl | ⟨s, hs, rfl⟩) | hw
  · exact hseparator
  · exact hword _ (h.source s hs).1
  · exact hseparator
  · exact hword _ (h.target s hs).1
  · split at hw
    · cases hw
    · rcases List.mem_cons.mp hw with rfl | hw
      · exact hseparator
      · obtain ⟨e, he, rfl⟩ := List.mem_map.mp hw
        exact hword _ (isWord_featureWord (h.features e he) (hvalues e he))

theorem IsLine.content_render : content pair.render.toList = pair.render.toList := by
  obtain ⟨name, hne, hname, hclear, hlhs⟩ := h.label
  have hwords := h.lineWords_plain hvalues
  have hlabel : pair.source.lhs.text.toList = '[' :: name ++ [']'] := by
    simp [hlhs, Symbol.bracket, Symbol.ofChars]
  have hline : Clear pair.render.toList := by
    rw [toList_render]
    refine clear_append_spaced ?_ fun w hw => (hwords w hw).2.2
    rw [hlabel]
    refine List.isChain_append.mpr ⟨List.isChain_cons.mpr ⟨by simp, hclear⟩, by simp, ?_⟩
    intro c _ d hd hand
    cases hd
    simp at hand
  rw [content, beforeMark_of_clear hline, trim_of_not_isBlank]
  · intro c hc
    rw [toList_render, hlabel] at hc
    cases hc
    decide
  · rw [toList_render]
    refine getLast?_append_spaced (fun c hc => ?_) fun w hw => ⟨(hwords w hw).1, (hwords w hw).2.1⟩
    rw [hlabel, List.getLast?_append_of_ne_nil _ (by simp)] at hc
    cases hc
    decide

theorem IsLine.not_mem_render : '\n' ∉ pair.render.toList := by
  obtain ⟨name, hne, hname, hclear, hlhs⟩ := h.label
  have hblank : isBlank '\n' = true := by decide
  have hlabel : '\n' ∉ name := fun hc => by simpa [isLabelChar, hblank] using hname _ hc
  have hwords : ∀ w ∈ lineWords pair, '\n' ∉ w := fun w hw hc => by
    simpa [hblank] using (h.lineWords_plain hvalues w hw).2.1 _ hc
  rw [toList_render, hlhs]
  simpa [Symbol.bracket, Symbol.ofChars, spaced, hlabel] using hwords

/-- The line of a rule pair is read as the rule pair. -/
theorem IsLine.readPair_render :
    readPair pair.render.toList = .ok { pair with attributes := NameMap.empty } := by
  obtain ⟨name, hne, hname, -, hlhs⟩ := h.label
  generalize htail : spaced (if pair.features.isEmpty then [] else
    separator :: pair.features.entries.map featureWord) = tail
  have hline : pair.render.toList = pair.source.lhs.text.toList ++ (' ' :: (separator ++
      (spaced (pair.source.rhs.map (·.text.toList)) ++ (' ' :: (separator ++
        (spaced (pair.target.rhs.map (·.text.toList)) ++ tail)))))) := by
    simp [toList_render, lineWords, ← htail, spaced, separator]
  have hfeatures : AtEnd tail ∧ (pair.features = NameMap.empty ∧ skipBlanks tail = [] ∨
      ∃ field, skipBlanks tail = separator ++ field ∧
        readFeatures field = .ok (pair.features, [])) := by
    by_cases hempty : pair.features.isEmpty = true
    · have hentries : pair.features.entries = [] := by simpa [NameMap.isEmpty] using hempty
      have htail : tail = [] := by simp [← htail, hempty, spaced]
      exact ⟨.inl htail, .inl ⟨NameMap.ext hentries, by simp [htail, skipBlanks]⟩⟩
    · have htail : tail = ' ' :: separator ++ spaced (pair.features.entries.map featureWord) := by
        simp [← htail, hempty, spaced]
      exact ⟨.inr ⟨_, htail⟩, .inr ⟨_, by rw [htail]; rfl, readFeatures_spaced h.features hvalues⟩⟩
  obtain ⟨hend, hfeatures⟩ := hfeatures
  have hskip : ∀ rest, skipBlanks (' ' :: (separator ++ rest)) = separator ++ rest := fun _ => rfl
  have hafter : AtEnd (' ' :: (separator ++
      (spaced (pair.target.rhs.map (·.text.toList)) ++ tail))) := .inr ⟨_, rfl⟩
  have hsource := readSymbols_spaced h.source hafter
  have htarget := readSymbols_spaced h.target hend
  rw [hskip] at hsource
  rw [hline, hlhs]
  refine readPair_of_fields ?_ h.lhs (hskip _) hsource htarget hfeatures h.aligned
  rw [hlhs]
  exact readLabel_bracket hne hname _

end

end RuleReader

end ParseForest
