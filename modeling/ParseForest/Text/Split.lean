/-!
# Splitting a text at a mark

`afterLead?` strips a known beginning, `beforeMark` cuts a text at the first occurrence of a mark
and `splitLast?` cuts it at the last occurrence of a character. The lemmas say that the parts put
together again are the text, and that the last split leaves no mark behind it.
-/

namespace ParseForest.Text

def afterLead? : (lead cs : List Char) → Option (List Char)
  | [], cs => some cs
  | _ :: _, [] => none
  | l :: lead, c :: cs => if l = c then afterLead? lead cs else none

def beforeMark (mark : List Char) : List Char → List Char
  | [] => []
  | c :: cs => if (afterLead? mark (c :: cs)).isSome then [] else c :: beforeMark mark cs

def splitLast? (mark : Char) : List Char → Option (List Char × List Char)
  | [] => none
  | c :: cs =>
    match splitLast? mark cs with
    | some (before, after) => some (c :: before, after)
    | none => if c = mark then some ([], cs) else none

theorem afterLead?_append (lead cs : List Char) : afterLead? lead (lead ++ cs) = some cs := by
  induction lead with
  | nil => rfl
  | cons l lead ih => simp [afterLead?, ih]

theorem eq_append_of_afterLead? {lead cs rest : List Char} (h : afterLead? lead cs = some rest) :
    cs = lead ++ rest := by
  induction lead generalizing cs with
  | nil => simpa [afterLead?] using h
  | cons l lead ih =>
    cases cs with
    | nil => simp [afterLead?] at h
    | cons c cs =>
      by_cases hc : l = c
      · subst hc
        simpa using ih (by simpa [afterLead?] using h)
      · simp [afterLead?, hc] at h

theorem eq_of_splitLast? {mark : Char} {cs before after : List Char}
    (h : splitLast? mark cs = some (before, after)) : cs = before ++ mark :: after := by
  induction cs generalizing before after with
  | nil => simp [splitLast?] at h
  | cons c cs ih =>
    cases hs : splitLast? mark cs with
    | some p =>
      obtain ⟨b, a⟩ := p
      simp only [splitLast?, hs, Option.some.injEq, Prod.mk.injEq] at h
      obtain ⟨rfl, rfl⟩ := h
      simp [ih hs]
    | none =>
      by_cases hc : c = mark
      · simp only [splitLast?, hs, if_pos hc, Option.some.injEq, Prod.mk.injEq] at h
        obtain ⟨rfl, rfl⟩ := h
        simp [hc]
      · simp [splitLast?, hs, hc] at h

theorem splitLast?_eq_none_iff {mark : Char} {cs : List Char} :
    splitLast? mark cs = none ↔ mark ∉ cs := by
  induction cs with
  | nil => simp [splitLast?]
  | cons c cs ih =>
    cases hs : splitLast? mark cs with
    | some p =>
      have : mark ∈ cs := by
        rw [eq_of_splitLast? hs]
        simp
      simp [splitLast?, hs, this]
    | none => simp [splitLast?, hs, ih.mp hs, eq_comm]

theorem splitLast?_append {mark : Char} {before after : List Char} (h : mark ∉ after) :
    splitLast? mark (before ++ mark :: after) = some (before, after) := by
  induction before with
  | nil => simp [splitLast?, splitLast?_eq_none_iff.mpr h]
  | cons c before ih => simp [splitLast?, ih]

end ParseForest.Text
