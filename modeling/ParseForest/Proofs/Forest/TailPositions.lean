import Mathlib.Data.List.Nodup
import Mathlib.Data.List.Perm.Subperm
import ParseForest.Proofs.Forest.Tails
import ParseForest.Proofs.RuleTable.Lines

/-!
# Tails and the non-terminals that they stand for

A rule says twice where the node of each of its non-terminals is found among the tails of an edge:
`Rule.tailPositions` reads an index as a position and takes the order of appearance where there
is none, `orderTails` sorts by the indices alone, so non-terminals without an index come first.
The two agree on a rule whose indices name each tail once exactly when no non-terminal without an
index follows one that has an index.
-/

namespace ParseForest

variable {V T : Type}

namespace Rule

/-- No non-terminal without an index comes after one with an index. -/
def UnindexedFirst (r : Rule) : Prop := r.nonTerminals.Pairwise fun s t => s.index ≠ 0 → t.index ≠ 0

instance (r : Rule) : Decidable r.UnindexedFirst := inferInstanceAs (Decidable (List.Pairwise _ _))

def indexAt (r : Rule) (i : Nat) : Nat := (r.nonTerminals.getD i default).index

def positionAt (r : Rule) (i : Nat) : Nat := tailPosition (r.nonTerminals.getD i default) i

theorem positionAt_of_index_zero {r : Rule} {i : Nat} (h : r.indexAt i = 0) :
    r.positionAt i = i := by
  rw [indexAt] at h
  rw [positionAt, tailPosition, h]

theorem positionAt_of_index_pos {r : Rule} {i : Nat} (h : r.indexAt i ≠ 0) :
    r.positionAt i + 1 = r.indexAt i := by
  obtain ⟨k, hk⟩ := Nat.exists_eq_succ_of_ne_zero h
  rw [hk]
  rw [indexAt] at hk
  rw [positionAt, tailPosition, hk]

theorem positions_placedFrom (start : Nat) (symbols : List Symbol) :
    (placedFrom start symbols).filterMap (·.2) =
      ((symbols.filter Symbol.isNonTerminal).zipIdx start).map fun si => tailPosition si.1 si.2 := by
  induction symbols generalizing start with
  | nil => rfl
  | cons s symbols ih => by_cases hs : s.isNonTerminal <;> simp [placedFrom, hs, ih]

theorem tailPositions_eq_map (r : Rule) :
    r.tailPositions = (List.range r.arity).map r.positionAt := by
  have h := positions_placedFrom 0 r.rhs
  apply List.ext_getElem?
  intro i
  change (List.filterMap (·.2) (placedFrom 0 r.rhs))[i]? = _
  by_cases hi : i < r.arity
  · have hlt : i < (r.rhs.filter Symbol.isNonTerminal).length := hi
    simp [h, hi, hlt, positionAt, nonTerminals]
  · have hle : (r.rhs.filter Symbol.isNonTerminal).length ≤ i := Nat.not_lt.mp hi
    simp [h, hi, hle]

theorem unindexedFirst_iff {r : Rule} :
    r.UnindexedFirst ↔ ∀ i j, i < j → j < r.arity → r.indexAt i ≠ 0 → r.indexAt j ≠ 0 := by
  unfold UnindexedFirst
  rw [List.pairwise_iff_getElem]
  constructor
  · intro h i j hij hj
    have hi : i < r.nonTerminals.length := Nat.lt_trans hij hj
    have hj : j < r.nonTerminals.length := hj
    simpa [indexAt, hi, hj] using h i j hi hj hij
  · intro h i j hi hj hij
    simpa [indexAt, hi, hj] using h i j hij hj

end Rule

/-! ## The order of the places -/

section

variable {r : Rule}

theorem orderTails_of_length {tails : List T} (h : tails.length = r.arity) :
    orderTails r tails =
      ((r.nonTerminals.zip tails).mergeSort fun a b => a.1.index ≤ b.1.index).map (·.2) := by
  unfold orderTails
  split
  · rename_i hshort
    have hzip : (r.nonTerminals.zip tails).map (·.2) = tails := List.map_snd_zip (Nat.le_of_eq h)
    have hlen : (r.nonTerminals.zip tails).length < 2 := by
      rw [← List.length_map, hzip]
      exact hshort
    match hl : r.nonTerminals.zip tails, hlen with
    | [], _ => simpa [hl] using hzip.symm
    | [p], _ => simpa [hl] using hzip.symm
  · rfl

theorem pairwise_orderTails_range :
    (orderTails r (List.range r.arity)).Pairwise fun a b =>
      r.indexAt a < r.indexAt b ∨ (r.indexAt a = r.indexAt b ∧ a ≤ b) := by
  let le : Nat → Nat → Bool := fun a b => r.indexAt a ≤ r.indexAt b
  have hsort : orderTails r (List.range r.arity) = (List.range r.arity).mergeSort le := by
    rw [orderTails_of_length List.length_range]
    have hzip : (r.nonTerminals.zip (List.range r.arity)).map (·.2) = List.range r.arity :=
      List.map_snd_zip (Nat.le_of_eq List.length_range)
    rw [List.map_mergeSort (s := le), hzip]
    intro a ha b hb
    have hindex : ∀ p ∈ r.nonTerminals.zip (List.range r.arity), p.1.index = r.indexAt p.2 := by
      intro p hp
      obtain ⟨i, hi, rfl⟩ := List.mem_iff_getElem.mp hp
      have hlt : i < r.nonTerminals.length := by simp at hi; omega
      simp [Rule.indexAt, hlt]
    simp [le, hindex a ha, hindex b hb]
  have htotal : ∀ a b, (le a b || le b a) = true := by intro a b; simp [le]; omega
  have htrans : ∀ a b c, le a b = true → le b c = true → le a c = true := by
    intro a b c; simp [le]; omega
  rw [hsort, ← List.mergeSort_zipIdx, List.pairwise_map]
  refine List.Pairwise.imp_of_mem ?_ (List.pairwise_mergeSort (List.zipIdxLE_trans htrans)
    (List.zipIdxLE_total htotal) _)
  intro p q hp hq hpq
  -- an element of the range is its own place
  have hplace : ∀ p ∈ (List.range r.arity).zipIdx, p.2 = p.1 := by
    intro p hp
    obtain ⟨i, hi, rfl⟩ := List.mem_iff_getElem.mp hp
    simp
  have hp := hplace p (List.mem_mergeSort.mp hp)
  have hq := hplace q (List.mem_mergeSort.mp hq)
  simp only [List.zipIdxLE, le, hp, hq] at hpq
  split at hpq
  all_goals simp at *
  omega

theorem perm_orderTails_range :
    (orderTails r (List.range r.arity)).Perm (List.range r.arity) :=
  perm_orderTails (Nat.le_of_eq List.length_range)

theorem orderTails_eq_map {tails : List T} (h : tails.length = r.arity) :
    (orderTails r tails).map some = (orderTails r (List.range r.arity)).map (tails[·]?) := by
  have htails : tails.map some = (List.range r.arity).map (tails[·]?) := by
    apply List.ext_getElem?
    intro i
    by_cases hi : i < r.arity
    · simp [hi, h]
    · simp [hi, h]
  rw [← orderTails_map, htails, orderTails_map]

end

/-! ## Where the tails stand -/

namespace RuleReader

theorem consistentIndices_iff {r : Rule} :
    consistentIndices r = true ↔ r.tailPositions.Perm (List.range r.arity) := by
  rw [consistentIndices, beq_iff_eq]
  constructor
  · intro hsorted
    exact hsorted ▸ (List.mergeSort_perm _ _).symm
  · intro hperm
    have htrans : ∀ a b c : Nat, decide (a ≤ b) = true → decide (b ≤ c) = true →
        decide (a ≤ c) = true := by
      intro a b c
      simp
      omega
    have htotal : ∀ a b : Nat, (decide (a ≤ b) || decide (b ≤ a)) = true := by
      intro a b
      simp
      omega
    have hsorted := List.pairwise_mergeSort htrans htotal r.tailPositions
    refine ((List.mergeSort_perm _ _).trans hperm).eq_of_pairwise (fun a b _ _ => Nat.le_antisymm)
      (hsorted.imp of_decide_eq_true) ?_
    exact List.pairwise_lt_range.imp Nat.le_of_lt

theorem checkAlignment_eq_ok_iff {source target : Rule} :
    checkAlignment source target = .ok () ↔ source.arity = target.arity ∧
      consistentIndices source = true ∧ consistentIndices target = true := by
  unfold checkAlignment
  by_cases harity : source.arity = target.arity
  · by_cases hsource : consistentIndices source = true
    · by_cases htarget : consistentIndices target = true
      · simp [harity, hsource, htarget]
      · simp [harity, hsource, htarget]
    · simp [harity, hsource]
  · simp [harity]

theorem lt_positionAt {r : Rule} (h : consistentIndices r = true) {i : Nat} (hi : i < r.arity) :
    r.positionAt i < r.arity := by
  have hmem : r.positionAt i ∈ r.tailPositions := by
    rw [r.tailPositions_eq_map]
    exact List.mem_map_of_mem (List.mem_range.mpr hi)
  exact List.mem_range.mp ((consistentIndices_iff.mp h).mem_iff.mp hmem)

theorem positionAt_inj {r : Rule} (h : consistentIndices r = true) {i j : Nat} (hi : i < r.arity)
    (hj : j < r.arity) (heq : r.positionAt i = r.positionAt j) : i = j := by
  have hnodup : r.tailPositions.Nodup := (consistentIndices_iff.mp h).nodup_iff.mpr List.nodup_range
  rw [r.tailPositions_eq_map] at hnodup
  exact List.inj_on_of_nodup_map hnodup (List.mem_range.mpr hi) (List.mem_range.mpr hj) heq

end RuleReader

section

variable {r : Rule}

theorem pairwise_positionAt (h : RuleReader.consistentIndices r = true) (hr : r.UnindexedFirst) :
    ((orderTails r (List.range r.arity)).map r.positionAt).Pairwise (· ≤ ·) := by
  rw [List.pairwise_map]
  refine List.Pairwise.imp_of_mem ?_ pairwise_orderTails_range
  intro a b ha hb hab
  have ha : a < r.arity := List.mem_range.mp (perm_orderTails_range.mem_iff.mp ha)
  have hb : b < r.arity := List.mem_range.mp (perm_orderTails_range.mem_iff.mp hb)
  by_cases hindex : r.indexAt a = 0
  · by_cases hindex' : r.indexAt b = 0
    · rw [Rule.positionAt_of_index_zero hindex, Rule.positionAt_of_index_zero hindex']
      omega
    · -- all places up to `a` are their own positions, so `b` stands for none of them
      rw [Rule.positionAt_of_index_zero hindex]
      by_contra hlt
      have hfirst : r.indexAt (r.positionAt b) = 0 := by
        by_contra hne
        rcases Nat.lt_or_eq_of_le (Nat.le_of_lt (Nat.not_le.mp hlt)) with hlt | heq
        · exact Rule.unindexedFirst_iff.mp hr _ a hlt ha hne hindex
        · exact hne (heq ▸ hindex)
      have hfixed := Rule.positionAt_of_index_zero hfirst
      have heq := RuleReader.positionAt_inj h (RuleReader.lt_positionAt h hb) hb hfixed
      exact hindex' (heq ▸ hfirst)
  · have hindex' : r.indexAt b ≠ 0 := by omega
    have ha := Rule.positionAt_of_index_pos hindex
    have hb := Rule.positionAt_of_index_pos hindex'
    omega

theorem getElem?_orderTails_range (h : RuleReader.consistentIndices r = true)
    (hr : r.UnindexedFirst) {i : Nat} (hi : i < r.arity) :
    (orderTails r (List.range r.arity))[r.positionAt i]? = some i := by
  have hperm : ((orderTails r (List.range r.arity)).map r.positionAt).Perm (List.range r.arity) := by
    refine (perm_orderTails_range.map r.positionAt).trans ?_
    rw [← r.tailPositions_eq_map]
    exact RuleReader.consistentIndices_iff.mp h
  have hmap : (orderTails r (List.range r.arity)).map r.positionAt = List.range r.arity := by
    refine hperm.eq_of_pairwise (fun a b _ _ => Nat.le_antisymm) (pairwise_positionAt h hr) ?_
    exact List.pairwise_lt_range.imp Nat.le_of_lt
  have hlt := RuleReader.lt_positionAt h hi
  obtain ⟨j, hj⟩ : ∃ j, (orderTails r (List.range r.arity))[r.positionAt i]? = some j := by
    refine ⟨_, List.getElem?_eq_getElem ?_⟩
    simpa [perm_orderTails_range.length_eq] using hlt
  have hposition : r.positionAt j = r.positionAt i := by
    have hget := congrArg (·[r.positionAt i]?) hmap
    simpa [hj, hlt] using hget
  have hmem : j < r.arity :=
    List.mem_range.mp (perm_orderTails_range.mem_iff.mp (List.mem_of_getElem? hj))
  rw [hj, RuleReader.positionAt_inj h hmem hi hposition]

/-- When every node stands where its non-terminal looks for it, all places before one without an
index have no index: the nodes before it are those of smaller places without index. -/
theorem unindexedFirst_of_getElem? (h : ∀ i, i < r.arity →
    (orderTails r (List.range r.arity))[r.positionAt i]? = some i) : r.UnindexedFirst := by
  rw [Rule.unindexedFirst_iff]
  intro i j hij hj hi hzero
  have hplace := h j hj
  rw [Rule.positionAt_of_index_zero hzero] at hplace
  obtain ⟨hlt, hplace⟩ := List.getElem?_eq_some_iff.mp hplace
  have hnodup : (orderTails r (List.range r.arity)).Nodup :=
    perm_orderTails_range.nodup_iff.mpr List.nodup_range
  have hbefore : (orderTails r (List.range r.arity)).take j ⊆ (List.range j).erase i := by
    intro k hk
    obtain ⟨t, ht, rfl⟩ := List.mem_take_iff_getElem.mp hk
    have htj : t < j := by omega
    have hle := List.pairwise_iff_getElem.mp (pairwise_orderTails_range (r := r)) t j
      (by omega) hlt htj
    have hne : (orderTails r (List.range r.arity))[t] ≠ j := by
      intro heq
      have := (hnodup.getElem_inj_iff).mp (heq.trans hplace.symm)
      omega
    rw [hplace] at hle
    refine (List.mem_erase_of_ne ?_).mpr (List.mem_range.mpr (by omega))
    rintro heq
    rw [heq] at hle
    omega
  have hlen := (hnodup.sublist (List.take_sublist _ _)).subperm hbefore |>.length_le
  rw [List.length_erase_of_mem (List.mem_range.mpr hij)] at hlen
  simp at hlen
  omega

end

/-- The nodes of a rule that can be read stand where its non-terminals look for them exactly when
no non-terminal without an index follows one with an index. -/
theorem RuleReader.getElem?_orderTails_iff [NumberText V] {cs : List Char} {pair : RulePair V}
    (h : RuleReader.readPair cs = .ok pair) :
    (∀ tails : List NodeId, tails.length = pair.source.arity → ∀ i position : Nat,
      pair.source.tailPositions[i]? = some position →
        (orderTails pair.source tails)[position]? = tails[i]?) ↔ pair.source.UnindexedFirst := by
  obtain ⟨-, -, -, -, -, -, -, -, -, haligned⟩ := fields_of_readPair h
  obtain ⟨-, hconsistent, -⟩ := checkAlignment_eq_ok_iff.mp haligned
  have hposition : ∀ i position : Nat, pair.source.tailPositions[i]? = some position ↔
      i < pair.source.arity ∧ pair.source.positionAt i = position := by
    intro i position
    rw [pair.source.tailPositions_eq_map]
    by_cases hi : i < pair.source.arity <;> simp [hi]
  constructor
  · intro hall
    apply unindexedFirst_of_getElem?
    intro i hi
    rw [hall (List.range pair.source.arity) List.length_range i _ ((hposition i _).mpr ⟨hi, rfl⟩)]
    simp [hi]
  · intro hfirst tails hlen i position hi
    obtain ⟨hlt, rfl⟩ := (hposition i position).mp hi
    have hplace := getElem?_orderTails_range hconsistent hfirst hlt
    have hget := congrArg (·[pair.source.positionAt i]?) (orderTails_eq_map hlen)
    simp only [List.getElem?_map, hplace, Option.map_some] at hget
    cases hnode : (orderTails pair.source tails)[pair.source.positionAt i]? with
    | none => simp [hnode] at hget
    | some t => simpa [hnode] using hget

theorem RuleReader.readPair_of_source [NumberText V] {cs : List Char} {source : Rule}
    (afterLabel field : List Char)
    (hlabel : readLabel (Text.skipBlanks cs) = .ok (source.lhs, afterLabel))
    (hafter : Text.skipBlanks afterLabel = separator ++ field)
    (hsource : readSymbols field = .ok (source.rhs, []))
    (hperm : source.tailPositions.Perm (List.range source.arity)) :
    readPair cs = .ok (⟨source, source, NameMap.empty, NameMap.empty⟩ : RulePair V) := by
  have hseparator : afterSeparator? (separator ++ field) = some field :=
    Text.afterLead?_append separator field
  have hnone : afterSeparator? [] = none := rfl
  have hconsistent := consistentIndices_iff.mpr hperm
  have haligned : checkAlignment source source = .ok () :=
    checkAlignment_eq_ok_iff.mpr ⟨rfl, hconsistent, hconsistent⟩
  simp [readPair, hlabel, hafter, hseparator, hsource, hnone, haligned, Except.mapError, bind,
    Except.bind]

def Rule.exchanged : Rule := ⟨⟨"[S]"⟩, [⟨"[A]"⟩, ⟨"[C,3]"⟩, ⟨"x"⟩, ⟨"[B,2]"⟩]⟩

theorem RuleReader.getElem?_orderTails_exchanged :
    readPair "[S] ||| [A] [C,3] x [B,2]".toList =
      .ok (⟨Rule.exchanged, Rule.exchanged, NameMap.empty, NameMap.empty⟩ : RulePair Float) ∧
    Rule.exchanged.UnindexedFirst ∧ Rule.exchanged.tailPositions = [0, 2, 1] ∧
    ∀ tails : List NodeId, tails.length = Rule.exchanged.arity → ∀ i position : Nat,
      Rule.exchanged.tailPositions[i]? = some position →
        (orderTails Rule.exchanged tails)[position]? = tails[i]? := by
  have hread : readPair "[S] ||| [A] [C,3] x [B,2]".toList =
      .ok (⟨Rule.exchanged, Rule.exchanged, NameMap.empty, NameMap.empty⟩ : RulePair Float) :=
    readPair_of_source " ||| [A] [C,3] x [B,2]".toList " [A] [C,3] x [B,2]".toList
      (by decide +kernel) (by decide +kernel) (by decide +kernel) (by decide +kernel)
  have hfirst : Rule.exchanged.UnindexedFirst := by decide +kernel
  exact ⟨hread, hfirst, by decide +kernel, (getElem?_orderTails_iff hread).mpr hfirst⟩

def Rule.unindexedLast : Rule := ⟨⟨"[S]"⟩, [⟨"[A,1]"⟩, ⟨"[B]"⟩]⟩

/-- The node of `[B]` stands where `[A,1]` looks for its own. -/
theorem RuleReader.orderTails_unindexedLast :
    readPair "[S] ||| [A,1] [B]".toList =
      .ok (⟨Rule.unindexedLast, Rule.unindexedLast, NameMap.empty, NameMap.empty⟩ :
        RulePair Float) ∧
    Rule.unindexedLast.tailPositions = [0, 1] ∧
    orderTails Rule.unindexedLast [4, 5] = [5, 4] := by
  have hread : readPair "[S] ||| [A,1] [B]".toList = .ok (⟨Rule.unindexedLast,
      Rule.unindexedLast, NameMap.empty, NameMap.empty⟩ : RulePair Float) :=
    readPair_of_source " ||| [A,1] [B]".toList " [A,1] [B]".toList
      (by decide +kernel) (by decide +kernel) (by decide +kernel) (by decide +kernel)
  have hsymbols : Rule.unindexedLast.nonTerminals = [⟨"[A,1]"⟩, ⟨"[B]"⟩] := by decide +kernel
  have hfirst : Symbol.index ⟨"[A,1]"⟩ = 1 := by decide +kernel
  have hlast : Symbol.index ⟨"[B]"⟩ = 0 := by decide +kernel
  refine ⟨hread, by decide +kernel, ?_⟩
  simp [orderTails, hsymbols, List.mergeSort, hfirst, hlast]

end ParseForest
