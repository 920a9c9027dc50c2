import ParseForest.Proofs.RuleTable.Paths

/-!
# A rule table is a map from paths to rule pairs

Inserting makes only the states on the path of the rule pair. So the states stand for the prefixes
of the paths that were put in, each state lists the rule pairs of its path in the order in which
they came, and an edge leaves a state exactly when some path goes on from there. No edge leads to
the root, so the root can say that there is no edge.
-/

namespace ParseForest.RuleTable

variable {V : Type}

namespace Paths

variable {t : RuleTable V} {path : StateId → List Symbol}

theorem descendAll_extends (h : Paths t path) (labels : List Symbol) :
    let d := t.descendAll labels
    ∃ path', Paths d.1 path' ∧ d.2 < d.1.states.size ∧ path' d.2 = labels ∧
      t.states.size ≤ d.1.states.size ∧ (∀ s : Nat, s < t.states.size → path' s = path s) ∧
      (∀ s : Nat, s < d.1.states.size → t.states.size ≤ s → path' s <+: labels) ∧
      ∀ s, d.1.rulesAt s = t.rulesAt s := by
  induction labels using List.reverseRecOn with
  | nil =>
    refine ⟨path, h, h.size, h.atRoot, Nat.le_refl _, fun s _ => rfl, fun s hs hle => ?_,
      fun s => rfl⟩
    exact absurd hs (Nat.not_lt.mpr hle)
  | append_singleton labels label ih =>
    obtain ⟨path', h', hlt, hend, hle, hold, hnew, hrules⟩ := ih
    have hstep : t.descendAll (labels ++ [label]) =
        (t.descendAll labels).1.descend (t.descendAll labels).2 label := by
      rw [RuleTable.descendAll, List.foldl_append]
      rfl
    rw [hstep]
    generalize t.descendAll labels = d at *
    obtain ⟨path'', h'', hold', hle', hlt', hend', hrules', -⟩ := h'.descend hlt label
    have hmade : ∀ s : Nat, s < (d.1.descend d.2 label).1.states.size → d.1.states.size ≤ s →
        s = (d.1.descend d.2 label).2 := by
      intro s hs hsize
      cases hchild : d.1.child? d.2 label with
      | some n =>
        rw [descend_of_some hchild] at hs
        exact absurd hs (Nat.not_lt.mpr hsize)
      | none =>
        obtain ⟨htip, hsucc, -⟩ := RuleTable.descend_of_none hchild
        rw [hsucc] at hs
        rw [htip]
        exact Nat.le_antisymm (Nat.le_of_lt_succ hs) hsize
    refine ⟨path'', h'', hlt', by rw [hend', hend], Nat.le_trans hle hle', fun s hs => ?_,
      fun s hs hsize => ?_, fun s => (hrules' s).trans (hrules s)⟩
    · rw [hold' s (Nat.lt_of_lt_of_le hs hle), hold s hs]
    · by_cases hs' : s < d.1.states.size
      · rw [hold' s hs']
        exact (hnew s hs' hsize).trans (List.prefix_append _ _)
      · have hpath : path'' s = labels ++ [label] := by
          rw [hmade s hs (Nat.not_lt.mp hs'), hend', hend]
        exact hpath ▸ List.prefix_rfl

end Paths

structure Maps (t : RuleTable V) (path : StateId → List Symbol) (pairs : List (RulePair V)) :
    Prop where
  paths : t.Paths path
  rules : ∀ s : Nat, s < t.states.size →
    t.rulesAt s = pairs.filter fun pair => RuleTable.path pair = path s
  used : ∀ s : Nat, s < t.states.size → s ≠ root →
    ∃ pair ∈ pairs, path s <+: RuleTable.path pair
  stored : ∀ pair ∈ pairs, ∃ s : Nat, s < t.states.size ∧ path s = RuleTable.path pair

namespace Maps

variable {t : RuleTable V} {path : StateId → List Symbol} {pairs : List (RulePair V)}

theorem start (kind : TableKind) (maxSpan : Option Nat) :
    Maps ({ (empty : RuleTable V) with kind, maxSpan }) (fun _ => []) [] := by
  obtain ⟨hsize, hroot, hchild, hparent, hinj, hrules⟩ := paths_empty (V := V)
  refine ⟨⟨hsize, hroot, hchild, hparent, hinj, hrules⟩, fun s _ => rulesAt_empty s,
    fun s hs hne => ?_, fun pair hpair => ?_⟩
  · exact absurd (Nat.lt_one_iff.mp hs) hne
  · cases hpair

theorem insert (h : Maps t path pairs) (pair : RulePair V) :
    ∃ path', Maps (t.insert pair) path' (pairs ++ [pair]) := by
  obtain ⟨path', hp, htip, hend, hle, hold, hnew, hrules⟩ :=
    h.paths.descendAll_extends (RuleTable.path pair)
  rw [insert_eq]
  generalize t.descendAll (RuleTable.path pair) = d at *
  refine ⟨path', hp.addRule htip hend, fun s hs => ?_, fun s hs hne => ?_, fun p hmem => ?_⟩
  · rw [size_addRule] at hs
    have hlisted : t.rulesAt s = pairs.filter fun p => RuleTable.path p = path' s := by
      by_cases hs' : s < t.states.size
      · rw [hold s hs', h.rules s hs']
      · rw [rulesAt_of_le (Nat.not_lt.mp hs'), eq_comm, List.filter_eq_nil_iff]
        intro p hmem heq
        obtain ⟨s', hlt, hpath⟩ := h.stored p hmem
        have hsame : path' s' = path' s := by
          rw [hold s' hlt, hpath]
          exact of_decide_eq_true heq
        have hss := hp.inj s' s (Nat.lt_of_lt_of_le hlt hle) hs hsame
        exact hs' (hss ▸ hlt)
    have htipped : RuleTable.path pair = path' s ↔ s = d.2 := by
      rw [← hend]
      constructor
      · intro heq
        exact hp.inj s d.2 hs htip heq.symm
      · intro heq
        rw [heq]
    rw [rulesAt_addRule htip, hrules, hlisted, List.filter_append]
    by_cases heq : s = d.2
    · rw [if_pos heq, List.filter_cons_of_pos (by simpa using htipped.mpr heq), List.filter_nil]
    · rw [if_neg heq, List.filter_cons_of_neg (by simpa using fun h => heq (htipped.mp h)),
        List.filter_nil, List.append_nil]
  · rw [size_addRule] at hs
    by_cases hs' : s < t.states.size
    · obtain ⟨p, hmem, hpre⟩ := h.used s hs' hne
      rw [hold s hs']
      exact ⟨p, List.mem_append_left _ hmem, hpre⟩
    · exact ⟨pair, List.mem_append_right _ List.mem_cons_self, hnew s hs (Nat.not_lt.mp hs')⟩
  · simp only [size_addRule]
    rcases List.mem_append.mp hmem with hmem | hmem
    · obtain ⟨s, hs, hpath⟩ := h.stored p hmem
      exact ⟨s, Nat.lt_of_lt_of_le hs hle, by rw [hold s hs, hpath]⟩
    · rw [List.mem_singleton.mp hmem]
      exact ⟨d.2, htip, hend⟩

end Maps

end ParseForest.RuleTable
