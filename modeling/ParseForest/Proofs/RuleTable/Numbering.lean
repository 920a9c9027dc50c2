import ParseForest.Proofs.Posterior.Closure
import ParseForest.Proofs.RuleTable.Inserted

/-!
# How states are numbered

Putting a rule pair in makes the missing states of its path one after another, down to the state
where the pair ends. So a state comes after the one before it on its path, and a state at which no
rule pair ends is followed by a state one step below it. Therefore the rule pairs of a table make
the same states again when they are put into an empty table in the order of their states.
-/

namespace ParseForest.RuleTable

variable {V : Type}

theorem ext_state {t u : RuleTable V} (hsize : t.states.size = u.states.size)
    (hstate : ∀ s : Nat, t.state s = u.state s) (hkind : t.kind = u.kind)
    (hmax : t.maxSpan = u.maxSpan) : t = u := by
  obtain ⟨states, kind, maxSpan⟩ := t
  obtain ⟨states', kind', maxSpan'⟩ := u
  simp only at hsize hkind hmax
  subst hkind hmax
  congr 1
  refine Array.ext hsize fun i hi hi' => ?_
  simpa [state, hi, hi'] using hstate i

theorem state_of_le {t : RuleTable V} {s : Nat} (h : t.states.size ≤ s) : t.state s = {} := by
  simp [state, Nat.not_lt.mpr h]

def Follows (t : RuleTable V) (s : Nat) : Prop :=
  t.rulesAt s ≠ [] ∨ ∃ label, t.child? s label = some (s + 1)

/-- States come after those before them on their paths, and every state but the root is followed
by one below it if no rule pair ends there. The state `tip`, where the next step starts, may be
the last state instead. -/
structure Numbered (t : RuleTable V) (tip : StateId) : Prop where
  paths : ∃ path, t.Paths path
  below : ∀ (s : Nat) label (n : Nat), t.child? s label = some n → s < n
  labels : ∀ s, (LabelMap.keys (t.state s).children).Nodup
  ascending : ∀ s, (t.state s).children.Pairwise fun d e : Symbol × Nat => d.2 < e.2
  chain : ∀ s : Nat, s ≠ root → s < t.states.size →
    t.Follows s ∨ (s = tip ∧ s + 1 = t.states.size)

namespace Numbered

variable {t : RuleTable V} {tip : Nat}

theorem mem_children_iff (h : t.Numbered tip) {s : StateId} {label : Symbol} {n : StateId} :
    (label, n) ∈ (t.state s).children ↔ t.child? s label = some n :=
  ⟨LabelMap.get?_of_mem (h.labels s), LabelMap.mem_of_get?⟩

theorem lt_size (h : t.Numbered tip) {s : Nat} {label : Symbol} {n : Nat}
    (hn : t.child? s label = some n) : n < t.states.size := by
  obtain ⟨path, hp⟩ := h.paths
  by_cases hs : s < t.states.size
  · exact (hp.child s hs label n hn).1
  · rw [child?_of_le (Nat.not_lt.mp hs)] at hn
    cases hn

theorem eq_of_child? (h : t.Numbered tip) {s s' : Nat} {label label' : Symbol} {n : Nat}
    (hn : t.child? s label = some n) (hn' : t.child? s' label' = some n) : s = s' := by
  obtain ⟨path, hp⟩ := h.paths
  have hlt : ∀ s : Nat, ∀ label, t.child? s label = some n → s < t.states.size := by
    intro s label hs
    by_contra hle
    rw [child?_of_le (Nat.not_lt.mp hle)] at hs
    cases hs
  have hs := hlt s label hn
  have hs' := hlt s' label' hn'
  have hpath := ((hp.child s hs label n hn).2).symm.trans (hp.child s' hs' label' n hn').2
  exact hp.inj s s' hs hs' (List.append_inj' hpath rfl).1

end Numbered

theorem numbered_empty : (empty : RuleTable V).Numbered root := by
  have hnone : ∀ s, (empty : RuleTable V).state s = {} := by
    intro s
    by_cases hs : (show Nat from s) < 1
    · rw [Nat.lt_one_iff.mp hs]
      rfl
    · exact state_of_le (Nat.not_lt.mp hs)
  refine ⟨⟨_, paths_empty⟩, fun s label n hn => ?_, fun s => ?_, fun s => ?_, fun s hs hlt => ?_⟩
  · simp [child?, hnone, LabelMap.get?] at hn
  · simp [hnone, LabelMap.keys]
  · simp [hnone]
  · exact absurd (Nat.lt_one_iff.mp hlt) hs

theorem Numbered.descend_of_some {t : RuleTable V} {tip : Nat} (h : t.Numbered tip) {label : Symbol}
    {n : Nat} (hchild : t.child? tip label = some n) : t.Numbered n := by
  have hbelow := h.below tip label n hchild
  have hn := h.lt_size hchild
  refine ⟨h.paths, h.below, h.labels, h.ascending, fun s hs hlt => ?_⟩
  rcases h.chain s hs hlt with hfollows | ⟨rfl, hlast⟩
  · exact .inl hfollows
  · have hlt : n < s + 1 := hlast ▸ hn
    omega

theorem Numbered.descend_of_none {t : RuleTable V} {tip : Nat} (h : t.Numbered tip)
    (htip : tip < t.states.size) {label : Symbol} (hchild : t.child? tip label = none) :
    (t.descend tip label).1.Numbered t.states.size := by
  obtain ⟨path, hp⟩ := h.paths
  have hp' := hp.descend_of_none htip hchild
  obtain ⟨-, hsize, hstate⟩ := RuleTable.descend_of_none hchild
  have hedge := child?_descend_of_none htip hchild
  have hrules := rulesAt_descend t tip label
  generalize (t.descend tip label).1 = t' at hp' hsize hstate hedge hrules
  have hchildren : ∀ i : Nat, (t'.state i).children = if i = tip then
      (t.state i).children ++ [(label, t.states.size)] else (t.state i).children := by
    intro i
    rw [hstate]
    simp only [htip, and_true]
    split <;> rfl
  have hlast : ∀ (i : Nat) (e : Symbol × StateId), e ∈ (t.state i).children →
      e.2 < t.states.size :=
    fun i e he => h.lt_size (h.mem_children_iff.mp (show (e.1, e.2) ∈ _ from he))
  refine ⟨⟨_, hp'⟩, fun i l n hin => ?_, fun i => ?_, fun i => ?_, fun i hi hlt => ?_⟩
  · rw [hedge] at hin
    split at hin
    · rename_i heq
      cases hin
      exact heq.1 ▸ htip
    · exact h.below i l n hin
  · rw [hchildren]
    split
    · rename_i heq
      have hlabel : label ∉ LabelMap.keys (t.state i).children := by
        rw [LabelMap.mem_keys_iff, heq]
        simpa [child?] using hchild
      rw [LabelMap.keys, List.map_append, List.nodup_append]
      refine ⟨h.labels i, List.nodup_singleton _, fun a ha b hb hab => ?_⟩
      rw [hab, List.mem_singleton.mp hb] at ha
      exact hlabel ha
    · exact h.labels i
  · rw [hchildren]
    split
    · refine List.pairwise_append.mpr ⟨h.ascending i, List.pairwise_singleton _ _, ?_⟩
      intro d hd e he
      rw [List.mem_singleton.mp he]
      exact hlast i d hd
    · exact h.ascending i
  · -- the new state is the last one, and `tip` is followed by it
    by_cases heq : i = t.states.size
    · exact .inr ⟨heq, by omega⟩
    · refine .inl ?_
      rcases h.chain i hi (by omega) with (hrule | ⟨l, hl⟩) | ⟨rfl, hsucc⟩
      · exact .inl (by rwa [hrules])
      · refine .inr ⟨l, ?_⟩
        rw [hedge, if_neg]
        · exact hl
        · rintro ⟨rfl, rfl⟩
          rw [hchild] at hl
          cases hl
      · exact .inr ⟨label, by rw [hedge, if_pos ⟨rfl, rfl⟩, hsucc]⟩

theorem Numbered.descend {t : RuleTable V} {tip : Nat} (h : t.Numbered tip)
    (htip : tip < t.states.size) (label : Symbol) :
    (t.descend tip label).1.Numbered (t.descend tip label).2 ∧
      (t.descend tip label).2 < (t.descend tip label).1.states.size := by
  cases hchild : t.child? tip label with
  | some n =>
    rw [RuleTable.descend_of_some hchild]
    exact ⟨h.descend_of_some hchild, h.lt_size hchild⟩
  | none =>
    obtain ⟨hn, hsize, -⟩ := RuleTable.descend_of_none hchild
    rw [hn, hsize]
    exact ⟨h.descend_of_none htip hchild, Nat.lt_succ_self _⟩

theorem Numbered.descendAll {t : RuleTable V} (h : t.Numbered root) (labels : List Symbol) :
    (t.descendAll labels).1.Numbered (t.descendAll labels).2 ∧
      (t.descendAll labels).2 < (t.descendAll labels).1.states.size := by
  induction labels using List.reverseRecOn with
  | nil =>
    obtain ⟨path, hp⟩ := h.paths
    exact ⟨h, hp.size⟩
  | append_singleton labels label ih =>
    rw [RuleTable.descendAll, List.foldl_append]
    exact ih.1.descend ih.2 label

theorem Numbered.insert {t : RuleTable V} (h : t.Numbered root) (pair : RulePair V) :
    (t.insert pair).Numbered root := by
  obtain ⟨path, hp⟩ := h.paths
  obtain ⟨path', hp', -⟩ := hp.insert pair
  obtain ⟨hd, hlt⟩ := h.descendAll (RuleTable.path pair)
  rw [insert_eq] at hp' ⊢
  generalize t.descendAll (RuleTable.path pair) = d at *
  obtain ⟨t', tip⟩ := d
  simp only at *
  refine ⟨⟨path', hp'⟩, fun s l n hn => hd.below s l n (child?_addRule pair s l ▸ hn), fun s => ?_,
    fun s => ?_, fun s hs hsize => .inl ?_⟩
  · rw [children_addRule]
    exact hd.labels s
  · rw [children_addRule]
    exact hd.ascending s
  · rw [Follows, rulesAt_addRule hlt]
    by_cases heq : s = tip
    · refine .inl ?_
      rw [if_pos heq]
      simp
    · rw [size_addRule] at hsize
      rw [if_neg heq]
      rcases hd.chain s hs hsize with (hrule | ⟨l, hl⟩) | ⟨rfl, -⟩
      · exact .inl hrule
      · exact .inr ⟨l, by rwa [child?_addRule]⟩
      · exact absurd rfl heq

/-! ## The first states of a table -/

def upTo (t : RuleTable V) (n : Nat) (rules : StateId → List (RulePair V)) : RuleTable V where
  states := (Array.range n).map fun s =>
    ⟨(t.state s).children.filter fun e : Symbol × Nat => e.2 < n, rules s⟩
  kind := .rules
  maxSpan := none

section

variable {t : RuleTable V} {n : Nat} {rules : StateId → List (RulePair V)}

theorem size_upTo : (t.upTo n rules).states.size = n := by simp [upTo]

theorem state_upTo (s : Nat) : (t.upTo n rules).state s =
    if s < n then ⟨(t.state s).children.filter fun e : Symbol × Nat => e.2 < n, rules s⟩ else {} := by
  by_cases hs : s < n
  · simp [state, upTo, hs]
  · simp [state, upTo, hs]

theorem child?_upTo_of_lt (h : t.Numbered root) {s : Nat} {label : Symbol} {m : Nat}
    (hm : t.child? s label = some m) (hlt : m < n) :
    (t.upTo n rules).child? s label = some m := by
  have hs := h.below s label m hm
  rw [child?, state_upTo, if_pos (by omega)]
  refine LabelMap.get?_of_mem (List.Nodup.sublist (List.filter_sublist.map _) (h.labels s)) ?_
  simpa [hlt] using h.mem_children_iff.mpr hm

theorem child?_upTo_self (h : t.Numbered root) {s : Nat} {label : Symbol}
    (hn : t.child? s label = some n) : (t.upTo n rules).child? s label = none := by
  rw [child?, state_upTo, if_pos (h.below s label n hn)]
  by_contra hsome
  obtain ⟨m, hm⟩ := Option.ne_none_iff_exists'.mp hsome
  have hm := List.mem_filter.mp (LabelMap.mem_of_get? hm)
  have heq := h.mem_children_iff.mp hm.1
  rw [hn] at heq
  cases heq
  simp at hm

theorem filter_lt_succ {children : List (Symbol × Nat)}
    (h : children.Pairwise fun d e => d.2 < e.2) {label : Symbol} (hmem : (label, n) ∈ children) :
    children.filter (·.2 < n + 1) = children.filter (·.2 < n) ++ [(label, n)] := by
  induction children with
  | nil => cases hmem
  | cons d children ih =>
    obtain ⟨hd, hrest⟩ := List.pairwise_cons.mp h
    rcases List.mem_cons.mp hmem with rfl | hmem
    · have hnone : ∀ m, n ≤ m → m ≤ n + 1 → children.filter (·.2 < m) = [] := by
        intro m hm hm'
        rw [List.filter_eq_nil_iff]
        intro e he
        have := hd e he
        simp at *
        omega
      rw [List.filter_cons_of_pos (by simp), List.filter_cons_of_neg (by simp),
        hnone n (by omega) (by omega), hnone (n + 1) (by omega) (by omega), List.nil_append]
    · have hlt := hd _ hmem
      have hlt' : d.2 < n + 1 := Nat.lt_succ_of_lt hlt
      rw [List.filter_cons_of_pos (by simpa using hlt'),
        List.filter_cons_of_pos (by simpa using hlt),
        ih hrest hmem, List.cons_append]

theorem filter_lt_succ_of_not_mem {children : List (Symbol × Nat)} (h : ∀ e ∈ children, e.2 ≠ n) :
    children.filter (·.2 < n + 1) = children.filter (·.2 < n) := by
  refine List.filter_congr fun e he => ?_
  have := h e he
  simp
  omega

theorem descend_upTo_of_lt (h : t.Numbered root) {s : Nat} {label : Symbol} {m : Nat}
    (hm : t.child? s label = some m) (hlt : m < n) :
    (t.upTo n rules).descend s label = (t.upTo n rules, m) := by
  rw [descend, child?_upTo_of_lt h hm hlt]

theorem descend_upTo_self (h : t.Numbered root) {s : Nat} {label : Symbol}
    (hn : t.child? s label = some n) (hrules : rules n = []) :
    (t.upTo n rules).descend s label = (t.upTo (n + 1) rules, n) := by
  have hs := h.below s label n hn
  have hchild : (t.upTo n rules).child? s label = none := child?_upTo_self h hn
  obtain ⟨htip, hsize, hstate⟩ := descend_of_none hchild
  rw [size_upTo] at htip hsize hstate
  refine Prod.ext (ext_state (by rw [hsize, size_upTo]) (fun i => ?_) ?_ ?_) htip
  · have hedge : ∀ e : Symbol × Nat, e ∈ (t.state i).children → t.child? i e.1 = some e.2 :=
      fun e he => h.mem_children_iff.mp he
    rw [hstate i]
    simp only [state_upTo]
    rcases Nat.lt_trichotomy i n with hi | rfl | hi
    · have hi' : i < n + 1 := by omega
      simp only [hi, hi', if_true]
      by_cases his : i = s
      · subst his
        rw [filter_lt_succ (h.ascending i) (h.mem_children_iff.mpr hn)]
        simp [hs]
      · rw [if_neg fun hand => his hand.1, filter_lt_succ_of_not_mem]
        intro e he heq
        exact his (h.eq_of_child? (heq ▸ hedge e he) hn)
    · have hnone : (t.state i).children.filter (fun e : Symbol × Nat => e.2 < i + 1) = [] := by
        simp only [List.filter_eq_nil_iff, decide_eq_true_eq]
        intro e he
        have hlt := h.below i e.1 e.2 (hedge e he)
        omega
      have his : i ≠ s := by omega
      rw [hnone]
      simp [his, hrules]
    · have his : i ≠ s := by omega
      have hn : ¬i < n := by omega
      have hn' : ¬i < n + 1 := by omega
      simp [his, hn, hn']
  all_goals rw [descend, hchild]; rfl

theorem descendAll_upTo (h : t.Numbered root) {path : StateId → List Symbol} (hp : t.Paths path)
    (hn : 0 < n) (hrules : ∀ s : Nat, n ≤ s → rules s = []) (s : Nat) (hs : s < t.states.size)
    (hgap : ∀ i : Nat, n ≤ i → i < s → t.rulesAt i = []) :
    (t.upTo n rules).descendAll (path s) = (t.upTo (max n (s + 1)) rules, s) := by
  induction s using Nat.strongRecOn with
  | _ s ih =>
    by_cases hroot : s = root
    · subst hroot
      rw [hp.atRoot, Nat.max_eq_left (show root + 1 ≤ n from hn)]
      rfl
    · obtain ⟨p, label, hpsize, hchild⟩ := hp.parent s hs hroot
      have hbelow := h.below p label s hchild
      have hpath := (hp.child p hpsize label s hchild).2
      have hdescend := ih p hbelow hpsize fun i hi hip => hgap i hi (by omega)
      rw [hpath, RuleTable.descendAll, List.foldl_append]
      change RuleTable.descend ((t.upTo n rules).descendAll (path p)).1
        ((t.upTo n rules).descendAll (path p)).2 label = _
      rw [hdescend]
      by_cases hlt : s < n
      · rw [Nat.max_eq_left (by omega), Nat.max_eq_left (by omega)]
        exact descend_upTo_of_lt h hchild hlt
      · -- the states between were made on the way, so the last of them is the one before `s`
        have hmax : max n (p + 1) = s := by
          rcases Nat.lt_or_eq_of_le (Nat.not_lt.mp hlt) with hlt | rfl
          · have hne : s - 1 ≠ 0 := by omega
            have hprev := hgap (s - 1) (by omega) (by omega)
            rcases h.chain (s - 1) hne (by omega) with (hrule | ⟨l, hl⟩) | ⟨htip, -⟩
            · exact absurd hprev hrule
            · rw [show s - 1 + 1 = s by omega] at hl
              have heq := h.eq_of_child? hl hchild
              omega
            · exact absurd htip hne
          · exact Nat.max_eq_left hbelow
        rw [hmax, Nat.max_eq_right (by omega)]
        exact descend_upTo_self h hchild (hrules s (by omega))

theorem insert_upTo (h : t.Numbered root) {path : StateId → List Symbol} (hp : t.Paths path)
    (hn : 0 < n) (hrules : ∀ s : Nat, n ≤ s → rules s = []) {s : Nat} (hs : s < t.states.size)
    (hgap : ∀ i : Nat, n ≤ i → i < s → t.rulesAt i = []) {pair : RulePair V}
    (hpair : RuleTable.path pair = path s) :
    (t.upTo n rules).insert pair =
      t.upTo (max n (s + 1)) fun i => if i = s then rules s ++ [pair] else rules i := by
  have hdescend := descendAll_upTo h hp hn hrules s hs hgap
  have hlt : s < max n (s + 1) := by omega
  rw [insert, hpair, hdescend]
  refine ext_state (by simp [size_upTo]) (fun i => ?_) rfl rfl
  simp only [state_modify, state_upTo, size_upTo]
  by_cases hi : i = s
  · simp [hi, hlt]
  · simp [hi]

theorem foldl_insert_upTo (h : t.Numbered root) {path : StateId → List Symbol} (hp : t.Paths path)
    (hn : 0 < n) (hrules : ∀ s : Nat, n ≤ s → rules s = []) {s : Nat} (hs : s < t.states.size)
    (hgap : ∀ i : Nat, n ≤ i → i < s → t.rulesAt i = []) {added : List (RulePair V)}
    (hadded : ∀ pair ∈ added, RuleTable.path pair = path s) (hsome : added ≠ []) :
    added.foldl insert (t.upTo n rules) =
      t.upTo (max n (s + 1)) fun i => if i = s then rules s ++ added else rules i := by
  induction added using List.reverseRecOn with
  | nil => exact absurd rfl hsome
  | append_singleton added pair ih =>
    have hpair : RuleTable.path pair = path s := hadded pair (by simp)
    rw [List.foldl_append, List.foldl_cons, List.foldl_nil]
    by_cases hnil : added = []
    · subst hnil
      exact insert_upTo h hp hn hrules hs hgap hpair
    · rw [ih (fun p hp => hadded p (by simp [hp])) hnil,
        insert_upTo h hp (by omega) (fun i hi => ?_) hs (fun i hi his => by omega) hpair]
      · congr 1
        · omega
        · funext i
          by_cases hi : i = s
          · simp [hi]
          · simp [hi]
      · have his : i ≠ s := by omega
        simp [his, hrules i (by omega)]

end

/-! ## The table of the rule pairs of a table -/

def mapPairs (f : RulePair V → RulePair V) (t : RuleTable V) : RuleTable V :=
  { t with states := t.states.map fun st => { st with rules := st.rules.map f } }

theorem state_mapPairs (f : RulePair V → RulePair V) (t : RuleTable V) (s : Nat) :
    (t.mapPairs f).state s = ⟨(t.state s).children, (t.rulesAt s).map f⟩ := by
  by_cases hs : s < t.states.size
  · simp [state, mapPairs, rulesAt, hs]
  · simp [state, mapPairs, rulesAt, hs]

theorem pairs_mapPairs (f : RulePair V → RulePair V) (t : RuleTable V) :
    (t.mapPairs f).pairs = t.pairs.map f := by
  simp [pairs, mapPairs, List.flatMap_map, List.map_flatMap]

/-- Putting the rule pairs of the first `k` states in makes the first states of the table, with a
gap of states without rule pairs up to `k`. -/
theorem exists_foldl_insert_eq_upTo {t : RuleTable V} (h : t.Numbered root)
    {f : RulePair V → RulePair V} (hf : ∀ pair, RuleTable.path (f pair) = RuleTable.path pair)
    (k : Nat) (hk : k ≤ t.states.size) :
    ∃ n : Nat, 0 < n ∧ n ≤ max 1 k ∧ (∀ i : Nat, n ≤ i → i < k → t.rulesAt i = []) ∧
      (((List.range k).flatMap t.rulesAt).map f).foldl insert empty =
        t.upTo n fun s => if s < k then (t.rulesAt s).map f else [] := by
  obtain ⟨path, hp⟩ := h.paths
  induction k with
  | zero =>
    refine ⟨1, by omega, by omega, by simp, ?_⟩
    have hchildren : (t.state 0).children.filter (fun e : Symbol × Nat => e.2 < 1) = [] := by
      simp only [List.filter_eq_nil_iff, decide_eq_true_eq]
      intro e he
      have hlt := h.below 0 e.1 e.2 (h.mem_children_iff.mp he)
      omega
    refine ext_state (by simp [size_upTo, empty]) (fun s => ?_) rfl rfl
    by_cases hs : s = 0
    · simp only [state_upTo, hs, hchildren]
      rfl
    · have hle : 1 ≤ s := by omega
      rw [state_upTo, if_neg (by omega)]
      exact state_of_le hle
  | succ k ih =>
    obtain ⟨n, hpos, hle, hgap, heq⟩ := ih (by omega)
    rw [List.range_succ, List.flatMap_append, List.map_append, List.foldl_append, heq,
      List.flatMap_singleton]
    -- a state without rule pairs is made with the next one that has some
    by_cases hnone : t.rulesAt k = []
    · refine ⟨n, hpos, by omega, fun i hi hik => ?_, ?_⟩
      · by_cases hlast : i = k
        · rwa [hlast]
        · exact hgap i hi (by omega)
      · rw [hnone, List.map_nil, List.foldl_nil]
        congr 1
        refine funext fun s : Nat => ?_
        by_cases hs : s = k
        · simp [hs, hnone]
        · have hiff : s < k ↔ s < k + 1 := by omega
          simp [hiff]
    · refine ⟨max n (k + 1), by omega, by omega, fun i hi hik => by omega, ?_⟩
      rw [foldl_insert_upTo h hp hpos (fun s hs => ?_) (by omega) hgap (fun pair hpair => ?_)
        (by simpa using hnone)]
      · congr 1
        refine funext fun s : Nat => ?_
        by_cases hs : s = k
        · simp [hs]
        · have hiff : s < k ↔ s < k + 1 := by omega
          simp [hs, hiff]
      · by_cases hsk : s < k
        · simp [hsk, hgap s hs hsk]
        · simp [hsk]
      · obtain ⟨pair, hmem, rfl⟩ := List.mem_map.mp hpair
        rw [hf, hp.rules k pair hmem]

theorem foldl_insert_mapPairs {t : RuleTable V} (h : t.Numbered root) (hkind : t.kind = .rules)
    (hmax : t.maxSpan = none) {f : RulePair V → RulePair V}
    (hf : ∀ pair, RuleTable.path (f pair) = RuleTable.path pair) :
    (t.pairs.map f).foldl insert empty = t.mapPairs f := by
  obtain ⟨path, hp⟩ := h.paths
  obtain ⟨n, hpos, hle, hgap, heq⟩ := exists_foldl_insert_eq_upTo h hf t.states.size (Nat.le_refl _)
  have hsize : n = t.states.size := by
    have := hp.size
    by_contra hne
    have hlast := hgap (t.states.size - 1) (by omega) (by omega)
    rcases h.chain (t.states.size - 1) (show t.states.size - 1 ≠ 0 by omega) (by omega) with
      (hrule | ⟨label, hlabel⟩) | ⟨hroot, -⟩
    · exact hrule hlast
    · have := h.lt_size hlabel
      omega
    · exact absurd hroot (show t.states.size - 1 ≠ 0 by omega)
  rw [pairs_eq_flatMap t (Nat.le_refl _), heq, hsize]
  refine ext_state (by simp [size_upTo, mapPairs]) (fun s => ?_) hkind.symm hmax.symm
  rw [state_mapPairs, state_upTo]
  by_cases hs : s < t.states.size
  · have hall : (t.state s).children.filter (fun e : Symbol × Nat => e.2 < t.states.size) =
        (t.state s).children := by
      simp only [List.filter_eq_self, decide_eq_true_eq]
      intro e he
      exact h.lt_size (h.mem_children_iff.mp he)
    simp [hs, hall]
  · have hle : t.states.size ≤ s := by omega
    simp [hs, state_of_le hle, rulesAt_of_le hle]

end ParseForest.RuleTable
