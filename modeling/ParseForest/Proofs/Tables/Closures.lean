import Mathlib.Data.List.Sort
import ParseForest.Proofs.Posterior.ClosureLoop
import ParseForest.Proofs.Tables.Labels

/-!
# Closures by number

A scoring parser computes the closure of a label with numbers in place of labels, sorts it by
number, and keeps it in a cache at the number of the label. Labels that come up on the way get the
next numbers, in the order in which the closure finds them. A cached closure stays right while
labels are added: those that come later are not in it.

A round goes through a hash map, in an order that `ClosureOrder` gives.
-/

namespace ParseForest

variable {V S : Type}

abbrev IdScores (S : Type) := List (Nat × S)

namespace IdScores

def insert (id : Nat) (score : S) : IdScores S → IdScores S
  | [] => [(id, score)]
  | (key, old) :: rest =>
    if key = id then (key, score) :: rest else (key, old) :: insert id score rest

def Names (labels : List Symbol) (a : Nat × S) (b : Symbol × S) : Prop :=
  labels[a.1]? = some b.1 ∧ a.2 = b.2

abbrev Like (labels : List Symbol) : IdScores S → LabelMap S → Prop :=
  List.Forall₂ (Names labels)

variable {labels labels' : List Symbol} {c : IdScores S} {m : LabelMap S} {id : Nat}
  {label : Symbol}

theorem Like.mono (h : Like labels c m) (hext : labels <+: labels') : Like labels' c m :=
  h.imp fun _ _ hab => ⟨getElem?_of_extends hext hab.1, hab.2⟩

theorem same_iff (hnodup : labels.Nodup) {key : Nat} {name : Symbol}
    (hkey : labels[key]? = some name) (hid : labels[id]? = some label) :
    key = id ↔ name = label := by
  constructor
  · rintro rfl
    exact Option.some.inj (hkey.symm.trans hid)
  · rintro rfl
    exact eq_of_same_label hnodup hkey hid

theorem Like.lookup (h : Like labels c m) (hnodup : labels.Nodup) (hid : labels[id]? = some label) :
    c.lookup id = LabelMap.get? m label := by
  induction h with
  | nil => rfl
  | @cons a b _ _ hab _ ih =>
    obtain ⟨key, score⟩ := a
    obtain ⟨name, value⟩ := b
    obtain ⟨hname, rfl⟩ := hab
    have hsame : key = id ↔ name = label := same_iff hnodup hname hid
    unfold LabelMap.get? at ih ⊢
    by_cases heq : key = id
    · simp [heq, hsame.mp heq]
    · simp [List.lookup_cons, beq_eq_false_iff_ne.mpr (Ne.symm heq),
        beq_eq_false_iff_ne.mpr (Ne.symm (mt hsame.mpr heq)), ih]

theorem Like.insert (h : Like labels c m) (hnodup : labels.Nodup) (hid : labels[id]? = some label)
    (score : S) : Like labels (insert id score c) (LabelMap.insert m label score) := by
  induction h with
  | nil => exact .cons ⟨hid, rfl⟩ .nil
  | @cons a b c m hab hrest ih =>
    obtain ⟨key, old⟩ := a
    obtain ⟨name, value⟩ := b
    have hsame : key = id ↔ name = label := same_iff hnodup hab.1 hid
    unfold LabelMap.insert at ih ⊢
    by_cases heq : key = id
    · simp only [IdScores.insert, LabelMap.upsert, heq, hsame.mp heq, if_true]
      exact .cons ⟨hid, rfl⟩ hrest
    · simp only [IdScores.insert, LabelMap.upsert, heq, mt hsame.mpr heq, if_false]
      exact .cons hab ih

theorem Like.nodup (h : Like labels c m) (hnodup : (LabelMap.keys m).Nodup) :
    (c.map (·.1)).Nodup := by
  have hkeys : (c.map (·.1)).map (fun id => labels[id]?) = (LabelMap.keys m).map some := by
    rw [LabelMap.keys, List.map_map, List.map_map]
    induction h with
    | nil => rfl
    | cons hab _ ih =>
      rw [List.map_cons, List.map_cons, ih (List.nodup_cons.mp hnodup).2]
      simp [hab.1]
  refine List.Nodup.of_map (fun id => labels[id]?) ?_
  rw [hkeys]
  exact hnodup.map (Option.some_injective _)

theorem mem_iff_lookup (hnodup : (c.map (·.1)).Nodup) (score : S) :
    (id, score) ∈ c ↔ c.lookup id = some score := by
  induction c with
  | nil => simp
  | cons a c ih =>
    obtain ⟨key, old⟩ := a
    obtain ⟨hnew, hrest⟩ := List.nodup_cons.mp hnodup
    by_cases heq : id = key
    · subst heq
      have hout : (id, score) ∉ c := fun hmem => hnew (List.mem_map.mpr ⟨_, hmem, rfl⟩)
      simp [hout, eq_comm]
    · simp [List.lookup_cons, beq_eq_false_iff_ne.mpr heq, heq, ih hrest]

theorem Like.exists_label (h : Like labels c m) {a : Nat × S} (ha : a ∈ c) :
    ∃ label, labels[a.1]? = some label := by
  induction h with
  | nil => cases ha
  | @cons _ b _ _ hab _ ih =>
    rcases List.mem_cons.mp ha with rfl | ha
    · exact ⟨b.1, hab.1⟩
    · exact ih ha

theorem Like.exists_id (h : Like labels c m) (hlabel : label ∈ LabelMap.keys m) :
    ∃ id : Nat, labels[id]? = some label := by
  unfold LabelMap.keys at hlabel
  induction h with
  | nil => cases hlabel
  | @cons a _ _ _ hab _ ih =>
    rcases List.mem_cons.mp hlabel with rfl | hlabel
    · exact ⟨a.1, hab.1⟩
    · exact ih hlabel

def byNumber (size : Nat) (c : IdScores S) : IdScores S :=
  (List.range size).filterMap fun id => (c.lookup id).map fun score => (id, score)

theorem pairwise_byNumber (size : Nat) (c : IdScores S) :
    (byNumber size c).Pairwise fun a b => a.1 < b.1 := by
  refine List.Pairwise.filterMap _ ?_ List.pairwise_lt_range
  intro i j hij a ha b hb
  obtain ⟨x, -, rfl⟩ := Option.map_eq_some_iff.mp ha
  obtain ⟨y, -, rfl⟩ := Option.map_eq_some_iff.mp hb
  exact hij

theorem Like.byNumber (h : Like labels c m) (hlabels : labels.Nodup) :
    Like labels (byNumber labels.length c) (LabelMap.inOrder labels m) := by
  have hrange := forall₂_range_take labels le_rfl
  rw [List.take_length] at hrange
  refine List.rel_filterMap (fun id label hid => ?_) hrange
  rw [h.lookup hlabels hid]
  cases LabelMap.get? m label with
  | none => exact .none
  | some x => exact .some ⟨hid, rfl⟩

theorem Like.mem_byNumber (h : Like labels c m) (hkeys : (c.map (·.1)).Nodup) (a : Nat × S) :
    a ∈ IdScores.byNumber labels.length c ↔ a ∈ c := by
  obtain ⟨id, score⟩ := a
  rw [mem_iff_lookup hkeys, IdScores.byNumber, List.mem_filterMap]
  constructor
  · rintro ⟨i, -, hi⟩
    obtain ⟨x, hx, heq⟩ := Option.map_eq_some_iff.mp hi
    cases heq
    exact hx
  · intro hlookup
    have hin := (mem_iff_lookup hkeys score).mpr hlookup
    obtain ⟨label, hlabel⟩ := h.exists_label hin
    exact ⟨id, List.mem_range.mpr (List.getElem?_eq_some_iff.mp hlabel).1, by rw [hlookup]; rfl⟩

theorem pairwise_mergeSort_number (c : IdScores S) :
    (c.mergeSort fun a b => a.1 ≤ b.1).Pairwise fun a b => a.1 ≤ b.1 := by
  have htrans (a b c : Nat × S) (hab : decide (a.1 ≤ b.1) = true)
      (hbc : decide (b.1 ≤ c.1) = true) : decide (a.1 ≤ c.1) = true := by
    simp only [decide_eq_true_eq] at *
    omega
  have htotal (a b : Nat × S) : (decide (a.1 ≤ b.1) || decide (b.1 ≤ a.1)) = true := by
    simp only [Bool.or_eq_true, decide_eq_true_eq]
    omega
  exact (List.pairwise_mergeSort htrans htotal c).imp of_decide_eq_true

theorem Like.mergeSort_eq (h : Like labels c m) (hkeys : (c.map (·.1)).Nodup) :
    (c.mergeSort fun a b => a.1 ≤ b.1) = IdScores.byNumber labels.length c := by
  have hincreasing := pairwise_byNumber labels.length c
  have hnodup : (IdScores.byNumber labels.length c).Nodup :=
    hincreasing.imp fun {a b} (hab : a.1 < b.1) heq => Nat.ne_of_lt hab (congrArg Prod.fst heq)
  have hperm : (c.mergeSort fun a b => a.1 ≤ b.1).Perm (IdScores.byNumber labels.length c) :=
    (List.mergeSort_perm c _).trans ((List.perm_ext_iff_of_nodup (.of_map _ hkeys) hnodup).mpr
      fun a => (h.mem_byNumber hkeys a).symm)
  -- two entries of one number are the same entry, so only one order is by number
  refine hperm.eq_of_pairwise (fun a b ha hb hab hba => ?_) (pairwise_mergeSort_number c)
    (hincreasing.imp Nat.le_of_lt)
  rw [List.mem_mergeSort] at ha
  rw [h.mem_byNumber hkeys] at hb
  exact List.inj_on_of_nodup_map hkeys ha hb (Nat.le_antisymm hab hba)

theorem Like.sorted (h : Like labels c m) (hlabels : labels.Nodup)
    (hnodup : (LabelMap.keys m).Nodup) :
    Like labels (c.mergeSort fun a b => a.1 ≤ b.1) (LabelMap.inOrder labels m) := by
  rw [h.mergeSort_eq (h.nodup hnodup)]
  exact h.byNumber hlabels

end IdScores

/-! ## Rounds -/

structure IdRound (S : Type) where
  labels : LabelTable
  closure : IdScores S
  changed : Bool

namespace IdRound

section

variable [Score S] (g : Grammar V) (w : Weighting V S) (o : Options V)

def applyPair (child : Nat) (score : S) (st : IdRound S) (pair : RulePair V) : IdRound S :=
  let (labels, id) := st.labels.number (pair.side o.yieldSource).lhs
  if id = child then { st with labels }
  else
    let score := Score.mul (w pair.features) score
    match st.closure.lookup id with
    | none => ⟨labels, st.closure.insert id score, true⟩
    | some old =>
      if Score.less old score then ⟨labels, st.closure.insert id score, true⟩
      else { st with labels }

def applyTable? (child : Nat) (entry : Nat × S) (st : IdRound S) (t : RuleTable V) :
    Option (IdRound S) := do
  let label ← st.labels.symbols[entry.1]?
  let state ← t.next? RuleTable.root label
  if state = RuleTable.root then return st
  else
    let pairs ← t.rulesAt? state
    return pairs.foldl (applyPair w o child entry.2) st

omit [Score S] in
/-- The entries of a closure in the order in which its hash map is gone through. -/
def inOrder? (order : ClosureOrder) (n child : Nat) (labels : LabelTable) (closure : IdScores S) :
    Option (IdScores S) := do
  let name ← labels.symbols[child]?
  let names ← closure.mapM fun entry => labels.symbols[entry.1]?
  (order.order name n names).mapM fun label => do
    let id ← LabelMap.get? labels.ids label
    let score ← closure.lookup id
    return (id, score)

def round? (order : ClosureOrder) (n child : Nat) (labels : LabelTable) (closure : IdScores S) :
    Option (IdRound S) := do
  let entries ← inOrder? order n child labels closure
  entries.foldlM (fun st entry => g.foldlM (applyTable? w o child entry) st)
    ⟨labels, closure, false⟩

def rounds? (order : ClosureOrder) (child : Nat) :
    (fuel n stagnant : Nat) → LabelTable → IdScores S → Option (LabelTable × IdScores S)
  | 0, _, _, _, _ => none
  | fuel + 1, n, stagnant, labels, closure => do
    let st ← round? g w o order n child labels closure
    if !st.changed then return (st.labels, st.closure)
    else if closure.length < st.closure.length then
      rounds? order child fuel (n + 1) stagnant st.labels st.closure
    else if o.scoreStagnation ≤ stagnant + 1 then return (st.labels, st.closure)
    else rounds? order child fuel (n + 1) (stagnant + 1) st.labels st.closure

end

def noted (base : List Symbol) (m : LabelMap S) : List Symbol :=
  (LabelMap.keys m).foldl noteLabel base

structure Like (base : List Symbol) (st : IdRound S) (p : LabelMap S × Bool) : Prop where
  labels : st.labels.Numbers (noted base p.1)
  closure : IdScores.Like (noted base p.1) st.closure p.1
  changed : st.changed = p.2

variable [Score S] {g : Grammar V} {w : Weighting V S} {o : Options V} {order : ClosureOrder}
  {base : List Symbol} {child : Nat} {name : Symbol} {st : IdRound S} {p : LabelMap S × Bool}

omit [Score S] in
theorem prefix_noted (base : List Symbol) (m : LabelMap S) : base <+: noted base m :=
  (ScoreState.foldl_noteLabel base _).1

omit [Score S] in
theorem mem_noted {m : LabelMap S} {label : Symbol} (h : label ∈ LabelMap.keys m) :
    label ∈ noted base m :=
  (ScoreState.foldl_noteLabel base _).2.2 label h

omit [Score S] in
theorem noted_of_prefix {m m' : LabelMap S} (h : LabelMap.keys m <+: LabelMap.keys m') :
    noted base m <+: noted base m' := by
  obtain ⟨more, hmore⟩ := h
  rw [noted, noted, ← hmore, List.foldl_append]
  exact (ScoreState.foldl_noteLabel _ more).1

omit [Score S] in
theorem noted_insert (m : LabelMap S) (label : Symbol) (score : S) :
    noted base (LabelMap.insert m label score) = noteLabel (noted base m) label := by
  unfold noted LabelMap.insert
  rw [LabelMap.keys_upsert]
  split
  · rename_i hmem
    exact (LabelTable.noteLabel_of_mem (mem_noted hmem)).symm
  · rw [List.foldl_append]
    rfl

theorem like_applyPair (hchild : base[child]? = some name) (h : Like base st p) (score : S)
    (pair : RulePair V) :
    Like base (applyPair w o child score st pair) (Closure.applyPair w o name score p pair) := by
  unfold applyPair Closure.applyPair
  generalize (pair.side o.yieldSource).lhs = label
  obtain ⟨hnumbers, hid⟩ := h.labels.number label
  have hgrown := ScoreState.noteLabel_extends (noted base p.1) label
  have hchild' := getElem?_of_extends ((prefix_noted base p.1).trans hgrown) hchild
  have hclosure := h.closure.mono hgrown
  have hsame := IdScores.same_iff hnumbers.nodup hid hchild'
  generalize st.labels.number label = next at hnumbers hid hsame
  simp only
  by_cases heq : label = name
  · rw [if_pos heq, if_pos (hsame.mpr heq)]
    have hold : noteLabel (noted base p.1) label = noted base p.1 :=
      LabelTable.noteLabel_of_mem
        (heq ▸ (prefix_noted base p.1).subset (List.mem_of_getElem? hchild))
    rw [hold] at hnumbers
    exact ⟨hnumbers, h.closure, h.changed⟩
  · rw [if_neg heq, if_neg (mt hsame.mp heq), hclosure.lookup hnumbers.nodup hid]
    have hinsert (score : S) : Like base ⟨next.1, st.closure.insert next.2 score, true⟩
        (LabelMap.insert p.1 label score, true) := by
      refine ⟨?_, ?_, rfl⟩
      · rw [noted_insert]
        exact hnumbers
      · rw [noted_insert]
        exact hclosure.insert hnumbers.nodup hid score
    unfold Closure.improve
    cases hget : LabelMap.get? p.1 label with
    | none => simpa using hinsert _
    | some old =>
      have hold : noteLabel (noted base p.1) label = noted base p.1 :=
        LabelTable.noteLabel_of_mem (mem_noted (LabelMap.mem_keys_iff.mpr (by rw [hget]; rfl)))
      rw [hold] at hnumbers
      simp only
      by_cases hless : Score.less old (Score.mul (w pair.features) score) = true
      · simpa [hless] using hinsert _
      · simpa [hless] using (⟨hnumbers, h.closure, h.changed⟩ : Like base
          { st with labels := next.1 } p)

theorem noted_applyPair (score : S) (pair : RulePair V) :
    noted base p.1 <+: noted base (Closure.applyPair w o name score p pair).1 := by
  unfold Closure.applyPair
  simp only
  split
  · exact List.prefix_refl _
  · exact noted_of_prefix (Closure.keys_prefix_improve _ _ _)

theorem yields_applyTables (hclosed : ∀ t ∈ g, t.Closed) (hchild : base[child]? = some name)
    {entry : Nat × S} {label : Symbol} (hlabel : (noted base p.1)[entry.1]? = some label)
    (h : Like base st p) :
    Yields (g.foldlM (applyTable? w o child entry) st) fun st =>
      Like base st ((g.unaryRules label).foldl (Closure.applyPair w o name entry.2) p) ∧
        noted base p.1 <+:
          noted base ((g.unaryRules label).foldl (Closure.applyPair w o name entry.2) p).1 := by
  rw [Grammar.unaryRules, List.foldl_flatMap]
  let R (st : IdRound S) (q : LabelMap S × Bool) : Prop :=
    Like base st q ∧ noted base p.1 <+: noted base q.1
  have hpairs (pairs : List (RulePair V)) (st : IdRound S) (q : LabelMap S × Bool) (h : R st q) :
      R (pairs.foldl (applyPair w o child entry.2) st)
        (pairs.foldl (Closure.applyPair w o name entry.2) q) := by
    induction pairs generalizing st q with
    | nil => exact h
    | cons pair pairs ih =>
      exact ih _ _ ⟨like_applyPair hchild h.1 entry.2 pair, h.2.trans (noted_applyPair _ _)⟩
  refine yields_foldlM_same (R := R) (fun st q t ht h => ?_) ⟨h, List.prefix_refl _⟩
  rw [applyTable?, h.1.labels.symbol, getElem?_of_extends h.2 hlabel]
  simp only [Option.bind_eq_bind, Option.bind_some,
    RuleTable.next?_eq_some (hclosed t ht).root_lt]
  unfold RuleTable.unaryRules
  by_cases hroot : t.next RuleTable.root label = RuleTable.root
  · simp only [hroot, if_true]
    exact yields_some h
  · simp only [hroot, if_false, RuleTable.rulesAt?_eq_some ((hclosed t ht).next_lt _ _)]
    exact yields_some (hpairs _ _ _ h)

omit [Score S] in
theorem yields_inOrder {labels : LabelTable} {all : List Symbol} {c : IdScores S} {m : LabelMap S}
    (hlabels : labels.Numbers all) (hchild : all[child]? = some name) (h : IdScores.Like all c m)
    (n : Nat) : Yields (inOrder? order n child labels c)
      (IdScores.Like all · (m.inOrder (order.order name n (LabelMap.keys m)))) := by
  have hnames : Yields (c.mapM fun entry => labels.symbols[entry.1]?)
      (List.Forall₂ Eq · (LabelMap.keys m)) :=
    yields_mapM (fun a b hab => .of_eq_some ((hlabels.symbol a.1).trans hab.1) rfl) h
  have hordered (ordered : List Symbol) (hkeys : ∀ label ∈ ordered, label ∈ LabelMap.keys m) :
      Yields (ordered.mapM fun label => do
        let id ← LabelMap.get? labels.ids label
        let score ← c.lookup id
        return (id, score)) (IdScores.Like all · (m.inOrder ordered)) := by
    induction ordered with
    | nil => exact yields_some .nil
    | cons label ordered ih =>
      obtain ⟨score, hscore⟩ := Option.isSome_iff_exists.mp
        (LabelMap.mem_keys_iff.mp (hkeys label List.mem_cons_self))
      obtain ⟨id, hid⟩ := h.exists_id (hkeys label List.mem_cons_self)
      have hlookup := (h.lookup hlabels.nodup hid).trans hscore
      have hhead : m.inOrder (label :: ordered) = (label, score) :: m.inOrder ordered := by
        simp [LabelMap.inOrder, hscore]
      rw [List.mapM_cons, (hlabels.ids label id).mpr hid, hhead]
      simp only [Option.bind_eq_bind, Option.bind_some, hlookup]
      exact (ih fun l hl => hkeys l (List.mem_cons_of_mem _ hl)).bind fun rest hrest =>
        yields_some (.cons ⟨hid, rfl⟩ hrest)
  unfold inOrder?
  rw [hlabels.symbol, hchild]
  refine hnames.bind fun names hnames => ?_
  rw [List.forall₂_eq_eq_eq] at hnames
  subst hnames
  exact hordered _ fun label hlabel => (order.perm name n _).mem_iff.mp hlabel

theorem yields_round (hclosed : ∀ t ∈ g, t.Closed) (hchild : base[child]? = some name)
    {labels : LabelTable} {c : IdScores S} {m : LabelMap S}
    (hlabels : labels.Numbers (noted base m))
    (h : IdScores.Like (noted base m) c m) (n : Nat) :
    Yields (round? g w o order n child labels c) fun st =>
      Like base st (Closure.roundIn (order.order name n (LabelMap.keys m)) g w o name m) := by
  have hchild' := getElem?_of_extends (prefix_noted base m) hchild
  refine (yields_inOrder hlabels hchild' h n).bind fun entries hentries => ?_
  let R (st : IdRound S) (q : LabelMap S × Bool) : Prop :=
    Like base st q ∧ noted base m <+: noted base q.1
  have hstep (st : IdRound S) (q : LabelMap S × Bool) (a : Nat × S) (b : Symbol × S) (hst : R st q)
      (hab : IdScores.Names (noted base m) a b) :
      Yields (g.foldlM (applyTable? w o child a) st) (R · ((g.unaryRules b.1).foldl
        (Closure.applyPair w o name b.2) q)) := by
    rw [← hab.2]
    exact (yields_applyTables hclosed hchild (getElem?_of_extends hst.2 hab.1) hst.1).mono
      fun _ h => ⟨h.1, hst.2.trans h.2⟩
  exact (yields_foldlM hstep hentries ⟨⟨hlabels, h, rfl⟩, List.prefix_refl _⟩).mono fun _ h => h.1

open Closure in
theorem yields_rounds_succ (hclosed : ∀ t ∈ g, t.Closed) (hchild : base[child]? = some name)
    {p : Progress S} {labels : LabelTable} {c : IdScores S}
    (hlabels : labels.Numbers (noted base p.closure))
    (h : IdScores.Like (noted base p.closure) c p.closure) {fuel : Nat}
    {P : LabelTable × IdScores S → Prop}
    (hlast : ∀ r, turn order g w o name p = .inr r → ∀ labels c,
      labels.Numbers (noted base r.1) → IdScores.Like (noted base r.1) c r.1 → P (labels, c))
    (hnext : ∀ p', turn order g w o name p = .inl p' → ∀ labels c,
      labels.Numbers (noted base p'.closure) → IdScores.Like (noted base p'.closure) c p'.closure →
        Yields (rounds? g w o order child fuel p'.rounds p'.idle labels c) P) :
    Yields (rounds? g w o order child (fuel + 1) p.rounds p.idle labels c) P := by
  rw [rounds?]
  refine (yields_round hclosed hchild hlabels h p.rounds).bind fun st hst => ?_
  have hlen := h.length_eq
  have hlen' := hst.closure.length_eq
  revert hlast hnext
  unfold turn
  generalize roundIn (order.order name p.rounds (LabelMap.keys p.closure)) g w o name p.closure
    = q at hst hlen' ⊢
  -- both go by whether anything has changed and by the lengths of the closures, which agree
  simp only [hst.changed, hlen, hlen']
  split
  · exact fun hlast _ => yields_some (hlast _ rfl _ _ hst.labels hst.closure)
  · split
    · exact fun _ hnext => hnext _ rfl _ _ hst.labels hst.closure
    · split
      · exact fun hlast _ => yields_some (hlast _ rfl _ _ hst.labels hst.closure)
      · exact fun _ hnext => hnext _ rfl _ _ hst.labels hst.closure

open Closure in
/-- The rounds by number end when the loop by label does, with what it leaves with. -/
theorem yields_rounds (hclosed : ∀ t ∈ g, t.Closed) (hchild : base[child]? = some name)
    {turns : Nat} {p : Progress S} {r : LabelMap S × Bool}
    (hleaves : Leaves (turn order g w o name) turns p r) {fuel : Nat} (hfuel : turns ≤ fuel)
    {labels : LabelTable} {c : IdScores S} (hlabels : labels.Numbers (noted base p.closure))
    (h : IdScores.Like (noted base p.closure) c p.closure) :
    Yields (rounds? g w o order child fuel p.rounds p.idle labels c) fun s =>
      s.1.Numbers (noted base r.1) ∧ IdScores.Like (noted base r.1) s.2 r.1 := by
  induction hleaves generalizing fuel labels c with
  | last hturn =>
    obtain ⟨fuel, rfl⟩ := Nat.exists_eq_add_one_of_ne_zero (Nat.ne_of_gt hfuel)
    refine yields_rounds_succ hclosed hchild hlabels h (fun r' hr' labels c hlabels h => ?_)
      fun p' hp' => ?_
    · obtain rfl := Sum.inr.inj (hturn.symm.trans hr')
      exact ⟨hlabels, h⟩
    · cases hturn.symm.trans hp'
  | next hturn _ ih =>
    obtain ⟨fuel, rfl⟩ := Nat.exists_eq_add_of_le' (Nat.le_of_add_left_le hfuel)
    refine yields_rounds_succ hclosed hchild hlabels h (fun r' hr' => ?_)
      fun p' hp' labels c hlabels h => ?_
    · cases hturn.symm.trans hr'
    · obtain rfl := Sum.inl.inj (hturn.symm.trans hp')
      exact ih (Nat.le_of_succ_le_succ hfuel) hlabels h

end IdRound

/-! ## The cache -/

structure ClosureCache (S : Type) where
  labels : LabelTable
  kept : Array (Option (IdScores S))

namespace ClosureCache

variable [Score S] {g : Grammar V} {w : Weighting V S} {o : Options V} {order : ClosureOrder}
  {labels labels' : List Symbol} {s : ClosureCache S} {child : Nat} {name : Symbol}

def closure? (g : Grammar V) (w : Weighting V S) (o : Options V) (order : ClosureOrder)
    (child : Nat) (s : ClosureCache S) : Option (ClosureCache S × IdScores S) :=
  match s.kept.getD child none with
  | some closure => some (s, closure)
  | none => do
    let (labels, closure) ← IdRound.rounds? g w o order child (Closure.roundLimit g o) 0 0 s.labels
      [(child, Score.one)]
    let closure := closure.mergeSort fun a b => a.1 ≤ b.1
    let kept ← alterAt? none s.kept child fun _ => some closure
    return (⟨labels, kept⟩, closure)

def Holds (g : Grammar V) (w : Weighting V S) (o : Options V) (order : ClosureOrder)
    (labels : List Symbol) (name : Symbol) (closure : IdScores S) : Prop :=
  (∀ label ∈ LabelMap.keys (unaryClosureIn order g w o name), label ∈ labels) ∧
    IdScores.Like labels closure ((unaryClosureIn order g w o name).inOrder labels)

structure Good (g : Grammar V) (w : Weighting V S) (o : Options V) (order : ClosureOrder)
    (labels : List Symbol) (s : ClosureCache S) : Prop where
  numbers : s.labels.Numbers labels
  kept : ∀ (id : Nat) closure, s.kept.getD id none = some closure →
    ∃ label, labels[id]? = some label ∧ Holds g w o order labels label closure

theorem Holds.grow {closure : IdScores S} (h : Holds g w o order labels name closure)
    (hext : labels <+: labels') (hnodup : labels'.Nodup) :
    Holds g w o order labels' name closure := by
  refine ⟨fun label hlabel => hext.subset (h.1 label hlabel), ?_⟩
  have hsame : (unaryClosureIn order g w o name).inOrder labels' =
      (unaryClosureIn order g w o name).inOrder labels := by
    obtain ⟨more, rfl⟩ := hext
    have hnone : (unaryClosureIn order g w o name).inOrder more = [] := by
      refine List.eq_nil_iff_forall_not_mem.mpr fun kv hkv => ?_
      obtain ⟨hmore, hget⟩ := LabelMap.mem_inOrder.mp hkv
      have hold := h.1 kv.1 (LabelMap.mem_keys_iff.mpr (by rw [hget]; rfl))
      exact (List.nodup_append.mp hnodup).2.2 _ hold _ hmore rfl
    unfold LabelMap.inOrder at hnone ⊢
    rw [List.filterMap_append, hnone, List.append_nil]
  rw [hsame]
  exact h.2.mono hext

theorem Good.grow (h : Good g w o order labels s) {table : LabelTable}
    (hext : labels <+: labels') (htable : table.Numbers labels') :
    Good g w o order labels' { s with labels := table } := by
  refine ⟨htable, fun id closure hid => ?_⟩
  obtain ⟨label, hlabel, hholds⟩ := h.kept id closure hid
  exact ⟨label, getElem?_of_extends hext hlabel, hholds.grow hext htable.nodup⟩

omit [Score S] in
theorem noted_of_mem {m : LabelMap S} (h : ∀ label ∈ LabelMap.keys m, label ∈ labels) :
    IdRound.noted labels m = labels := by
  unfold IdRound.noted
  generalize LabelMap.keys m = more at h
  induction more with
  | nil => rfl
  | cons label more ih =>
    rw [List.foldl_cons, LabelTable.noteLabel_of_mem (h label List.mem_cons_self)]
    exact ih fun l hl => h l (List.mem_cons_of_mem _ hl)

theorem yields_rounds (hclosed : ∀ t ∈ g, t.Closed) (h : s.labels.Numbers labels)
    (hchild : labels[child]? = some name) :
    Yields (IdRound.rounds? g w o order child (Closure.roundLimit g o) 0 0 s.labels
      [(child, Score.one)]) fun r =>
        r.1.Numbers (IdRound.noted labels (unaryClosureIn order g w o name)) ∧
          IdScores.Like (IdRound.noted labels (unaryClosureIn order g w o name)) r.2
            (unaryClosureIn order g w o name) := by
  have hstart : IdRound.noted labels [(name, (Score.one : S))] = labels :=
    LabelTable.noteLabel_of_mem (List.mem_of_getElem? hchild)
  have hself : IdScores.Like (IdRound.noted labels [(name, (Score.one : S))])
      [(child, (Score.one : S))] [(name, Score.one)] := by
    rw [hstart]
    exact .cons ⟨hchild, rfl⟩ .nil
  obtain ⟨turns, changed, hleaves, hle⟩ := Closure.leaves_unaryClosureIn order g w o name
  exact IdRound.yields_rounds hclosed hchild hleaves
    (hle.trans (Closure.ncard_add_le_roundLimit g w o name)) (hstart.symm ▸ h) hself

theorem yields_closure (hclosed : ∀ t ∈ g, t.Closed) (h : Good g w o order labels s)
    (hchild : labels[child]? = some name) :
    Yields (closure? g w o order child s) fun r =>
      Good g w o order (IdRound.noted labels (unaryClosureIn order g w o name)) r.1 ∧
        IdScores.Like (IdRound.noted labels (unaryClosureIn order g w o name)) r.2
          ((unaryClosureIn order g w o name).inOrder
            (IdRound.noted labels (unaryClosureIn order g w o name))) := by
  unfold closure?
  cases hkept : s.kept.getD child none with
  | some closure =>
    obtain ⟨label, hlabel, hkeys, hlike⟩ := h.kept child closure hkept
    obtain rfl : name = label := Option.some.inj (hchild.symm.trans hlabel)
    rw [noted_of_mem hkeys]
    exact yields_some ⟨h, hlike⟩
  | none =>
    refine (yields_rounds hclosed h.numbers hchild).bind
      fun (table, closure) ⟨htable, hclosure⟩ => ?_
    simp only at htable hclosure ⊢
    have hext := IdRound.prefix_noted labels (unaryClosureIn order g w o name)
    have hsorted := hclosure.sorted htable.nodup (sound_unaryClosureIn g w o name).nodup
    have hgrown := (h.grow hext htable).kept
    rw [alterAt?_eq_some]
    refine yields_some ⟨⟨htable, fun id kept hid => ?_⟩, hsorted⟩
    rw [getD_altered (by omega)] at hid
    split at hid
    · rename_i heq
      cases hid
      rw [heq]
      exact ⟨name, getElem?_of_extends hext hchild, fun _ => IdRound.mem_noted, hsorted⟩
    · exact hgrown id kept hid

end ClosureCache

end ParseForest
