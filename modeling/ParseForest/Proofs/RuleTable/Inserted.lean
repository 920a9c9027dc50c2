import Mathlib.Data.List.Perm.Basic
import Mathlib.Logic.Relator
import ParseForest.Proofs.LeftSides
import ParseForest.Proofs.RuleTable.Read

/-!
# Grammars of the same rule pairs

Rule pairs can be put into one table or be shared out over several, in any order. The states get
other numbers then, and a state lists its rule pairs in another order. What stays are the rule pairs
with the paths at which they stand, and with them the unary rules of a label and the rule pairs that
a trail fits.
-/

namespace ParseForest

variable {V E : Type}

theorem Enumerates.exists_biUnique {α β γ : Type} {f : α → Option γ} {f' : β → Option γ}
    {ys ys' : List γ} (h : Enumerates f (fun x => (f x).isSome = true) ys)
    (h' : Enumerates f' (fun x => (f' x).isSome = true) ys') (hperm : ys.Perm ys') :
    ∃ R : α → β → Prop, Relator.BiUnique R ∧ (∀ x x', R x x' → f x = f' x') ∧
      (∀ x, (f x).isSome = true → ∃ x', R x x') ∧ ∀ x', (f' x').isSome = true → ∃ x, R x x' := by
  obtain ⟨xs, hnd, hmem, rfl⟩ := h
  obtain ⟨xs', hnd', hmem', rfl⟩ := h'
  have hperm : (xs.map f).Perm (xs'.map f') := by
    have hmap {ι : Type} (k : ι → Option γ) (zs : List ι) (hzs : ∀ z ∈ zs, (k z).isSome = true) :
        (zs.filterMap k).map some = zs.map k := by
      rw [List.map_filterMap, ← List.filterMap_eq_map]
      refine List.filterMap_congr fun z hz => ?_
      obtain ⟨y, hy⟩ := Option.isSome_iff_exists.mp (hzs z hz)
      rw [Function.comp_apply, hy, Option.map_some]
    rw [← hmap f xs fun x hx => (hmem x).mp hx, ← hmap f' xs' fun x hx => (hmem' x).mp hx]
    exact hperm.map some
  -- the elements of `xs`, each where the element with its value stands in `xs'`
  obtain ⟨ws, hws, hxs⟩ := List.perm_comp_forall₂ (r := fun y x => f x = y) hperm.symm
    (List.forall₂_map_left_iff.mpr (List.forall₂_same.mpr fun x _ => rfl))
  rw [List.forall₂_map_left_iff, List.forall₂_iff_get] at hws
  obtain ⟨hlength, hget⟩ := hws
  have hndw := hxs.nodup_iff.mpr hnd
  refine ⟨fun x x' => ∃ i : Nat, ws[i]? = some x ∧ xs'[i]? = some x', ⟨?_, ?_⟩, ?_, ?_, ?_⟩
  · rintro x y x' ⟨i, hx, hi⟩ ⟨j, hy, hj⟩
    obtain rfl := (List.getElem?_inj (List.getElem?_eq_some_iff.mp hi).1 hnd').mp (hi.trans hj.symm)
    exact Option.some.inj (hx.symm.trans hy)
  · rintro x x' y' ⟨i, hi, hx⟩ ⟨j, hj, hy⟩
    obtain rfl := (List.getElem?_inj (List.getElem?_eq_some_iff.mp hi).1 hndw).mp (hi.trans hj.symm)
    exact Option.some.inj (hx.symm.trans hy)
  · rintro x x' ⟨i, hx, hx'⟩
    obtain ⟨hi, rfl⟩ := List.getElem?_eq_some_iff.mp hx
    obtain ⟨hi', rfl⟩ := List.getElem?_eq_some_iff.mp hx'
    exact hget i hi' hi
  · intro x hx
    obtain ⟨i, hi⟩ := List.getElem?_of_mem (hxs.mem_iff.mpr ((hmem x).mpr hx))
    have hlt : i < xs'.length := hlength ▸ (List.getElem?_eq_some_iff.mp hi).1
    exact ⟨_, i, hi, List.getElem?_eq_getElem hlt⟩
  · intro x' hx'
    obtain ⟨i, hi⟩ := List.getElem?_of_mem ((hmem' x').mpr hx')
    have hlt : i < ws.length := hlength ▸ (List.getElem?_eq_some_iff.mp hi).1
    exact ⟨_, i, List.getElem?_eq_getElem hlt, hi⟩

namespace RuleTable

/-! ## Putting rule pairs in -/

structure Plain (t : RuleTable V) : Prop where
  paths : ∃ path, t.Paths path
  maxSpan : t.maxSpan = none
  kind : t.kind = .rules

theorem kind_insert (t : RuleTable V) (pair : RulePair V) : (t.insert pair).kind = t.kind := by
  have hdescend (t : RuleTable V) (s : StateId) (label : Symbol) :
      (t.descend s label).1.kind = t.kind := by
    unfold descend
    split <;> rfl
  have hall (d : RuleTable V × StateId) (labels : List Symbol) :
      (labels.foldl (fun d label => d.1.descend d.2 label) d).1.kind = d.1.kind := by
    induction labels generalizing d with
    | nil => rfl
    | cons label labels ih => exact (ih _).trans (hdescend d.1 d.2 label)
  exact hall (t, root) (path pair)

theorem plain_empty : (empty : RuleTable V).Plain := ⟨⟨_, paths_empty⟩, rfl, rfl⟩

theorem Plain.insert {t : RuleTable V} (h : t.Plain) (pair : RulePair V) :
    (t.insert pair).Plain := by
  obtain ⟨path, hpath⟩ := h.paths
  obtain ⟨path', hpath', hmax, -⟩ := hpath.insert pair
  exact ⟨⟨path', hpath'⟩, hmax.trans h.maxSpan, (kind_insert t pair).trans h.kind⟩

theorem Plain.covers {t : RuleTable V} (h : t.Plain) (distance : Nat) :
    t.covers distance = true := by
  rw [RuleTable.covers, h.maxSpan]
  rfl

theorem pairs_eq_flatMap (t : RuleTable V) {n : Nat} (hn : t.states.size ≤ n) :
    t.pairs = (List.range n).flatMap t.rulesAt := by
  obtain ⟨k, rfl⟩ := Nat.exists_eq_add_of_le hn
  induction k with
  | zero =>
    have hstates : t.states.toList = (List.range t.states.size).map t.state := by
      refine List.ext_getElem (by simp) fun i hi hi' => ?_
      simp [state, Array.getD, show i < t.states.size by simpa using hi]
    rw [pairs, hstates, List.flatMap_map]
    rfl
  | succ k ih =>
    rw [ih (Nat.le_add_right _ k), ← Nat.add_assoc, List.range_succ, List.flatMap_append,
      List.flatMap_singleton, rulesAt_of_le (Nat.le_add_right _ k), List.append_nil]

theorem perm_pairs_insert {t : RuleTable V} (h : t.Plain) (pair : RulePair V) :
    (t.insert pair).pairs.Perm (pair :: t.pairs) := by
  obtain ⟨path, hpath⟩ := h.paths
  obtain ⟨-, -, hs, -, hrules, -⟩ := hpath.descendAll (RuleTable.path pair)
  rw [insert_eq]
  generalize t.descendAll (RuleTable.path pair) = d at *
  obtain ⟨t', s⟩ := d
  simp only at *
  have hrules' (i : Nat) : (t'.addRule s pair).rulesAt i =
      if i = s then t.rulesAt i ++ [pair] else t.rulesAt i := by
    rw [rulesAt_addRule hs, hrules]
  have hsize : (t'.addRule s pair).states.size ≤ max t.states.size t'.states.size := by
    rw [size_addRule]
    exact Nat.le_max_right _ _
  rw [pairs_eq_flatMap _ hsize, pairs_eq_flatMap t (Nat.le_max_left _ t'.states.size)]
  have hrange : s ∈ List.range (max t.states.size t'.states.size) :=
    List.mem_range.mpr (Nat.lt_of_lt_of_le hs (Nat.le_max_right _ _))
  have hnodup : (List.range (max t.states.size t'.states.size)).Nodup := List.nodup_range
  obtain ⟨front, back, hsplit⟩ := List.append_of_mem hrange
  rw [hsplit] at hnodup ⊢
  obtain ⟨-, hback, hfront⟩ := List.nodup_append.mp hnodup
  have hother (l : List Nat) (hl : s ∉ l) :
      l.flatMap (t'.addRule s pair).rulesAt = l.flatMap t.rulesAt :=
    List.flatMap_congr fun i hi => (hrules' i).trans (if_neg fun heq : i = s => hl (heq ▸ hi))
  rw [List.flatMap_append, List.flatMap_append, List.flatMap_cons, List.flatMap_cons,
    hother front fun hmem => hfront s hmem s List.mem_cons_self rfl,
    hother back (List.nodup_cons.mp hback).1, hrules' s, if_pos rfl, List.append_assoc,
    ← List.append_assoc (front.flatMap _), ← List.append_assoc (front.flatMap _)]
  exact List.perm_middle

theorem Plain.mem_unaryRules_iff {t : RuleTable V} (h : t.Plain) {label : Symbol}
    {pair : RulePair V} : pair ∈ t.unaryRules label ↔ pair ∈ t.pairs ∧ path pair = [label] := by
  obtain ⟨path', hpath⟩ := h.paths
  have hstep := hpath.step_eq root label
  unfold unaryRules
  simp only
  constructor
  · intro hpair
    split at hpair
    · cases hpair
    · rename_i hroot
      rw [if_neg hroot] at hstep
      have hchild := (hpath.child root hpath.size label _ hstep.symm).2
      rw [hpath.atRoot, List.nil_append] at hchild
      exact ⟨mem_pairs_of_mem_rulesAt hpair, (hpath.rules _ pair hpair).trans hchild⟩
  · rintro ⟨hpair, hlabel⟩
    obtain ⟨s, hs⟩ := exists_mem_rulesAt hpair
    have hlt : (show Nat from s) < t.states.size := lt_of_mem_rulesAt hs
    rw [hpath.rules s pair hs] at hlabel
    have hlast : path' s = [] ++ [label] := hlabel
    obtain ⟨p, hp, hnil, hchild⟩ := hpath.exists_child hlt hlast
    rw [hpath.inj p root hp hpath.size (hnil.trans hpath.atRoot.symm), ← hstep] at hchild
    split
    · rename_i hroot
      rw [if_pos hroot] at hchild
      cases hchild
    · rename_i hroot
      rw [if_neg hroot] at hchild
      rw [Option.some.inj hchild]
      exact hs

end RuleTable

/-! ## Trails through two tables -/

namespace Trail

variable {t t' : RuleTable V} {o : Options V} {lattice : Lattice V} {label : E → Symbol}

theorem state?_eq_of_path {path path' : StateId → List Symbol} (ht : t.Paths path)
    (ht' : t'.Paths path') (hkind : t'.kind = t.kind) {x : Trail E} {s s' : Nat}
    (h : x.state? label t o lattice = some s) (hs' : s' < t'.states.size)
    (hpath : path' s' = path s) : x.state? label t' o lattice = some s' := by
  have hword (l : Symbol) : t'.wordFor o l = t.wordFor o l := by
    rw [RuleTable.wordFor, RuleTable.wordFor, hkind]
  -- the state before the last step of the second table, from that of the first
  have hback {y : Trail E} {s s' : Nat} {l : Symbol}
      (ih : ∀ {s s' : Nat}, y.state? label t o lattice = some s → s' < t'.states.size →
        path' s' = path s → y.state? label t' o lattice = some s')
      (h : ((y.state? label t o lattice).bind fun s =>
        if t.next s l = RuleTable.root then none else some (t.next s l)) = some s)
      (hs' : s' < t'.states.size) (hpath : path' s' = path s) :
      ((y.state? label t' o lattice).bind fun s =>
        if t'.next s l = RuleTable.root then none else some (t'.next s l)) = some s' := by
    obtain ⟨p, hp, hchild⟩ := Option.bind_eq_some_iff.mp h
    rw [ht.step_eq] at hchild
    have hlt : (show Nat from p) < t.states.size := by
      by_contra hle
      rw [RuleTable.child?_of_le (Nat.not_lt.mp hle)] at hchild
      cases hchild
    rw [(ht.child p hlt l s hchild).2] at hpath
    obtain ⟨p', hp', hpath', hchild'⟩ := ht'.exists_child hs' hpath
    rw [ih hp hp' hpath', Option.bind_some, ht'.step_eq]
    exact hchild'
  induction x generalizing s s' with
  | start =>
    cases h
    rw [ht.atRoot, ← ht'.atRoot] at hpath
    rw [ht'.inj s' RuleTable.root hs' ht'.size hpath]
    rfl
  | entry x p e ih => exact hback ih h hs' hpath
  | arc x p k ih =>
    rw [state?] at h ⊢
    cases ha : (lattice.arcsAt p)[k]? with
    | none =>
      rw [ha] at h
      obtain ⟨_, _, hnone⟩ := Option.bind_eq_some_iff.mp h
      cases hnone
    | some a =>
      simp only [ha, Option.bind_some, hword] at h ⊢
      split at h
      · rename_i hepsilon
        rw [Option.bind_fun_some] at h
        rw [ih h hs' hpath, Option.bind_some, if_pos hepsilon]
      · rename_i hepsilon
        simp only [hepsilon]
        exact hback ih h hs' hpath

theorem Over.of_covers (hcovers : ∀ distance, t'.covers distance = true)
    {entries : (first last : Nat) → Set E} {first last : Nat} {x : Trail E}
    (h : x.Over t o lattice entries first last) : x.Over t' o lattice entries first last := by
  induction x generalizing last with
  | start => exact ⟨h.1, h.2.1, hcovers 0⟩
  | entry x p e ih =>
    obtain ⟨hx, hlt, hle, he, -⟩ := h
    exact ⟨ih hx, hlt, hle, he, hcovers _⟩
  | arc x p k ih =>
    obtain ⟨hx, -, htree, harc⟩ := h
    exact ⟨ih hx, hcovers _, htree, harc⟩

end Trail

/-! ## Grammars -/

namespace Grammar

def ofShares (shares : List (List (RulePair V))) : Grammar V :=
  shares.map fun pairs => pairs.foldl RuleTable.insert RuleTable.empty

/-- Two grammars of the same rule pairs, in whatever order and in whatever tables. -/
structure SamePairs (g g' : Grammar V) : Prop where
  left : ∀ t ∈ g, t.Plain
  right : ∀ t ∈ g', t.Plain
  perm : g.pairs.Perm g'.pairs

theorem plain_ofShares (shares : List (List (RulePair V))) : ∀ t ∈ ofShares shares, t.Plain := by
  have hfold (t : RuleTable V) (ht : t.Plain) (pairs : List (RulePair V)) :
      (pairs.foldl RuleTable.insert t).Plain := by
    induction pairs generalizing t with
    | nil => exact ht
    | cons pair pairs ih => exact ih _ (ht.insert pair)
  intro t ht
  obtain ⟨pairs, -, rfl⟩ := List.mem_map.mp ht
  exact hfold _ RuleTable.plain_empty pairs

theorem perm_pairs_ofShares (shares : List (List (RulePair V))) :
    (ofShares shares).pairs.Perm shares.flatten := by
  have hfold (t : RuleTable V) (ht : t.Plain) (pairs : List (RulePair V)) :
      (pairs.foldl RuleTable.insert t).pairs.Perm (pairs ++ t.pairs) := by
    induction pairs generalizing t with
    | nil => exact List.Perm.refl _
    | cons pair pairs ih =>
      refine (ih _ (ht.insert pair)).trans ?_
      exact ((RuleTable.perm_pairs_insert ht pair).append_left pairs).trans List.perm_middle
  induction shares with
  | nil => exact List.Perm.refl _
  | cons pairs shares ih =>
    rw [List.flatten_cons]
    refine List.Perm.append ?_ ih
    exact (hfold _ RuleTable.plain_empty pairs).trans (by rw [show (RuleTable.empty :
      RuleTable V).pairs = [] from rfl, List.append_nil])

theorem samePairs_ofShares {shares shares' : List (List (RulePair V))}
    (h : shares.flatten.Perm shares'.flatten) : (ofShares shares).SamePairs (ofShares shares') :=
  ⟨plain_ofShares shares, plain_ofShares shares',
    ((perm_pairs_ofShares shares).trans h).trans (perm_pairs_ofShares shares').symm⟩

theorem enumerates_pairs (g : Grammar V) :
    Enumerates g.pair? (fun r => (g.pair? r).isSome = true) g.pairs := by
  have hzip : g.pairs = g.zipIdx.flatMap fun ti =>
      (List.range ti.1.states.size).flatMap ti.1.rulesAt := by
    conv_lhs => rw [pairs, ← List.zipIdx_map_fst 0 g, List.flatMap_map]
    exact List.flatMap_congr fun ti _ => ti.1.pairs_eq_flatMap (Nat.le_refl _)
  have hstate {t : RuleTable V} {i : Nat} (ht : g[i]? = some t) (s : StateId) :
      Enumerates g.pair? (fun r => r.table = i ∧ r.state = s ∧ (g.pair? r).isSome = true)
        (t.rulesAt s) := by
    have hpair (k : Nat) : g.pair? ⟨i, s, k⟩ = (t.rulesAt s)[k]? := by
      rw [pair?, ht]
      rfl
    refine ⟨(List.range (t.rulesAt s).length).map (RuleName.mk i s), ?_, fun r => ?_, ?_⟩
    · exact List.nodup_range.map fun k k' hk => (RuleName.mk.inj hk).2.2
    · rw [List.mem_map]
      constructor
      · rintro ⟨k, hk, rfl⟩
        refine ⟨rfl, rfl, ?_⟩
        rw [hpair, List.getElem?_eq_getElem (List.mem_range.mp hk), Option.isSome_some]
      · rintro ⟨rfl, rfl, hsome⟩
        obtain ⟨pair, hpair'⟩ := Option.isSome_iff_exists.mp hsome
        have hlt := (List.getElem?_eq_some_iff.mp ((hpair r.slot).symm.trans hpair')).1
        exact ⟨r.slot, List.mem_range.mpr hlt, rfl⟩
    · rw [List.filterMap_map]
      refine Eq.trans (List.filterMap_congr fun k _ => ?_)
        (Enumerates.filterMap_getElem?_range (t.rulesAt s))
      exact hpair k
  have htable (ti : RuleTable V × Nat) (hti : ti ∈ g.zipIdx) :
      Enumerates g.pair? (fun r => g[ti.2]? = some ti.1 ∧ ∃ s ∈ List.range ti.1.states.size,
        r.table = ti.2 ∧ r.state = s ∧ (g.pair? r).isSome = true)
        ((List.range ti.1.states.size).flatMap ti.1.rulesAt) := by
    have ht := List.mem_zipIdx_iff_getElem?.mp hti
    exact (Enumerates.flatMap List.nodup_range (fun s _ => hstate ht s)
      fun s s' r hs hs' => hs.2.1.symm.trans hs'.2.1).congr fun r => (and_iff_right ht).symm
  have hnd : g.zipIdx.Nodup := List.Nodup.of_map Prod.snd (List.nodup_zipIdx_map_snd _)
  rw [hzip]
  refine (Enumerates.flatMap hnd htable ?_).congr fun r => ⟨?_, fun hr => ?_⟩
  · rintro ⟨t, i⟩ ⟨t', i'⟩ r ⟨ht, s, -, hi, -⟩ ⟨ht', s', -, hi', -⟩
    obtain rfl : i = i' := hi.symm.trans hi'
    exact Prod.ext (Option.some.inj (ht.symm.trans ht')) rfl
  · rintro ⟨ti, -, -, s, -, -, -, hsome⟩
    exact hsome
  · obtain ⟨pair, hpair⟩ := Option.isSome_iff_exists.mp hr
    obtain ⟨t, ht, hslot⟩ := Option.bind_eq_some_iff.mp hpair
    have hlt := RuleTable.lt_of_mem_rulesAt (List.mem_of_getElem? hslot)
    exact ⟨(t, r.table), List.mem_zipIdx_iff_getElem?.mpr ht, ht, r.state, List.mem_range.mpr hlt,
      rfl, rfl, hr⟩

namespace SamePairs

variable {g g' : Grammar V} (h : g.SamePairs g')
include h

theorem symm : g'.SamePairs g := ⟨h.right, h.left, h.perm.symm⟩

theorem ruleCount_eq : g.ruleCount = g'.ruleCount := h.perm.length_eq

theorem mem_unaryRules_iff {label : Symbol} {pair : RulePair V} :
    pair ∈ g.unaryRules label ↔ pair ∈ g'.unaryRules label := by
  have hiff {g : Grammar V} (hg : ∀ t ∈ g, t.Plain) : pair ∈ g.unaryRules label ↔
      pair ∈ g.pairs ∧ RuleTable.path pair = [label] := by
    simp only [unaryRules, pairs, List.mem_flatMap]
    constructor
    · rintro ⟨t, ht, hpair⟩
      obtain ⟨hmem, hpath⟩ := (hg t ht).mem_unaryRules_iff.mp hpair
      exact ⟨⟨t, ht, hmem⟩, hpath⟩
    · rintro ⟨⟨t, ht, hmem⟩, hpath⟩
      exact ⟨t, ht, (hg t ht).mem_unaryRules_iff.mpr ⟨hmem, hpath⟩⟩
  rw [hiff h.left, hiff h.right, h.perm.mem_iff]

theorem exists_biUnique : ∃ R : RuleName → RuleName → Prop, Relator.BiUnique R ∧
    (∀ r r', R r r' → g.pair? r = g'.pair? r') ∧
    (∀ r, (g.pair? r).isSome = true → ∃ r', R r r') ∧
    ∀ r', (g'.pair? r').isSome = true → ∃ r, R r r' :=
  g.enumerates_pairs.exists_biUnique g'.enumerates_pairs h.perm

theorem fits {label : E → Symbol} {o : Options V} {lattice : Lattice V}
    {entries : (first last : Nat) → Set E} {first last : Nat} {r r' : RuleName} {pair : RulePair V}
    (hr : g.pair? r = some pair) (hr' : g'.pair? r' = some pair) {x : Trail E}
    (hx : Application.Fits label g o lattice entries first last ⟨r, x⟩) :
    Application.Fits label g' o lattice entries first last ⟨r', x⟩ := by
  obtain ⟨t, ht, hover, hstate⟩ := hx
  rw [pair?, ht, Option.bind_some] at hr
  rw [pair?, Option.bind_eq_some_iff] at hr'
  obtain ⟨t', ht', hr'⟩ := hr'
  have hplain := h.left t (List.mem_of_getElem? ht)
  have hplain' := h.right t' (List.mem_of_getElem? ht')
  obtain ⟨path, hpath⟩ := hplain.paths
  obtain ⟨path', hpath'⟩ := hplain'.paths
  have hpair' := List.mem_of_getElem? hr'
  refine ⟨t', ht', hover.of_covers hplain'.covers, Trail.state?_eq_of_path hpath hpath'
    (hplain'.kind.trans hplain.kind.symm) hstate (RuleTable.lt_of_mem_rulesAt hpair') ?_⟩
  rw [← hpath.rules _ pair (List.mem_of_getElem? hr), ← hpath'.rules _ pair hpair']

end SamePairs

end Grammar

end ParseForest
