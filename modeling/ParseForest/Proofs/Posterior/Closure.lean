import Mathlib.Data.List.Induction
import Mathlib.Data.List.Nodup
import ParseForest.Posterior.Closure
import ParseForest.Proofs.LeftSides

/-!
# Paths of unary rules

The closure of a label holds scores of paths of unary rules from that label. A round applies rules
to labels that the closure has, one after the other. Whichever it applies, and in whatever order,
the scores stay scores of paths, and no label is lost. A round that brings no label leaves the
labels closed under unary rules.
-/

namespace ParseForest

variable {V S : Type}

namespace LabelMap

variable {α : Type}

theorem keys_upsert (m : LabelMap α) (label : Symbol) (f : Option α → α) :
    keys (upsert label f m) = if label ∈ keys m then keys m else keys m ++ [label] := by
  induction m with
  | nil => rfl
  | cons kv rest ih =>
    obtain ⟨key, value⟩ := kv
    unfold keys at ih ⊢
    by_cases h : key = label
    · simp [upsert, h]
    · simp only [upsert, h, if_false, List.map_cons, ih, List.mem_cons, Ne.symm h, false_or]
      split <;> rfl

theorem mem_keys_iff {m : LabelMap α} {label : Symbol} :
    label ∈ keys m ↔ (get? m label).isSome = true := by
  induction m with
  | nil => simp [keys, get?]
  | cons kv rest ih =>
    obtain ⟨key, value⟩ := kv
    unfold keys get? at ih ⊢
    by_cases h : label = key
    · simp [h]
    · simp [List.lookup_cons, beq_eq_false_iff_ne.mpr h, h, ih]

theorem mem_of_get? {m : LabelMap α} {label : Symbol} {x : α} (h : get? m label = some x) :
    (label, x) ∈ m := by
  induction m with
  | nil => cases h
  | cons kv rest ih =>
    obtain ⟨key, value⟩ := kv
    unfold get? at h ih
    by_cases hl : label = key
    · subst hl
      rw [List.lookup_cons_self] at h
      cases h
      exact List.mem_cons_self
    · rw [List.lookup_cons, beq_eq_false_iff_ne.mpr hl] at h
      exact List.mem_cons_of_mem _ (ih h)

theorem get?_of_mem {m : LabelMap α} (hnd : (keys m).Nodup) {label : Symbol} {x : α}
    (h : (label, x) ∈ m) : get? m label = some x := by
  induction m with
  | nil => cases h
  | cons kv rest ih =>
    obtain ⟨key, value⟩ := kv
    obtain ⟨hkey, hrest⟩ := List.nodup_cons.mp hnd
    rcases List.mem_cons.mp h with heq | h
    · cases heq
      exact List.lookup_cons_self
    · have hl : label ≠ key := by
        intro heq
        exact hkey (heq ▸ List.mem_map.mpr ⟨_, h, rfl⟩)
      unfold get? at ih ⊢
      rw [List.lookup_cons, beq_eq_false_iff_ne.mpr hl]
      exact ih hrest h

theorem nodup_keys_upsert {m : LabelMap α} (h : (keys m).Nodup) (label : Symbol)
    (f : Option α → α) : (keys (upsert label f m)).Nodup := by
  rw [keys_upsert]
  split
  · exact h
  · rename_i hl
    exact List.nodup_append.mpr ⟨h, List.nodup_singleton _, fun a ha b hb => by
      rw [List.mem_singleton.mp hb]
      exact fun heq => hl (heq ▸ ha)⟩

theorem keys_prefix_upsert (m : LabelMap α) (label : Symbol) (f : Option α → α) :
    keys m <+: keys (upsert label f m) := by
  rw [keys_upsert]
  split
  · exact List.prefix_refl _
  · exact List.prefix_append _ _

theorem mem_inOrder {labels : List Symbol} {m : LabelMap α} {kv : Symbol × α} :
    kv ∈ inOrder labels m ↔ kv.1 ∈ labels ∧ m.get? kv.1 = some kv.2 := by
  obtain ⟨label, x⟩ := kv
  simp only [inOrder, List.mem_filterMap, Option.map_eq_some_iff, Prod.mk.injEq]
  constructor
  · rintro ⟨l, hl, y, hy, rfl, rfl⟩
    exact ⟨hl, hy⟩
  · rintro ⟨hl, hx⟩
    exact ⟨label, hl, x, hx, rfl, rfl⟩

end LabelMap

inductive UnaryPath [Score S] (g : Grammar V) (w : Weighting V S) (o : Options V)
    (child : Symbol) : Nat → Symbol → S → Prop
  | start : UnaryPath g w o child 0 child Score.one
  | step {n : Nat} {label : Symbol} {score : S} {pair : RulePair V}
    (before : UnaryPath g w o child n label score) (rule : pair ∈ g.unaryRules label) :
    UnaryPath g w o child (n + 1) (pair.side o.yieldSource).lhs
      (Score.mul (w pair.features) score)

namespace Closure

variable [Score S] {g : Grammar V} {w : Weighting V S} {o : Options V} {child : Symbol}

def tasks (g : Grammar V) (closure : LabelMap S) : List (S × RulePair V) :=
  closure.flatMap fun p => (g.unaryRules p.1).map fun pair => (p.2, pair)

theorem roundIn_eq (labels : List Symbol) (closure : LabelMap S) :
    roundIn labels g w o child closure = (tasks g (closure.inOrder labels)).foldl
      (fun st t => applyPair w o child t.1 st t.2) (closure, false) := by
  simp only [roundIn, tasks, List.foldl_flatMap, List.foldl_map]

omit [Score S] in
theorem mem_tasks_inOrder {labels : List Symbol} {closure : LabelMap S} {t : S × RulePair V} :
    t ∈ tasks g (closure.inOrder labels) ↔ ∃ label ∈ labels,
      LabelMap.get? closure label = some t.1 ∧ t.2 ∈ g.unaryRules label := by
  simp only [tasks, List.mem_flatMap, List.mem_map, LabelMap.mem_inOrder]
  constructor
  · rintro ⟨⟨label, score⟩, ⟨hlabel, hget⟩, pair, hpair, rfl⟩
    exact ⟨label, hlabel, hget, hpair⟩
  · rintro ⟨label, hlabel, hget, hpair⟩
    exact ⟨(label, t.1), ⟨hlabel, hget⟩, t.2, hpair, rfl⟩

structure Sound (g : Grammar V) (w : Weighting V S) (o : Options V) (child : Symbol)
    (closure : LabelMap S) : Prop where
  nodup : (LabelMap.keys closure).Nodup
  self : LabelMap.get? closure child = some Score.one
  path : ∀ label score, LabelMap.get? closure label = some score →
    ∃ n, UnaryPath g w o child n label score

theorem sound_start : Sound g w o child [(child, Score.one)] := by
  refine ⟨List.nodup_singleton _, List.lookup_cons_self, fun label score h => ?_⟩
  cases List.mem_singleton.mp (LabelMap.mem_of_get? h)
  exact ⟨0, UnaryPath.start⟩

theorem improve_eq (closure : LabelMap S) (label : Symbol) (score : S) :
    improve closure label score = (closure, false) ∨
      improve closure label score = (LabelMap.insert closure label score, true) := by
  unfold improve
  split
  · exact Or.inr rfl
  · split
    · exact Or.inr rfl
    · exact Or.inl rfl

theorem mem_keys_improve (closure : LabelMap S) (label : Symbol) (score : S) :
    label ∈ LabelMap.keys (improve closure label score).1 := by
  rw [LabelMap.mem_keys_iff]
  unfold improve
  split
  · simp [LabelMap.insert, LabelMap.get?_upsert]
  · rename_i old hold
    split
    · simp [LabelMap.insert, LabelMap.get?_upsert]
    · simp [hold]

theorem keys_prefix_improve (closure : LabelMap S) (label : Symbol) (score : S) :
    LabelMap.keys closure <+: LabelMap.keys (improve closure label score).1 := by
  rcases improve_eq closure label score with h | h
  · exact h ▸ List.prefix_refl _
  · rw [h]
    exact LabelMap.keys_prefix_upsert _ _ _

theorem of_mem_keys_improve {closure : LabelMap S} {label l : Symbol} {score : S}
    (h : l ∈ LabelMap.keys (improve closure label score).1) :
    l ∈ LabelMap.keys closure ∨ l = label := by
  rcases improve_eq closure label score with heq | heq
  · rw [heq] at h
    exact Or.inl h
  · rw [heq, LabelMap.insert, LabelMap.keys_upsert] at h
    split at h
    · exact Or.inl h
    · exact (List.mem_append.mp h).imp_right List.mem_singleton.mp

theorem Sound.improve {closure : LabelMap S} (h : Sound g w o child closure) {label : Symbol}
    (hne : label ≠ child) {n : Nat} {score : S} (hpath : UnaryPath g w o child n label score) :
    Sound g w o child (improve closure label score).1 := by
  rcases improve_eq closure label score with heq | heq
  · rw [heq]
    exact h
  · rw [heq]
    refine ⟨LabelMap.nodup_keys_upsert h.nodup _ _, ?_, fun l x hl => ?_⟩
    · rw [LabelMap.insert, LabelMap.get?_upsert, if_neg hne.symm]
      exact h.self
    · rw [LabelMap.insert, LabelMap.get?_upsert] at hl
      split at hl
      · rename_i hlabel
        cases hl
        rw [hlabel]
        exact ⟨n, hpath⟩
      · exact h.path l x hl

structure Applied (g : Grammar V) (w : Weighting V S) (o : Options V) (child : Symbol)
    (before : LabelMap S) (ts : List (S × RulePair V)) (st : LabelMap S × Bool) : Prop where
  sound : Sound g w o child st.1
  keys : LabelMap.keys before <+: LabelMap.keys st.1
  covers : ∀ t ∈ ts, (t.2.side o.yieldSource).lhs ∈ LabelMap.keys st.1
  labels : ∀ l ∈ LabelMap.keys st.1, l ∈ LabelMap.keys before ∨
    ∃ t ∈ ts, (t.2.side o.yieldSource).lhs = l
  unchanged : st.2 = false → st.1 = before

theorem applied_foldl {before : LabelMap S} (h : Sound g w o child before)
    {ts : List (S × RulePair V)} (hts : ∀ t ∈ ts, ∃ n label, UnaryPath g w o child n label t.1 ∧
      t.2 ∈ g.unaryRules label) :
    Applied g w o child before ts
      (ts.foldl (fun st t => applyPair w o child t.1 st t.2) (before, false)) := by
  induction ts using List.reverseRecOn with
  | nil =>
    exact ⟨h, List.prefix_refl _, (fun t ht => by cases ht), fun l hl => Or.inl hl, fun _ => rfl⟩
  | append_singleton ts t ih =>
    have ih := ih fun t ht => hts t (List.mem_append_left _ ht)
    rw [List.foldl_append, List.foldl_cons, List.foldl_nil]
    generalize ts.foldl (fun st t => applyPair w o child t.1 st t.2) (before, false) = st at ih
    have hlast : t ∈ ts ++ [t] := List.mem_append_right _ List.mem_cons_self
    have hold : ∀ l ∈ LabelMap.keys st.1, l ∈ LabelMap.keys before ∨
        ∃ t' ∈ ts ++ [t], (t'.2.side o.yieldSource).lhs = l := fun l hl =>
      (ih.labels l hl).imp_right fun ⟨t', ht', heq⟩ => ⟨t', List.mem_append_left _ ht', heq⟩
    by_cases hlabel : (t.2.side o.yieldSource).lhs = child
    · have hst : applyPair w o child t.1 st t.2 = st := if_pos hlabel
      rw [hst]
      refine ⟨ih.sound, ih.keys, fun t' ht' => ?_, hold, ih.unchanged⟩
      rcases List.mem_append.mp ht' with ht' | ht'
      · exact ih.covers t' ht'
      · rw [List.mem_singleton.mp ht', hlabel, LabelMap.mem_keys_iff, ih.sound.self]
        rfl
    · have hst : applyPair w o child t.1 st t.2 =
          ((improve st.1 (t.2.side o.yieldSource).lhs (Score.mul (w t.2.features) t.1)).1,
            st.2 || (improve st.1 (t.2.side o.yieldSource).lhs
              (Score.mul (w t.2.features) t.1)).2) := if_neg hlabel
      obtain ⟨n, label, hpath, hrule⟩ := hts t hlast
      have hkeys := keys_prefix_improve st.1 (t.2.side o.yieldSource).lhs
        (Score.mul (w t.2.features) t.1)
      rw [hst]
      refine ⟨ih.sound.improve hlabel (hpath.step hrule), ih.keys.trans hkeys, fun t' ht' => ?_,
        fun l hl => ?_, fun hsame => ?_⟩
      · rcases List.mem_append.mp ht' with ht' | ht'
        · exact hkeys.subset (ih.covers t' ht')
        · rw [List.mem_singleton.mp ht']
          exact mem_keys_improve _ _ _
      · rcases of_mem_keys_improve hl with hl | rfl
        · exact hold l hl
        · exact Or.inr ⟨t, hlast, rfl⟩
      · rw [Bool.or_eq_false_iff] at hsame
        rw [← ih.unchanged hsame.1]
        rcases improve_eq st.1 (t.2.side o.yieldSource).lhs (Score.mul (w t.2.features) t.1) with
          heq | heq
        · rw [heq]
        · rw [heq] at hsame
          cases hsame.2

theorem applied_roundIn {closure : LabelMap S} (h : Sound g w o child closure)
    (labels : List Symbol) :
    Applied g w o child closure (tasks g (closure.inOrder labels))
      (roundIn labels g w o child closure) := by
  rw [roundIn_eq]
  refine applied_foldl h fun t ht => ?_
  obtain ⟨label, -, hget, hrule⟩ := mem_tasks_inOrder.mp ht
  obtain ⟨n, hpath⟩ := h.path label t.1 hget
  exact ⟨n, label, hpath, hrule⟩

theorem Applied.length_le {before : LabelMap S} {ts : List (S × RulePair V)}
    {st : LabelMap S × Bool} (h : Applied g w o child before ts st) :
    before.length ≤ st.1.length := by
  have hle := h.keys.length_le
  rwa [LabelMap.keys, LabelMap.keys, List.length_map, List.length_map] at hle

def Complete (g : Grammar V) (o : Options V) (closure : LabelMap S) : Prop :=
  ∀ label ∈ LabelMap.keys closure, ∀ pair ∈ g.unaryRules label,
    (pair.side o.yieldSource).lhs ∈ LabelMap.keys closure

theorem Applied.complete {closure : LabelMap S} {labels : List Symbol} {st : LabelMap S × Bool}
    (h : Applied g w o child closure (tasks g (closure.inOrder labels)) st)
    (hlabels : labels.Perm (LabelMap.keys closure)) (hlen : st.1.length ≤ closure.length) :
    Complete g o st.1 := by
  have hkeys : LabelMap.keys closure = LabelMap.keys st.1 := by
    refine h.keys.eq_of_length_le ?_
    rw [LabelMap.keys, LabelMap.keys, List.length_map, List.length_map]
    exact hlen
  intro label hlabel pair hpair
  rw [← hkeys] at hlabel
  obtain ⟨score, hget⟩ := Option.isSome_iff_exists.mp (LabelMap.mem_keys_iff.mp hlabel)
  exact h.covers (score, pair)
    (mem_tasks_inOrder.mpr ⟨label, hlabels.mem_iff.mpr hlabel, hget, hpair⟩)

end Closure

end ParseForest
