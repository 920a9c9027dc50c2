import Mathlib.Data.Set.Finite.Lemmas
import ParseForest.Proofs.Posterior.ClosureLoop
import ParseForest.Proofs.Posterior.Dominance
import ParseForest.Proofs.RuleTable.Read

/-!
# The best scores of outward paths

The distance of a label is the number of rules of the shortest path to it. Rounds bring the labels
in the order of their distances, so each of the first rounds brings a label, up to the farthest
one, and none after them does. After `k` rounds a closure has of each label the best score of the
paths of at most `k` rules that do not come back. So the options say how many rules more than the
farthest label needs a path may have to count, and the order in which a round goes through the
labels makes no difference.
-/

namespace ParseForest

variable {V S : Type} [Score S]

/-- A path of unary rules that does not come back to where it starts. -/
inductive OutwardPath (g : Grammar V) (w : Weighting V S) (o : Options V) (child : Symbol) :
    Nat → Symbol → S → Prop
  | start : OutwardPath g w o child 0 child Score.one
  | step {n : Nat} {label : Symbol} {score : S} {pair : RulePair V}
    (before : OutwardPath g w o child n label score) (rule : pair ∈ g.unaryRules label)
    (away : (pair.side o.yieldSource).lhs ≠ child) :
    OutwardPath g w o child (n + 1) (pair.side o.yieldSource).lhs
      (Score.mul (w pair.features) score)

def IsUnaryDistance (g : Grammar V) (w : Weighting V S) (o : Options V) (child label : Symbol)
    (n : Nat) : Prop :=
  IsLeast {n | ∃ x, UnaryPath g w o child n label x} n

def IsFarthest (g : Grammar V) (w : Weighting V S) (o : Options V) (child : Symbol) (d : Nat) :
    Prop :=
  IsGreatest {n | ∃ label, IsUnaryDistance g w o child label n} d

def scoresWithin (g : Grammar V) (w : Weighting V S) (o : Options V) (child : Symbol) (k : Nat)
    (label : Symbol) : Set S :=
  {x | ∃ n ≤ k, OutwardPath g w o child n label x}

def outwardScores (g : Grammar V) (w : Weighting V S) (o : Options V) (child label : Symbol) :
    Set S :=
  {x | ∃ n, OutwardPath g w o child n label x}

section Paths

variable {g : Grammar V} {w : Weighting V S} {o : Options V} {child label : Symbol} {d k n : Nat}
  {x : S}

theorem OutwardPath.unaryPath (h : OutwardPath g w o child n label x) :
    UnaryPath g w o child n label x := by
  induction h with
  | start => exact .start
  | step _ rule _ ih => exact ih.step rule

theorem OutwardPath.eq_one (h : OutwardPath g w o child n label x) (hlabel : label = child) :
    x = Score.one := by
  cases h with
  | start => rfl
  | step _ _ away => exact absurd hlabel away

theorem UnaryPath.exists_outwardPath (h : UnaryPath g w o child n label x) :
    ∃ m ≤ n, ∃ y, OutwardPath g w o child m label y := by
  induction h with
  | start => exact ⟨0, le_rfl, _, .start⟩
  | @step n label score pair before rule ih =>
    by_cases hlabel : (pair.side o.yieldSource).lhs = child
    · rw [hlabel]
      exact ⟨0, Nat.zero_le _, _, .start⟩
    · obtain ⟨m, hm, y, hy⟩ := ih
      exact ⟨m + 1, Nat.succ_le_succ hm, _, hy.step rule hlabel⟩

theorem scoresWithin_mono {j : Nat} (h : j ≤ k) :
    scoresWithin g w o child j label ⊆ scoresWithin g w o child k label :=
  fun _ ⟨n, hn, hpath⟩ => ⟨n, hn.trans h, hpath⟩

theorem scoresWithin_subset :
    scoresWithin g w o child k label ⊆ outwardScores g w o child label :=
  fun _ ⟨n, _, hpath⟩ => ⟨n, hpath⟩

theorem UnaryPath.exists_distance (h : UnaryPath g w o child n label x) :
    ∃ m ≤ n, IsUnaryDistance g w o child label m := by
  classical
  have hex : ∃ n, n ∈ {n | ∃ x, UnaryPath g w o child n label x} := ⟨n, x, h⟩
  exact ⟨Nat.find hex, Nat.find_min' hex ⟨x, h⟩, Nat.find_spec hex,
    fun _ hm => Nat.find_min' hex hm⟩

theorem IsUnaryDistance.exists_of_le {m : Nat} (h : IsUnaryDistance g w o child label n)
    (hm : m ≤ n) : ∃ l, IsUnaryDistance g w o child l m := by
  induction n generalizing label with
  | zero => exact ⟨label, Nat.le_zero.mp hm ▸ h⟩
  | succ n ih =>
    rcases Nat.le_succ_iff.mp hm with hm | rfl
    · obtain ⟨⟨x, hpath⟩, hleast⟩ := h
      cases hpath with
      | step before rule =>
        -- a shorter path to the label before the last one would shorten the whole path
        refine ih ⟨⟨_, before⟩, fun k ⟨y, hshort⟩ => ?_⟩ hm
        exact Nat.le_of_succ_le_succ (hleast ⟨_, hshort.step rule⟩)
    · exact ⟨label, h⟩

variable (g w o child) in
theorem exists_farthest : ∃ d, IsFarthest g w o child d := by
  have hdistance : ∀ label ∈ unaryReach g w o child, ∃ n, IsUnaryDistance g w o child label n := by
    rintro label ⟨n, x, hpath⟩
    obtain ⟨m, -, hdist⟩ := hpath.exists_distance
    exact ⟨m, hdist⟩
  choose! distance hdist using hdistance
  have hself : child ∈ unaryReach g w o child := ⟨0, _, .start⟩
  obtain ⟨farthest, hreach, hmax⟩ :=
    Set.exists_max_image _ distance Closure.finite_unaryReach ⟨child, hself⟩
  refine ⟨distance farthest, ⟨farthest, hdist farthest hreach⟩, ?_⟩
  rintro n ⟨label, hn⟩
  obtain ⟨x, hpath⟩ := hn.1
  have hlabel : label ∈ unaryReach g w o child := ⟨n, x, hpath⟩
  exact hn.unique (hdist label hlabel) ▸ hmax label hlabel

theorem IsUnaryDistance.nonempty_iff (h : IsUnaryDistance g w o child label n) :
    (scoresWithin g w o child k label).Nonempty ↔ n ≤ k := by
  constructor
  · rintro ⟨x, m, hm, hpath⟩
    exact (h.2 ⟨x, hpath.unaryPath⟩).trans hm
  · intro hk
    obtain ⟨x, hpath⟩ := h.1
    obtain ⟨m, hm, y, hy⟩ := hpath.exists_outwardPath
    exact ⟨y, m, hm.trans hk, hy⟩

theorem IsFarthest.nonempty_iff (hd : IsFarthest g w o child d) (hk : d ≤ k) :
    (scoresWithin g w o child k label).Nonempty ↔ label ∈ unaryReach g w o child := by
  constructor
  · rintro ⟨x, n, -, hpath⟩
    exact ⟨n, x, hpath.unaryPath⟩
  · rintro ⟨n, x, hpath⟩
    obtain ⟨m, -, hdist⟩ := hpath.exists_distance
    exact hdist.nonempty_iff.mpr ((hd.2 ⟨label, hdist⟩).trans hk)

end Paths

namespace LabelMap

variable [LinearOrder S]

structure Best (m : LabelMap S) (scores : Symbol → Set S) : Prop where
  attained : ∀ label x, get? m label = some x → x ∈ scores label
  dominates : ∀ label, ∀ x ∈ scores label, m.Dominates label x

namespace Best

variable {m : LabelMap S} {scores : Symbol → Set S} {label : Symbol}

omit [Score S] in
theorem get?_eq_some_iff (h : m.Best scores) {x : S} :
    get? m label = some x ↔ IsGreatest (scores label) x := by
  constructor
  · intro hx
    refine ⟨h.attained label x hx, fun y hy => ?_⟩
    obtain ⟨z, hz, hle⟩ := h.dominates label y hy
    rw [hx] at hz
    exact Option.some.inj hz ▸ hle
  · rintro ⟨hx, hmax⟩
    obtain ⟨y, hy, hle⟩ := h.dominates label x hx
    rw [hy, le_antisymm (hmax (h.attained label y hy)) hle]

omit [Score S] in
theorem isSome_iff (h : m.Best scores) :
    (get? m label).isSome = true ↔ (scores label).Nonempty := by
  rw [Option.isSome_iff_exists]
  constructor
  · rintro ⟨x, hx⟩
    exact ⟨x, h.attained label x hx⟩
  · rintro ⟨x, hx⟩
    obtain ⟨y, hy, -⟩ := h.dominates label x hx
    exact ⟨y, hy⟩

omit [Score S] in
theorem get?_eq {m' : LabelMap S} (h : m.Best scores) (h' : m'.Best scores) (label : Symbol) :
    get? m label = get? m' label :=
  Option.ext fun _ => h.get?_eq_some_iff.trans h'.get?_eq_some_iff.symm

end Best

end LabelMap

namespace Closure

variable {order : ClosureOrder} {g : Grammar V} {w : Weighting V S} {o : Options V}
  {child : Symbol} {d k : Nat}

theorem get?_foldl {ts : List (S × RulePair V)} {st : LabelMap S × Bool} {label : Symbol} {x : S}
    (h : LabelMap.get? (ts.foldl (fun st t => applyPair w o child t.1 st t.2) st).1 label =
      some x) :
    LabelMap.get? st.1 label = some x ∨ ∃ t ∈ ts, (t.2.side o.yieldSource).lhs = label ∧
      label ≠ child ∧ Score.mul (w t.2.features) t.1 = x := by
  induction ts generalizing st with
  | nil => exact .inl h
  | cons t ts ih =>
    rcases ih h with hst | ⟨t', ht', hoffer⟩
    · unfold applyPair at hst
      simp only at hst
      split at hst
      · exact .inl hst
      · rename_i hlabel
        rcases improve_eq st.1 (t.2.side o.yieldSource).lhs (Score.mul (w t.2.features) t.1) with
          heq | heq
        · rw [heq] at hst
          exact .inl hst
        · rw [heq, LabelMap.insert, LabelMap.get?_upsert] at hst
          split at hst
          · rename_i hl
            exact .inr ⟨t, List.mem_cons_self, hl.symm, hl ▸ hlabel, Option.some.inj hst⟩
          · exact .inl hst
    · exact .inr ⟨t', List.mem_cons_of_mem _ ht', hoffer⟩

theorem Applied.length_lt_iff {before : LabelMap S} {ts : List (S × RulePair V)}
    {st : LabelMap S × Bool} (h : Applied g w o child before ts st) :
    before.length < st.1.length ↔
      ∃ label ∈ LabelMap.keys st.1, label ∉ LabelMap.keys before := by
  obtain ⟨new, hnew⟩ := h.keys
  have hnd := h.sound.nodup
  have hlength : st.1.length = before.length + new.length := by
    have hlen := congrArg List.length hnew
    rw [List.length_append] at hlen
    simpa only [LabelMap.keys, List.length_map] using hlen.symm
  rw [← hnew] at hnd ⊢
  rw [hlength]
  constructor
  · intro hlt
    obtain ⟨label, hlabel⟩ := List.exists_mem_of_length_pos (l := new) (by omega)
    exact ⟨label, List.mem_append_right _ hlabel,
      fun hold => (List.nodup_append.mp hnd).2.2 label hold label hlabel rfl⟩
  · rintro ⟨label, hlabel, hnot⟩
    have hpos := List.length_pos_of_mem ((List.mem_append.mp hlabel).resolve_left hnot)
    omega

variable [LinearOrder S]

section Round

variable [MonotoneScore S] {labels : List Symbol} {closure : LabelMap S}

theorem best_roundIn (hlabels : labels.Perm (LabelMap.keys closure))
    (h : closure.Best (scoresWithin g w o child k)) :
    (roundIn labels g w o child closure).1.Best (scoresWithin g w o child (k + 1)) := by
  refine ⟨fun label x hx => ?_, ?_⟩
  · rw [roundIn_eq] at hx
    rcases get?_foldl hx with hold | ⟨t, ht, rfl, haway, rfl⟩
    · exact scoresWithin_mono (Nat.le_succ k) (h.attained label x hold)
    · obtain ⟨before, -, hbefore, hrule⟩ := mem_tasks_inOrder.mp ht
      obtain ⟨n, hn, hpath⟩ := h.attained before t.1 hbefore
      exact ⟨n + 1, Nat.succ_le_succ hn, hpath.step hrule haway⟩
  · rintro label x ⟨n, hn, hpath⟩
    cases hpath with
    | start => exact dominates_roundIn_of (h.dominates child _ ⟨0, Nat.zero_le k, .start⟩)
    | step before rule away =>
      have hbefore := h.dominates _ _ ⟨_, Nat.le_of_succ_le_succ hn, before⟩
      exact dominates_roundIn hlabels hbefore rule away

theorem best_of_unchanged (hlabels : labels.Perm (LabelMap.keys closure))
    (h : closure.Best (scoresWithin g w o child k))
    (hsame : (roundIn labels g w o child closure).1 = closure) :
    closure.Best (outwardScores g w o child) := by
  refine ⟨fun label x hx => scoresWithin_subset (h.attained label x hx), ?_⟩
  rintro label x ⟨n, hpath⟩
  induction hpath with
  | start => exact h.dominates child _ ⟨0, Nat.zero_le k, .start⟩
  | step _ rule away ih => exact hsame ▸ dominates_roundIn hlabels ih rule away

theorem length_lt_roundIn_iff (hd : IsFarthest g w o child d) (hsound : Sound g w o child closure)
    (hlabels : labels.Perm (LabelMap.keys closure))
    (h : closure.Best (scoresWithin g w o child k)) :
    closure.length < (roundIn labels g w o child closure).1.length ↔ k < d := by
  have hafter := best_roundIn hlabels h
  rw [(applied_roundIn hsound labels).length_lt_iff]
  simp only [LabelMap.mem_keys_iff, h.isSome_iff, hafter.isSome_iff]
  constructor
  · rintro ⟨label, ⟨x, n, -, hpath⟩, hnot⟩
    obtain ⟨m, -, hdist⟩ := hpath.unaryPath.exists_distance
    rw [hdist.nonempty_iff, not_le] at hnot
    exact hnot.trans_le (hd.2 ⟨label, hdist⟩)
  · intro hlt
    obtain ⟨farthest, hfarthest⟩ := hd.1
    obtain ⟨label, hdist⟩ := hfarthest.exists_of_le (Nat.succ_le_of_lt hlt)
    refine ⟨label, hdist.nonempty_iff.mpr le_rfl, ?_⟩
    rw [hdist.nonempty_iff]
    exact Nat.not_succ_le_self k

end Round

/-! ## The loop -/

structure Progress.Exact (g : Grammar V) (w : Weighting V S) (o : Options V) (child : Symbol)
    (d : Nat) (p : Progress S) : Prop where
  valid : p.Valid g w o child
  best : p.closure.Best (scoresWithin g w o child p.rounds)
  idle : p.idle = p.rounds - d

theorem Progress.exact_start : (Progress.start child).Exact g w o child d := by
  refine ⟨Progress.valid_start, ⟨fun label x hx => ?_, ?_⟩, (Nat.zero_sub d).symm⟩
  · cases List.mem_singleton.mp (LabelMap.mem_of_get? hx)
    exact ⟨0, le_rfl, .start⟩
  · rintro label x ⟨n, hn, hpath⟩
    cases hpath with
    | start => exact ⟨Score.one, List.lookup_cons_self, le_rfl⟩
    | step => exact absurd hn (Nat.not_succ_le_zero _)

variable [MonotoneScore S]

theorem Progress.Exact.next {p q : Progress S} (hd : IsFarthest g w o child d)
    (h : p.Exact g w o child d) (hturn : turn order g w o child p = .inl q) :
    q.Exact g w o child d := by
  obtain ⟨hrounds, hclosure, hidle⟩ := eq_of_turn_eq_inl hturn
  have hlabels := order.perm child p.rounds (LabelMap.keys p.closure)
  have hgrows := length_lt_roundIn_iff hd h.valid.1 hlabels h.best
  rw [← hclosure] at hgrows
  have hwas := h.idle
  refine ⟨(h.valid.next hturn).1, ?_, ?_⟩
  · rw [hclosure, hrounds]
    exact best_roundIn hlabels h.best
  · rcases hidle with ⟨hgrown, hsame⟩ | ⟨hnone, hmore, -⟩
    · have hlt := hgrows.mp hgrown
      omega
    · have hge : ¬p.rounds < d := fun hlt => Nat.not_lt.mpr hnone (hgrows.mpr hlt)
      omega

/-- The loop leaves with the best scores of the outward paths that have at most as many rules more
than the farthest label needs as the options allow, and of all of them when nothing changed any
more. -/
theorem best_of_leaves (hd : IsFarthest g w o child d) {turns : Nat} {p : Progress S}
    {r : LabelMap S × Bool} (hleaves : Leaves (turn order g w o child) turns p r)
    (h : p.Exact g w o child d) :
    r.1.Best (scoresWithin g w o child (d + max o.scoreStagnation 1)) ∧
      (r.2 = false → r.1.Best (outwardScores g w o child)) := by
  induction hleaves with
  | next hturn _ ih => exact ih (h.next hd hturn)
  | @last p r hturn =>
    obtain ⟨hr, hstop⟩ := eq_of_turn_eq_inr hturn
    have hlabels := order.perm child p.rounds (LabelMap.keys p.closure)
    have hgrows := length_lt_roundIn_iff hd h.valid.1 hlabels h.best
    have happ := applied_roundIn h.valid.1 (order.order child p.rounds (LabelMap.keys p.closure))
    rw [← hr] at hgrows happ
    have hidle := h.idle
    have hallowed := h.valid.2
    cases hchanged : r.2 with
    | false =>
      have hsame : r.1 = p.closure := happ.unchanged hchanged
      have hall : p.closure.Best (outwardScores g w o child) :=
        best_of_unchanged hlabels h.best (hr ▸ hsame)
      rw [hsame]
      refine ⟨⟨fun label x hx => ?_, fun label x hx => ?_⟩, fun _ => hall⟩
      · exact scoresWithin_mono (by omega) (h.best.attained label x hx)
      · exact hall.dominates label x (scoresWithin_subset hx)
    | true =>
      obtain ⟨hlength, hspent⟩ := hstop hchanged
      -- a round that brings no label is past the farthest one
      have hge : ¬p.rounds < d := fun hlt => Nat.not_lt.mpr hlength (hgrows.mpr hlt)
      have hrounds : d + max o.scoreStagnation 1 = p.rounds + 1 := by omega
      refine ⟨?_, nofun⟩
      rw [hrounds, hr]
      exact best_roundIn hlabels h.best

end Closure

open Closure

theorem best_unaryClosureIn [LinearOrder S] [MonotoneScore S] {order : ClosureOrder}
    {g : Grammar V} {w : Weighting V S} {o : Options V} {child : Symbol} {d : Nat}
    (hd : IsFarthest g w o child d) :
    (unaryClosureIn order g w o child).Best
      (scoresWithin g w o child (d + max o.scoreStagnation 1)) := by
  obtain ⟨_, _, hleaves, -⟩ := leaves_unaryClosureIn order g w o child
  exact (best_of_leaves hd hleaves Progress.exact_start).1

/-- What a closure is, whatever the order in which its rounds go through the labels: all labels that
unary rules lead to, the label itself with score one, and the others with the best score of a path
that does not come back and has at most as many rules more than the farthest label needs as the
options allow, or of any such path when the loop left because nothing changed any more. -/
theorem unaryClosureIn_best [LinearOrder S] [MonotoneScore S] (order : ClosureOrder)
    (g : Grammar V) (w : Weighting V S) (o : Options V) (child : Symbol) :
    let closure := unaryClosureIn order g w o child
    (∀ label, (LabelMap.get? closure label).isSome = true ↔
      ∃ n x, UnaryPath g w o child n label x) ∧
    LabelMap.get? closure child = some Score.one ∧
    (∃ d turns changed, IsFarthest g w o child d ∧
      Leaves (turn order g w o child) turns (.start child) (closure, changed) ∧
      ∀ label, label ≠ child → ∀ x,
        (LabelMap.get? closure label = some x ↔
          IsGreatest (scoresWithin g w o child (d + max o.scoreStagnation 1) label) x) ∧
        (changed = false → (LabelMap.get? closure label = some x ↔
          IsGreatest (outwardScores g w o child label) x))) ∧
    ∀ order' label,
      LabelMap.get? closure label = LabelMap.get? (unaryClosureIn order' g w o child) label := by
  obtain ⟨d, hd⟩ := exists_farthest g w o child
  have hbest : ∀ order', (unaryClosureIn order' g w o child).Best
      (scoresWithin g w o child (d + max o.scoreStagnation 1)) := fun _ => best_unaryClosureIn hd
  obtain ⟨turns, changed, hleaves, -⟩ := leaves_unaryClosureIn order g w o child
  have hall := (best_of_leaves hd hleaves Progress.exact_start).2
  refine ⟨fun label => ?_, ?_, ⟨d, turns, changed, hd, hleaves, fun label _ x => ?_⟩,
    fun order' => (hbest order).get?_eq (hbest order')⟩
  · exact (hbest order).isSome_iff.trans (hd.nonempty_iff (Nat.le_add_right d _))
  · -- no outward path but the empty one leads back to the label
    rw [(hbest order).get?_eq_some_iff]
    refine ⟨⟨0, Nat.zero_le _, .start⟩, ?_⟩
    rintro y ⟨n, -, hpath⟩
    exact (hpath.eq_one rfl).le
  · exact ⟨(hbest order).get?_eq_some_iff, fun hsame => (hall hsame).get?_eq_some_iff⟩

/-- A cycle on which each rule doubles the score: the farthest label is two rules away, so paths of
up to six rules count. -/
theorem unaryClosureIn_best_cycle :
    let g := [RuleTable.ofText "[A] ||| a\n[B] ||| [A,1]\n[C] ||| [B,1]\n[B] ||| [C,1]"]
    let w : Weighting Float ℚ≥0 := fun _ => 2
    let child : Symbol := ⟨"[A]"⟩
    let closure := unaryClosureIn .arrival g w Options.standard child
    LabelMap.get? closure ⟨"[B]"⟩ = some 32 ∧ LabelMap.get? closure ⟨"[C]"⟩ = some 64 ∧
      ∃ d, IsFarthest g w Options.standard child d ∧
        IsGreatest (scoresWithin g w Options.standard child (d + 4) ⟨"[B]"⟩) 32 ∧
        IsGreatest (scoresWithin g w Options.standard child (d + 4) ⟨"[C]"⟩) 64 := by
  intro g w child closure
  have hb : LabelMap.get? closure ⟨"[B]"⟩ = some 32 := by decide +kernel
  have hc : LabelMap.get? closure ⟨"[C]"⟩ = some 64 := by decide +kernel
  obtain ⟨-, -, ⟨d, _, _, hd, -, hlabels⟩, -⟩ :=
    unaryClosureIn_best .arrival g w Options.standard child
  refine ⟨hb, hc, d, hd, ?_, ?_⟩
  · exact (hlabels ⟨"[B]"⟩ (by decide) 32).1.mp hb
  · exact (hlabels ⟨"[C]"⟩ (by decide) 64).1.mp hc

end ParseForest
