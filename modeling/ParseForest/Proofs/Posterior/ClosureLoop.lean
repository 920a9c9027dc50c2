import Mathlib.Data.Set.Card
import ParseForest.Proofs.Loop
import ParseForest.Proofs.Posterior.Closure

/-!
# The loop of a closure

A closure is made by a loop without a bound: a turn is a round, and it leaves when the round has
changed nothing, or when it brought no new label and the options allow no further round without
one. Every turn that goes on has found a new label or used up one of the rounds that the options
allow, so the loop leaves, whatever the scores. It meets only the unary rules of labels that it
reaches, so a grammar with the same rules for these labels has the same closure.
-/

namespace ParseForest

variable {V S : Type} [Score S]

def unaryReach (g : Grammar V) (w : Weighting V S) (o : Options V) (child : Symbol) : Set Symbol :=
  {label | ∃ n x, UnaryPath g w o child n label x}

namespace Closure

structure Progress (S : Type) where
  rounds : Nat
  idle : Nat
  closure : LabelMap S

def Progress.start (child : Symbol) : Progress S := ⟨0, 0, [(child, Score.one)]⟩

def turn (order : ClosureOrder) (g : Grammar V) (w : Weighting V S) (o : Options V)
    (child : Symbol) (p : Progress S) : Progress S ⊕ LabelMap S × Bool :=
  let (after, changed) :=
    roundIn (order.order child p.rounds (LabelMap.keys p.closure)) g w o child p.closure
  if !changed then .inr (after, false)
  else if p.closure.length < after.length then .inl ⟨p.rounds + 1, p.idle, after⟩
  else if o.scoreStagnation ≤ p.idle + 1 then .inr (after, true)
  else .inl ⟨p.rounds + 1, p.idle + 1, after⟩

variable {order : ClosureOrder} {g g' : Grammar V} {w : Weighting V S} {o : Options V}
  {child : Symbol}

theorem eq_of_turn_eq_inr {p : Progress S} {r : LabelMap S × Bool}
    (h : turn order g w o child p = .inr r) :
    r = roundIn (order.order child p.rounds (LabelMap.keys p.closure)) g w o child p.closure ∧
      (r.2 = true → r.1.length ≤ p.closure.length ∧ o.scoreStagnation ≤ p.idle + 1) := by
  revert h
  unfold turn
  generalize roundIn (order.order child p.rounds (LabelMap.keys p.closure)) g w o child p.closure
    = after
  obtain ⟨after, changed⟩ := after
  cases changed with
  | false =>
    rintro ⟨⟩
    exact ⟨rfl, nofun⟩
  | true =>
    simp only [Bool.not_true, Bool.false_eq_true, if_false]
    split
    · nofun
    · rename_i hlen
      split
      · rename_i hstop
        rintro ⟨⟩
        exact ⟨rfl, fun _ => ⟨Nat.not_lt.mp hlen, hstop⟩⟩
      · nofun

theorem eq_of_turn_eq_inl {p q : Progress S} (h : turn order g w o child p = .inl q) :
    q.rounds = p.rounds + 1 ∧ q.closure =
      (roundIn (order.order child p.rounds (LabelMap.keys p.closure)) g w o child p.closure).1 ∧
      (p.closure.length < q.closure.length ∧ q.idle = p.idle ∨
        q.closure.length ≤ p.closure.length ∧ q.idle = p.idle + 1 ∧
          q.idle < o.scoreStagnation) := by
  revert h
  unfold turn
  generalize roundIn (order.order child p.rounds (LabelMap.keys p.closure)) g w o child p.closure
    = after
  obtain ⟨after, changed⟩ := after
  simp only
  split
  · nofun
  · split
    · rename_i hlen
      rintro ⟨⟩
      exact ⟨rfl, rfl, .inl ⟨hlen, rfl⟩⟩
    · rename_i hlen
      split
      · nofun
      · rename_i hgo
        rintro ⟨⟩
        exact ⟨rfl, rfl, .inr ⟨Nat.not_lt.mp hlen, rfl, Nat.not_le.mp hgo⟩⟩

theorem roundsFromIn_succ (fuel : Nat) (p : Progress S) :
    roundsFromIn order g w o child (fuel + 1) p.rounds p.idle p.closure =
      (turn order g w o child p).elim
        (fun q => roundsFromIn order g w o child fuel q.rounds q.idle q.closure) Prod.fst := by
  rw [roundsFromIn, turn]
  generalize roundIn (order.order child p.rounds (LabelMap.keys p.closure)) g w o child p.closure
    = after
  obtain ⟨after, changed⟩ := after
  cases changed with
  | false => rfl
  | true =>
    simp only [Bool.not_true, Bool.false_eq_true, if_false]
    split
    · rfl
    · split <;> rfl

theorem roundsFromIn_of_leaves {turns : Nat} {p : Progress S} {r : LabelMap S × Bool}
    (h : Leaves (turn order g w o child) turns p r) {fuel : Nat} (hfuel : turns ≤ fuel) :
    roundsFromIn order g w o child fuel p.rounds p.idle p.closure = r.1 :=
  h.run_eq (fun fuel p => roundsFromIn order g w o child fuel p.rounds p.idle p.closure) Prod.fst
    roundsFromIn_succ hfuel

/-! ## The loop leaves -/

theorem unaryReach_subset : unaryReach g w o child ⊆ ↑(child :: g.leftSides o).toFinset := by
  rintro label ⟨n, x, hpath⟩
  rw [List.coe_toFinset]
  cases hpath with
  | start => exact List.mem_cons_self
  | step _ rule =>
    exact List.mem_cons_of_mem _ (Grammar.mem_leftSides (Grammar.mem_pairs_of_mem_unaryRules rule))

theorem finite_unaryReach : (unaryReach g w o child).Finite :=
  (Finset.finite_toSet _).subset unaryReach_subset

theorem ncard_unaryReach_le (g : Grammar V) (w : Weighting V S) (o : Options V) (child : Symbol) :
    (unaryReach g w o child).ncard ≤ g.ruleCount + 1 := by
  calc (unaryReach g w o child).ncard
      ≤ (child :: g.leftSides o).toFinset.card := by
        rw [← Set.ncard_coe_finset]
        exact Set.ncard_le_ncard unaryReach_subset (Finset.finite_toSet _)
    _ ≤ (child :: g.leftSides o).length := List.toFinset_card_le _
    _ = g.ruleCount + 1 := by rw [List.length_cons, Grammar.leftSides, List.length_map]; rfl

theorem Sound.length_le {closure : LabelMap S} (h : Sound g w o child closure) :
    closure.length ≤ (unaryReach g w o child).ncard := by
  have hsub : (↑(LabelMap.keys closure).toFinset : Set Symbol) ⊆ unaryReach g w o child := by
    intro label hlabel
    rw [List.coe_toFinset] at hlabel
    obtain ⟨x, hx⟩ := Option.isSome_iff_exists.mp (LabelMap.mem_keys_iff.mp hlabel)
    obtain ⟨n, hpath⟩ := h.path label x hx
    exact ⟨n, x, hpath⟩
  have hle := Set.ncard_le_ncard hsub finite_unaryReach
  rwa [Set.ncard_coe_finset, List.toFinset_card_of_nodup h.nodup, LabelMap.keys,
    List.length_map] at hle

def Progress.Valid (g : Grammar V) (w : Weighting V S) (o : Options V) (child : Symbol)
    (p : Progress S) : Prop :=
  Sound g w o child p.closure ∧ p.idle < max o.scoreStagnation 1

theorem Progress.valid_start : (Progress.start child).Valid g w o child :=
  ⟨sound_start, Nat.lt_of_lt_of_le Nat.one_pos (Nat.le_max_right _ _)⟩

variable (g w o child) in
noncomputable def Progress.left (p : Progress S) : Nat :=
  ((unaryReach g w o child).ncard - p.closure.length) + (max o.scoreStagnation 1 - p.idle)

theorem Progress.Valid.next {p q : Progress S} (h : p.Valid g w o child)
    (hturn : turn order g w o child p = .inl q) :
    q.Valid g w o child ∧ q.left g w o child < p.left g w o child := by
  obtain ⟨-, hclosure, hidle⟩ := eq_of_turn_eq_inl hturn
  have happ := applied_roundIn h.1 (order.order child p.rounds (LabelMap.keys p.closure))
  have hsound : Sound g w o child q.closure := hclosure ▸ happ.sound
  have hkept : p.closure.length ≤ q.closure.length := hclosure ▸ happ.length_le
  have hlength := hsound.length_le
  have hlt := h.2
  unfold Progress.left
  rcases hidle with ⟨hgrown, hidle⟩ | ⟨hsame, hidle, hallowed⟩
  · exact ⟨⟨hsound, hidle ▸ h.2⟩, by omega⟩
  · exact ⟨⟨hsound, Nat.lt_of_lt_of_le hallowed (Nat.le_max_left _ _)⟩, by omega⟩

variable (order g w o child) in
/-- The loop leaves: a turn that goes on has found one of the labels that are reached, or used up
one of the rounds without a new label. -/
theorem exists_leaves_turn : ∃ turns r, Leaves (turn order g w o child) turns (.start child) r ∧
    turns ≤ (unaryReach g w o child).ncard + max o.scoreStagnation 1 := by
  obtain ⟨turns, r, hleaves, hle⟩ := exists_leaves (turn order g w o child)
    (fun p q h hturn => Progress.Valid.next (q := q) h hturn) Progress.valid_start
  refine ⟨turns, r, hleaves, hle.trans ?_⟩
  have hone : 1 ≤ (unaryReach g w o child).ncard := (sound_start (g := g) (w := w)).length_le
  simp only [Progress.left, Progress.start, List.length_singleton]
  omega

variable (g w o child) in
theorem ncard_add_le_roundLimit :
    (unaryReach g w o child).ncard + max o.scoreStagnation 1 ≤ roundLimit g o := by
  have hreach := ncard_unaryReach_le g w o child
  rw [roundLimit]
  omega

variable (order g w o child) in
theorem leaves_unaryClosureIn : ∃ turns changed,
    Leaves (turn order g w o child) turns (.start child)
      (unaryClosureIn order g w o child, changed) ∧
    turns ≤ (unaryReach g w o child).ncard + max o.scoreStagnation 1 := by
  obtain ⟨turns, ⟨last, changed⟩, hleaves, hle⟩ := exists_leaves_turn order g w o child
  have hlast : unaryClosureIn order g w o child = last :=
    roundsFromIn_of_leaves hleaves (hle.trans (ncard_add_le_roundLimit g w o child))
  exact ⟨turns, changed, hlast ▸ hleaves, hle⟩

/-! ## The closure that it leaves with -/

variable (order g w o child) in
/-- The closure comes out of a round that changed nothing or brought no new label. -/
theorem exists_last_round : ∃ before labels changed, Sound g w o child before ∧
    labels.Perm (LabelMap.keys before) ∧
    (unaryClosureIn order g w o child, changed) = roundIn labels g w o child before ∧
    (unaryClosureIn order g w o child).length ≤ before.length := by
  obtain ⟨_, changed, hleaves, -⟩ := leaves_unaryClosureIn order g w o child
  obtain ⟨p, hp, hturn⟩ := hleaves.exists_last
    (fun _ q h hturn => (Progress.Valid.next (q := q) h hturn).1) Progress.valid_start
  obtain ⟨hr, hstop⟩ := eq_of_turn_eq_inr hturn
  refine ⟨p.closure, _, changed, hp.1, order.perm child p.rounds _, hr, ?_⟩
  cases changed with
  | true => exact (hstop rfl).1
  | false =>
    have happ := applied_roundIn hp.1 (order.order child p.rounds (LabelMap.keys p.closure))
    rw [← hr] at happ
    exact Nat.le_of_eq (congrArg List.length (happ.unchanged rfl))

/-! ## The rules that the loop meets -/

theorem turn_congr (h : ∀ label ∈ unaryReach g w o child, g'.unaryRules label = g.unaryRules label)
    {p : Progress S} (hp : Sound g w o child p.closure) :
    turn order g' w o child p = turn order g w o child p := by
  have hround : ∀ labels, roundIn labels g' w o child p.closure =
      roundIn labels g w o child p.closure := by
    intro labels
    unfold roundIn
    refine List.foldl_ext _ _ _ fun st kv hkv => ?_
    obtain ⟨n, hpath⟩ := hp.path kv.1 kv.2 (LabelMap.mem_inOrder.mp hkv).2
    simp only [h kv.1 ⟨n, kv.2, hpath⟩]
  unfold turn
  simp only [hround]

theorem leaves_congr
    (h : ∀ label ∈ unaryReach g w o child, g'.unaryRules label = g.unaryRules label)
    {turns : Nat} {p : Progress S} {r : LabelMap S × Bool}
    (hleaves : Leaves (turn order g w o child) turns p r) (hp : p.Valid g w o child) :
    Leaves (turn order g' w o child) turns p r := by
  induction hleaves with
  | last hturn => exact .last ((turn_congr h hp.1).trans hturn)
  | next hturn _ ih => exact .next ((turn_congr h hp.1).trans hturn) (ih (hp.next hturn).1)

end Closure

variable {order : ClosureOrder} {g : Grammar V} {w : Weighting V S} {o : Options V}
  {child : Symbol}

open Closure

variable (g w o child) in
theorem sound_unaryClosureIn : Sound g w o child (unaryClosureIn order g w o child) := by
  obtain ⟨before, labels, changed, hsound, -, heq, -⟩ := exists_last_round order g w o child
  have happ := applied_roundIn hsound labels
  rw [← heq] at happ
  exact happ.sound

variable (g w o child) in
theorem complete_unaryClosureIn : Complete g o (unaryClosureIn order g w o child) := by
  obtain ⟨before, labels, changed, hsound, hlabels, heq, hlen⟩ :=
    exists_last_round order g w o child
  have happ := applied_roundIn hsound labels
  rw [← heq] at happ
  exact happ.complete hlabels hlen

theorem isSome_unaryClosureIn_iff {label : Symbol} :
    (LabelMap.get? (unaryClosureIn order g w o child) label).isSome = true ↔
      ∃ n score, UnaryPath g w o child n label score := by
  constructor
  · intro h
    obtain ⟨score, hscore⟩ := Option.isSome_iff_exists.mp h
    obtain ⟨n, hpath⟩ := (sound_unaryClosureIn g w o child).path label score hscore
    exact ⟨n, score, hpath⟩
  · rintro ⟨n, score, hpath⟩
    rw [← LabelMap.mem_keys_iff]
    induction hpath with
    | start =>
      rw [LabelMap.mem_keys_iff, (sound_unaryClosureIn g w o child).self]
      rfl
    | step _ hrule ih => exact complete_unaryClosureIn g w o child _ ih _ hrule

theorem unaryClosureIn_congr {g' : Grammar V}
    (h : ∀ label ∈ unaryReach g w o child, g'.unaryRules label = g.unaryRules label) :
    unaryClosureIn order g' w o child = unaryClosureIn order g w o child := by
  obtain ⟨_, _, hleaves, -⟩ := leaves_unaryClosureIn order g w o child
  obtain ⟨_, _, hleaves', -⟩ := leaves_unaryClosureIn order g' w o child
  exact congrArg Prod.fst (hleaves'.unique (leaves_congr h hleaves Progress.valid_start)).2

end ParseForest
