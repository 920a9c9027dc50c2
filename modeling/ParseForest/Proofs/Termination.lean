import Mathlib.Data.List.Dedup
import ParseForest.Proofs.Forest.Closure
import ParseForest.Proofs.Posterior.ClosureLoop

/-!
# The unary loops leave

Both parsers apply unary rules in a loop without a bound. A turn of the forest parser's loop is a
round over the constituents of the round before. The nodes of a cycle get a new level in each
round and the scores around it may grow in each round, so neither comes to a rest by itself. But a
turn that goes on has found one more of the left-hand sides, or used up one of the rounds without a
new label that the options allow.
-/

namespace ParseForest

variable {V : Type}

namespace SpanBuild

structure Progress (V : Type) where
  idle : Nat
  done : Nat
  build : SpanBuild V

def Progress.start (b : SpanBuild V) : Progress V := ⟨0, 0, b⟩

variable [Scalar V]

def turn (site : Site V) (g : Grammar V) (distance : Nat) (p : Progress V) :
    Progress V ⊕ SpanBuild V :=
  let frontier := p.build.found.drop p.done
  if frontier.isEmpty then .inr p.build
  else
    let after := p.build.round site g distance frontier
    if grew p.build after then .inl ⟨p.idle, p.build.found.length, after⟩
    else if site.options.forestStagnation ≤ p.idle + 1 then .inr after
    else .inl ⟨p.idle + 1, p.build.found.length, after⟩

variable {site : Site V} {g : Grammar V} {distance : Nat}

theorem eq_of_turn_eq_inl {p q : Progress V} (h : turn site g distance p = .inl q) :
    q.build = p.build.round site g distance (p.build.found.drop p.done) ∧
      (grew p.build q.build = true ∧ q.idle = p.idle ∨
        q.idle = p.idle + 1 ∧ q.idle < site.options.forestStagnation) := by
  revert h
  unfold turn
  simp only
  split
  · nofun
  · split
    · rename_i hgrew
      rintro ⟨⟩
      exact ⟨rfl, .inl ⟨hgrew, rfl⟩⟩
    · split
      · nofun
      · rename_i hgo
        rintro ⟨⟩
        exact ⟨rfl, .inr ⟨rfl, Nat.not_le.mp hgo⟩⟩

theorem closeFrom_succ (fuel : Nat) (p : Progress V) :
    closeFrom site g distance (fuel + 1) p.idle p.done p.build =
      (turn site g distance p).elim
        (fun q => closeFrom site g distance fuel q.idle q.done q.build) id := by
  rw [closeFrom, turn]
  simp only
  split
  · rfl
  · split
    · rfl
    · split <;> rfl

theorem closeFrom_of_leaves {turns : Nat} {p : Progress V} {b : SpanBuild V}
    (h : Leaves (turn site g distance) turns p b) {fuel : Nat} (hfuel : turns ≤ fuel) :
    closeFrom site g distance fuel p.idle p.done p.build = b :=
  h.run_eq (fun fuel p => closeFrom site g distance fuel p.idle p.done p.build) id closeFrom_succ
    hfuel

variable (site g) in
def Progress.left (p : Progress V) : Nat :=
  ((g.leftSides site.options).dedup.filter fun label => !p.build.hasLabel label).length +
    (site.options.forestStagnation - p.idle)

theorem Progress.left_lt {p q : Progress V} (hidle : p.idle < site.options.forestStagnation)
    (hturn : turn site g distance p = .inl q) :
    q.idle < site.options.forestStagnation ∧ q.left site g < p.left site g := by
  obtain ⟨hbuild, hround⟩ := eq_of_turn_eq_inl hturn
  obtain ⟨new, hfound, hnew⟩ :=
    exists_found_round site g distance (p.build.found.drop p.done) p.build
  rw [← hbuild] at hfound
  have hkept := Building.hasLabel_of_append hfound
  have hless := length_filter_unknown_le (g.leftSides site.options).dedup hkept
  unfold Progress.left
  rcases hround with ⟨hgrew, hsame⟩ | ⟨hmore, hallowed⟩
  · obtain ⟨c, hc, hlabel⟩ := (Building.grew_eq_true_iff hfound).mp hgrew
    have hold : p.build.hasLabel c.label = false := by
      rw [← Bool.not_eq_true, Building.hasLabel_iff]
      rintro ⟨d, hd, heq⟩
      exact hlabel d hd heq
    have hfewer := length_filter_unknown_lt hkept (List.mem_dedup.mpr (hnew c hc).1) hold
      (Building.hasLabel_iff.mpr ⟨c, hfound ▸ List.mem_append_right _ hc, rfl⟩)
    exact ⟨hsame ▸ hidle, by omega⟩
  · exact ⟨hallowed, by omega⟩

variable (g distance) in
theorem leaves_close (hpos : site.options.forestStagnation ≠ 0) (b : SpanBuild V) :
    ∃ turns, Leaves (turn site g distance) turns (.start b) (b.close site g distance) ∧
      turns ≤ (g.leftSides site.options).dedup.length + site.options.forestStagnation + 1 := by
  obtain ⟨turns, last, hleaves, hle⟩ := exists_leaves (turn site g distance)
    (fun p q h hturn => Progress.left_lt (q := q) h hturn)
    (s := Progress.start b) (Nat.pos_of_ne_zero hpos)
  have hunknown := List.length_filter_le (fun label => !b.hasLabel label)
    (g.leftSides site.options).dedup
  have hcount : (g.leftSides site.options).dedup.length ≤ g.ruleCount := by
    refine (List.dedup_sublist _).length_le.trans ?_
    rw [Grammar.leftSides, List.length_map]
    exact le_rfl
  have hturns : turns ≤
      (g.leftSides site.options).dedup.length + site.options.forestStagnation + 1 := by
    simp only [Progress.left, Progress.start] at hle
    omega
  have hfuel : turns ≤ roundLimit site.options g := by
    rw [roundLimit]
    omega
  have hlast : b.close site g distance = last := by
    rw [close, if_neg hpos]
    exact closeFrom_of_leaves hleaves hfuel
  exact ⟨turns, hlast ▸ hleaves, hturns⟩

end SpanBuild

variable [Scalar V]

/-- Both unary loops leave, with the result that the parsers have of them: for every grammar, every
span with what is in it, every pruner, all scores and all options, and however the rounds of a
closure go through its labels. No turns but these are taken. -/
theorem unary_loops_leave :
    (∀ (site : Site V) (g : Grammar V) (distance : Nat) (b : SpanBuild V),
      (site.options.forestStagnation = 0 → b.close site g distance = b) ∧
      (site.options.forestStagnation ≠ 0 → ∃ turns ≤
        (g.leftSides site.options).dedup.length + site.options.forestStagnation + 1,
        ∀ n last, Leaves (SpanBuild.turn site g distance) n (.start b) last ↔
          n = turns ∧ last = b.close site g distance)) ∧
    ∀ (S : Type) [Score S] (order : ClosureOrder) (g : Grammar V) (w : Weighting V S)
      (o : Options V) (child : Symbol), ∃ turns ≤
        (unaryReach g w o child).ncard + max o.scoreStagnation 1 + 1, ∃ changed,
        ∀ n last, Leaves (Closure.turn order g w o child) n (.start child) last ↔
          n = turns ∧ last = (unaryClosureIn order g w o child, changed) := by
  constructor
  · intro site g distance b
    refine ⟨fun hzero => if_pos hzero, fun hpos => ?_⟩
    obtain ⟨turns, hleaves, hle⟩ := SpanBuild.leaves_close g distance hpos b
    exact ⟨turns, hle, fun n last => hleaves.iff⟩
  · intro S _ order g w o child
    obtain ⟨turns, changed, hleaves, hle⟩ := Closure.leaves_unaryClosureIn order g w o child
    exact ⟨turns, hle.trans (Nat.le_succ _), changed, fun n last => hleaves.iff⟩

end ParseForest
