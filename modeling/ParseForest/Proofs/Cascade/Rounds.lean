import Mathlib.Logic.Function.Iterate
import ParseForest.Cascade

/-!
# The rounds of a cascade

All rounds share the parser of the finest grammar and start from the same scores of the coarsest
one. A parse reads none of the charts that an earlier parse has left, so a round comes out as it
would with a parser of its own. The rounds end with the first one that succeeds, or when the last
one that is allowed has failed.
-/

namespace ParseForest.Cascade

variable {V S : Type} [Scalar V] [LogScale V S]

def round (c : Cascade V S) (order : (level : Nat) → ClosureOrder) (lattice : Lattice V)
    (first : ScoreChart S × V) (rest : List (Grammar V × V)) (factor : V) :
    Option (Hypergraph V) :=
  (c.scorePasses order lattice factor 1 first rest).bind fun (scores, threshold) =>
    let pruner := prunerOf scores (threshold * factor) (finestCoarsening (rest.length + 1))
    let graph := forest c.finest c.options lattice pruner
    if graph.isValid then some graph else none

def factorAfter (decay start : V) (rounds : Nat) : V :=
  (fun factor => factor * decay)^[rounds] start

structure Composes (c : Cascade V S) (composer : ForestParser V) : Prop where
  grammar : composer.grammar = c.finest
  options : composer.options = c.options

variable {orders : (round level : Nat) → ClosureOrder} {c : Cascade V S}
  {composer : ForestParser V} {lattice : Lattice V} {first : ScoreChart S × V}
  {rest : List (Grammar V × V)} {factor : V}

omit [LogScale V S] in
theorem composes_new (c : Cascade V S) : c.Composes (ForestParser.new c.finest c.options) :=
  ⟨rfl, rfl⟩

omit [LogScale V S] in
theorem Composes.parse (h : c.Composes composer) (lattice : Lattice V) (pruner : Pruner) :
    c.Composes (composer.parse lattice pruner).1 ∧
      (composer.parse lattice pruner).2 = forest c.finest c.options lattice pruner := by
  rw [← h.grammar, ← h.options]
  unfold forest ForestParser.parse
  split
  · exact ⟨h, rfl⟩
  · exact ⟨⟨h.grammar, h.options⟩, rfl⟩

/-- A round comes out the same whatever the parser has parsed before. -/
theorem Composes.attempt (h : c.Composes composer)
    (orders : (round level : Nat) → ClosureOrder) (lattice : Lattice V)
    (first : ScoreChart S × V) (rest : List (Grammar V × V)) (number : Nat) (factor : V) :
    c.Composes (c.attempt orders lattice first rest number composer factor).1 ∧
      (c.attempt orders lattice first rest number composer factor).2 =
        c.round (orders number) lattice first rest factor := by
  unfold Cascade.attempt round
  cases c.scorePasses (orders number) lattice factor 1 first rest with
  | none => exact ⟨h, rfl⟩
  | some last =>
    obtain ⟨hcomposes, hgraph⟩ := h.parse lattice
      (prunerOf last.1 (last.2 * factor) (finestCoarsening (rest.length + 1)))
    refine ⟨hcomposes, ?_⟩
    simp only [Option.bind_some, hgraph]

theorem Composes.relax_of_some (h : c.Composes composer) {graph : Hypergraph V}
    {relaxations : Nat}
    (hround : c.round (orders relaxations) lattice first rest factor = some graph) (left : Nat) :
    c.relax (c.attempt orders lattice first rest) left relaxations composer factor =
      ⟨graph, relaxations, factor⟩ := by
  have hresult := (h.attempt orders lattice first rest relaxations factor).2.trans hround
  unfold relax
  split
  · rename_i heq
    rw [heq] at hresult
    rw [Option.some.inj hresult]
  · rename_i heq
    rw [heq] at hresult
    cases hresult

theorem Composes.relax_zero (h : c.Composes composer) {relaxations : Nat}
    (hround : c.round (orders relaxations) lattice first rest factor = none) :
    c.relax (c.attempt orders lattice first rest) 0 relaxations composer factor =
      ⟨Hypergraph.empty, relaxations, factor⟩ := by
  have hresult := (h.attempt orders lattice first rest relaxations factor).2.trans hround
  unfold relax
  split
  · rename_i heq
    rw [heq] at hresult
    cases hresult
  · rfl

theorem Composes.relax_succ (h : c.Composes composer) {relaxations : Nat}
    (hround : c.round (orders relaxations) lattice first rest factor = none) (left : Nat) :
    ∃ composer', c.Composes composer' ∧
      c.relax (c.attempt orders lattice first rest) (left + 1) relaxations composer factor =
        c.relax (c.attempt orders lattice first rest) left (relaxations + 1) composer'
          (factor * c.options.decay) := by
  obtain ⟨hnext, hresult⟩ := h.attempt orders lattice first rest relaxations factor
  rw [hround] at hresult
  refine ⟨_, hnext, ?_⟩
  rw [relax]
  split
  · rename_i heq
    rw [heq] at hresult
    cases hresult
  · rename_i heq
    rw [heq]

theorem Composes.relax_of_first {left rounds relaxations : Nat} (h : c.Composes composer)
    (hle : rounds ≤ left)
    (hfailed : ∀ r < rounds, c.round (orders (relaxations + r)) lattice first rest
      (factorAfter c.options.decay factor r) = none)
    {graph : Hypergraph V}
    (hround : c.round (orders (relaxations + rounds)) lattice first rest
      (factorAfter c.options.decay factor rounds) = some graph) :
    c.relax (c.attempt orders lattice first rest) left relaxations composer factor =
      ⟨graph, relaxations + rounds, factorAfter c.options.decay factor rounds⟩ := by
  -- a round that has failed leaves another parser and the next factor behind
  induction rounds generalizing left relaxations composer factor with
  | zero => exact h.relax_of_some hround left
  | succ rounds ih =>
    obtain ⟨left, rfl⟩ := Nat.exists_eq_add_of_le' (Nat.le_of_add_left_le hle)
    have hthis : c.round (orders relaxations) lattice first rest factor = none :=
      hfailed 0 rounds.succ_pos
    have hshift (r : Nat) : relaxations + (r + 1) = relaxations + 1 + r := by omega
    obtain ⟨composer', hnext, hrelax⟩ := h.relax_succ hthis left
    rw [hshift] at hround
    rw [hrelax, ih hnext (Nat.le_of_succ_le_succ hle)
      (fun r hr => hshift r ▸ hfailed (r + 1) (Nat.succ_lt_succ hr)) hround, ← hshift]
    rfl

theorem Composes.relax_of_none {left relaxations : Nat} (h : c.Composes composer)
    (hfailed : ∀ r ≤ left, c.round (orders (relaxations + r)) lattice first rest
      (factorAfter c.options.decay factor r) = none) :
    c.relax (c.attempt orders lattice first rest) left relaxations composer factor =
      ⟨Hypergraph.empty, relaxations + left, factorAfter c.options.decay factor left⟩ := by
  induction left generalizing relaxations composer factor with
  | zero => exact h.relax_zero (hfailed 0 (Nat.le_refl 0))
  | succ left ih =>
    have hthis : c.round (orders relaxations) lattice first rest factor = none :=
      hfailed 0 left.succ.zero_le
    have hshift (r : Nat) : relaxations + (r + 1) = relaxations + 1 + r := by omega
    obtain ⟨composer', hnext, hrelax⟩ := h.relax_succ hthis left
    rw [hrelax, ih hnext fun r hr => hshift r ▸ hfailed (r + 1) (Nat.succ_le_succ hr), ← hshift]
    rfl

end ParseForest.Cascade
