import ParseForest.Forest.Parser
import ParseForest.Posterior.Parser

/-!
# Parsing from coarse to fine

A cascade orders grammars from the coarsest to the finest. Every grammar but the finest is only
scored, and its posteriors prune the next one with a cutoff that is its threshold times the factor
of the round. The finest grammar makes the forest.

A round fails when one of its passes does. Then the factor is multiplied by the decay and the
passes are made again, from the posteriors of the coarsest grammar, as often as the options allow.
When the coarsest grammar itself fails there is nothing to relax.
-/

namespace ParseForest

variable {V S : Type}

structure Cascade (V S : Type) where
  coarse : List (Grammar V × V)
  finest : Grammar V
  weighting : Weighting V S
  options : Options V

structure CascadeParse (V : Type) where
  graph : Hypergraph V
  relaxations : Nat
  factor : V

namespace Cascade

/-- Gives a coarse grammar the first table of a kind in the finest grammar, if it has none of that
kind itself. -/
def share (finest : Grammar V) (grammar : Grammar V) (kind : TableKind) : Grammar V :=
  match finest.findKind? kind with
  | some table => if grammar.hasKind kind then grammar else grammar ++ [table]
  | none => grammar

def shareAll (finest : Grammar V) (grammar : Grammar V) : Grammar V :=
  [TableKind.unknown, TableKind.pos].foldl (share finest) grammar

def isThreshold [Scalar V] (t : V) : Bool := Scalar.atMost Scalar.zero t

/-- The cascade of grammars with the thresholds between them: one less than there are grammars,
none of them negative. -/
def ofGrammars [Scalar V] [NumberText V] (grammars : List (Grammar V)) (thresholds : List V)
    (weighting : Weighting V S) (options : Options V) : Except ConfigError (Cascade V S) :=
  match grammars.getLast? with
  | none => .error .noGrammar
  | some finest =>
    if thresholds.length + 1 ≠ grammars.length then
      .error (.thresholdCount grammars.length thresholds.length)
    else
      match thresholds.find? fun t => !isThreshold t with
      | some t => .error (.invalidThreshold (NumberText.render t))
      | none =>
        .ok ⟨(grammars.dropLast.map (shareAll finest)).zip thresholds, finest, weighting, options⟩

def grammars (c : Cascade V S) : List (Grammar V) := c.coarse.map (·.1) ++ [c.finest]

def scoringCoarsening (level : Nat) : Coarsening :=
  if level = 1 then .category else .latent (level - 2)

def finestCoarsening (level : Nat) : Coarsening :=
  -- one bit more than for a grammar of that level that is only scored
  if level = 1 then .category else .latent (level - 1)

variable [Scalar V] [LogScale V S]

omit [Scalar V] in
def prunerOf (scores : ScoreChart S) (threshold : V) (coarsening : Coarsening) : Pruner :=
  Pruner.ofScores scores (LogScale.ofProbability threshold) coarsening

/-- Scores the grammars from `level` on, each pruned by the scores before it; the answer is the
last scores with their threshold, unless a pass fails. -/
def scorePasses (c : Cascade V S) (order : (level : Nat) → ClosureOrder) (lattice : Lattice V)
    (factor : V) :
    (level : Nat) → ScoreChart S × V → List (Grammar V × V) → Option (ScoreChart S × V)
  | _, last, [] => some last
  | level, (scores, threshold), (grammar, next) :: rest =>
    let pruner := prunerOf scores (threshold * factor) (scoringCoarsening level)
    let result := posteriorsIn (order level) grammar c.weighting c.options lattice pruner
    if result.parsed then scorePasses c order lattice factor (level + 1) (result.scores, next) rest
    else none

/-- The passes of one round after the scores of the coarsest grammar; `rest` are the other coarse
grammars, and `composer` is the parser of the finest one. -/
def attempt (c : Cascade V S) (orders : (round level : Nat) → ClosureOrder) (lattice : Lattice V)
    (first : ScoreChart S × V) (rest : List (Grammar V × V)) (round : Nat)
    (composer : ForestParser V) (factor : V) : ForestParser V × Option (Hypergraph V) :=
  match c.scorePasses (orders round) lattice factor 1 first rest with
  | none => (composer, none)
  | some (scores, threshold) =>
    let pruner := prunerOf scores (threshold * factor) (finestCoarsening (rest.length + 1))
    let (composer, graph) := composer.parse lattice pruner
    (composer, if graph.isValid then some graph else none)

def relax (c : Cascade V S)
    (attempt : Nat → ForestParser V → V → ForestParser V × Option (Hypergraph V)) :
    (left relaxations : Nat) → (composer : ForestParser V) → (factor : V) → CascadeParse V
  | left, relaxations, composer, factor =>
    match attempt relaxations composer factor with
    | (_, some graph) => ⟨graph, relaxations, factor⟩
    | (composer, none) =>
      match left with
      | 0 => ⟨Hypergraph.empty, relaxations, factor⟩
      | left + 1 => relax c attempt left (relaxations + 1) composer (factor * c.options.decay)

/-- The parse of a lattice. Each scoring pass closes its labels in an order of its own, by the round
and the level of the pass; the pass over the coarsest grammar is of round and level zero. -/
def parseIn (orders : (round level : Nat) → ClosureOrder) (c : Cascade V S) (lattice : Lattice V) :
    CascadeParse V :=
  if lattice.isEmpty then ⟨Hypergraph.empty, 0, Scalar.one⟩
  else
    let composer := ForestParser.new c.finest c.options
    match c.coarse with
    | [] => ⟨(composer.parse lattice Pruner.none).2, 0, Scalar.one⟩
    | (coarsest, threshold) :: rest =>
      let result := posteriorsIn (orders 0 0) coarsest c.weighting c.options lattice Pruner.none
      if result.parsed then
        c.relax (c.attempt orders lattice (result.scores, threshold) rest)
          c.options.maxRelaxations 0 composer Scalar.one
      else ⟨Hypergraph.empty, 0, Scalar.one⟩

def parse (c : Cascade V S) (lattice : Lattice V) : CascadeParse V :=
  c.parseIn (fun _ _ => .arrival) lattice

end Cascade

end ParseForest
