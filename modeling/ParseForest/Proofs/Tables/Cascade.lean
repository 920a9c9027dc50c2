import ParseForest.Proofs.Cascade.Rounds
import ParseForest.Proofs.Tables.Forest
import ParseForest.Proofs.Tables.Graph
import ParseForest.Proofs.Tables.Posteriors

/-!
# A cascade with its tables

A cascade keeps its grammars and thresholds by level: the threshold of a level is for the posteriors
of its grammar, which prune the next one. Each scoring pass has tables of its own, and all rounds
share those of the finest grammar. A pass is pruned by a chart that the pass before it has written
for the same lattice, so the pruner knows all spans and no access fails.
-/

namespace ParseForest

variable {V S : Type}

structure Levels (V S : Type) where
  grammars : List (Grammar V)
  thresholds : List V
  weighting : Weighting V S
  options : Options V

namespace Levels

def of (c : Cascade V S) : Levels V S := ⟨c.grammars, c.coarse.map (·.2), c.weighting, c.options⟩

def scoringCoarsening? (level : Nat) : Option Coarsening :=
  if level = 1 then some .category else (minus? level 2).map .latent

def finestCoarsening? (level : Nat) : Option Coarsening :=
  if level = 1 then some .category else (minus? level 1).map .latent

variable [Scalar V] [LogScale V S] (c : Levels V S) (orders : (round level : Nat) → ClosureOrder)
  (lattice : Lattice V)

def pruner? (factor : V) (scores : ScoreChart S) (level : Nat) (coarsening : Option Coarsening) :
    Option Pruner := do
  let before ← minus? level 1
  let threshold ← c.thresholds[before]?
  let coarsening ← coarsening
  return Cascade.prunerOf scores (threshold * factor) coarsening

def scoreLevels? (order : (level : Nat) → ClosureOrder) (factor : V) :
    List Nat → ScoreChart S → Option (Option (ScoreChart S))
  | [], scores => some (some scores)
  | level :: rest, scores => do
    let pruner ← c.pruner? factor scores level (scoringCoarsening? level)
    let grammar ← c.grammars[level]?
    let (m, parsed) ← ScoreMemory.parse? grammar c.weighting c.options (order level) lattice pruner
      ⟨ScoreTables.blank, Chart.new 0⟩
    if parsed then scoreLevels? order factor rest m.chart else return none

def attempt? (initial : ScoreChart S) (m : ForestTables V) (round : Nat) (factor : V) :
    Option (ForestTables V × Option (Hypergraph V)) := do
  let finest ← minus? c.grammars.length 1
  match ← c.scoreLevels? lattice (orders round) factor (List.range' 1 (finest - 1)) initial with
  | none => return (m, none)
  | some scores =>
    let pruner ← c.pruner? factor scores finest (finestCoarsening? finest)
    let grammar ← c.grammars[finest]?
    let (m, graph) ← ForestTables.parse? grammar c.options lattice pruner m
    return (m, if graph.isValid then some graph else none)

def relax? (initial : ScoreChart S) :
    (left relaxations : Nat) → ForestTables V → (factor : V) → Option (CascadeParse V)
  | left, relaxations, m, factor => do
    match ← c.attempt? orders lattice initial m relaxations factor with
    | (_, some graph) => return ⟨graph, relaxations, factor⟩
    | (m, none) =>
      match left with
      | 0 => return ⟨Hypergraph.empty, relaxations, factor⟩
      | left + 1 => relax? initial left (relaxations + 1) m (factor * c.options.decay)

def parse? : Option (CascadeParse V) :=
  if lattice.isEmpty then some ⟨Hypergraph.empty, 0, Scalar.one⟩
  else do
    let finest ← minus? c.grammars.length 1
    let grammar ← c.grammars[finest]?
    if finest = 0 then
      let (_, graph) ← ForestTables.parse? grammar c.options lattice .none ForestTables.blank
      return ⟨graph, 0, Scalar.one⟩
    else
      let coarsest ← c.grammars[0]?
      let (m, parsed) ← ScoreMemory.parse? coarsest c.weighting c.options (orders 0 0) lattice .none
        ⟨ScoreTables.blank, Chart.new 0⟩
      if parsed then
        c.relax? orders lattice m.chart c.options.maxRelaxations 0 ForestTables.blank Scalar.one
      else return ⟨Hypergraph.empty, 0, Scalar.one⟩

/-! ## No access fails -/

variable {c orders lattice}

structure Fit (c : Levels V S) : Prop where
  count : c.grammars.length = c.thresholds.length + 1
  closed : ∀ g ∈ c.grammars, ∀ t ∈ g, t.Closed

omit [Scalar V] [LogScale V S] in
theorem Fit.grammar (h : c.Fit) {level : Nat} (hlevel : level ≤ c.thresholds.length) :
    ∃ g, c.grammars[level]? = some g ∧ ∀ t ∈ g, t.Closed := by
  have hlt : level < c.grammars.length := by
    have := h.count
    omega
  exact ⟨_, List.getElem?_eq_getElem hlt, h.closed _ (List.getElem_mem hlt)⟩

theorem pruner?_eq (factor : V) (scores : ScoreChart S) {before : Nat} {threshold : V}
    (h : c.thresholds[before]? = some threshold) (coarsening : Coarsening) :
    c.pruner? factor scores (before + 1) (some coarsening) =
      some (Cascade.prunerOf scores (threshold * factor) coarsening) := by
  rw [pruner?, minus?_eq_some (by omega), Nat.add_sub_cancel, Option.bind_eq_bind,
    Option.bind_some, h]
  rfl

omit [Scalar V] in
theorem knows_prunerOf {scores : ScoreChart S} (hsize : scores.size = lattice.size) (threshold : V)
    (coarsening : Coarsening) :
    (Cascade.prunerOf scores threshold coarsening).knows lattice.size = true := by
  simp [Cascade.prunerOf, Pruner.ofScores, Pruner.knows, hsize]

theorem Fit.pruner (factor : V) {scores : ScoreChart S} (hsize : scores.size = lattice.size)
    {level : Nat} (hlevel : 0 < level ∧ level ≤ c.thresholds.length) (coarsening : Coarsening) :
    Yields (c.pruner? factor scores level (some coarsening)) (·.knows lattice.size = true) := by
  obtain ⟨before, rfl⟩ := Nat.exists_eq_add_one_of_ne_zero (Nat.ne_of_gt hlevel.1)
  exact .of_eq_some (pruner?_eq factor scores (List.getElem?_eq_getElem hlevel.2) coarsening)
    (knows_prunerOf hsize _ _)

theorem scoringCoarsening?_eq {level : Nat} (h : 0 < level) :
    scoringCoarsening? level = some (Cascade.scoringCoarsening level) := by
  unfold scoringCoarsening? Cascade.scoringCoarsening
  split
  · rfl
  · rw [minus?_eq_some (by omega)]
    rfl

theorem finestCoarsening?_eq {level : Nat} (h : 0 < level) :
    finestCoarsening? level = some (Cascade.finestCoarsening level) := by
  unfold finestCoarsening? Cascade.finestCoarsening
  split
  · rfl
  · rw [minus?_eq_some h]
    rfl

theorem Fit.scoreLevels (h : c.Fit) (order : Nat → ClosureOrder) (factor : V) {levels : List Nat}
    (hlevels : ∀ level ∈ levels, 0 < level ∧ level ≤ c.thresholds.length) {scores : ScoreChart S}
    (hsize : scores.size = lattice.size) :
    Yields (c.scoreLevels? lattice order factor levels scores)
      fun r => ∀ s, r = some s → s.size = lattice.size := by
  induction levels generalizing scores with
  | nil => exact yields_some fun s hs => Option.some.inj hs ▸ hsize
  | cons level levels ih =>
    obtain ⟨hlevel, hrest⟩ := List.forall_mem_cons.mp hlevels
    obtain ⟨g, hg, hclosed⟩ := h.grammar hlevel.2
    unfold scoreLevels?
    rw [scoringCoarsening?_eq hlevel.1]
    refine (Fit.pruner factor hsize hlevel _).bind fun pruner hknows => ?_
    rw [hg, Option.bind_eq_bind, Option.bind_some]
    refine (ScoreMemory.yields_parse hclosed (.inr hknows) _).bind fun (m, parsed) htells => ?_
    cases parsed with
    | true => exact ih hrest htells.size
    | false => exact yields_some fun s hs => by cases hs

theorem Fit.attempt (h : c.Fit) (hcoarse : 0 < c.thresholds.length) {initial : ScoreChart S}
    (hsize : initial.size = lattice.size) (m : ForestTables V) (round : Nat) (factor : V) :
    Yields (c.attempt? orders lattice initial m round factor)
      fun r => ∀ graph, r.2 = some graph → graph.Compact := by
  have hcount := h.count
  unfold attempt?
  rw [minus?_eq_some (by omega), Option.bind_eq_bind, Option.bind_some, hcount, Nat.add_sub_cancel]
  refine (h.scoreLevels (orders round) factor (fun level hlevel => ?_) hsize).bind fun r hr => ?_
  · have := List.mem_range'_1.mp hlevel
    omega
  · cases r with
    | none => exact yields_some fun graph hgraph => by cases hgraph
    | some scores =>
      obtain ⟨g, hg, hclosed⟩ := h.grammar (Nat.le_refl c.thresholds.length)
      simp only
      rw [finestCoarsening?_eq hcoarse]
      refine (Fit.pruner factor (hr scores rfl) ⟨hcoarse, Nat.le_refl _⟩ _).bind
        fun pruner hknows => ?_
      rw [hg, Option.bind_eq_bind, Option.bind_some]
      refine (ForestTables.yields_parse hclosed (.inr hknows) m).bind fun (m, graph) hgraph => ?_
      refine yields_some fun graph' heq => ?_
      simp only at hgraph heq
      split at heq
      · cases heq
        rw [hgraph]
        exact compact_forest _ _ _ _
      · cases heq

theorem Fit.relax (h : c.Fit) (hcoarse : 0 < c.thresholds.length) {initial : ScoreChart S}
    (hsize : initial.size = lattice.size) (left relaxations : Nat) (m : ForestTables V)
    (factor : V) : Yields (c.relax? orders lattice initial left relaxations m factor)
      (·.graph.Compact) := by
  induction left generalizing relaxations m factor with
  | zero =>
    unfold relax?
    refine (h.attempt hcoarse hsize m relaxations factor).bind fun (m, graph) hgraph => ?_
    cases graph with
    | none => exact yields_some Hypergraph.compact_empty
    | some graph => exact yields_some (hgraph graph rfl)
  | succ left ih =>
    unfold relax?
    refine (h.attempt hcoarse hsize m relaxations factor).bind fun (m, graph) hgraph => ?_
    cases graph with
    | none => exact ih _ _ _
    | some graph => exact yields_some (hgraph graph rfl)

theorem Fit.yields_parse (h : c.Fit) : Yields (c.parse? orders lattice) (·.graph.Compact) := by
  have hcount := h.count
  unfold parse?
  split
  · exact yields_some Hypergraph.compact_empty
  · rename_i hempty
    obtain ⟨g, hg, hclosed⟩ := h.grammar (Nat.le_refl c.thresholds.length)
    rw [minus?_eq_some (by omega), Option.bind_eq_bind, Option.bind_some, hcount,
      Nat.add_sub_cancel, hg, Option.bind_eq_bind, Option.bind_some]
    split
    · refine (ForestTables.yields_parse hclosed (.inr rfl) _).bind fun (m, graph) hgraph => ?_
      refine yields_some ?_
      simp only at hgraph
      rw [hgraph]
      exact compact_forest _ _ _ _
    · rename_i hcoarse
      obtain ⟨g', hg', hclosed'⟩ := h.grammar (Nat.zero_le c.thresholds.length)
      rw [hg', Option.bind_eq_bind, Option.bind_some]
      refine (ScoreMemory.yields_parse hclosed' (.inr rfl) _).bind fun (m, parsed) htells => ?_
      cases parsed with
      | true => exact h.relax (Nat.pos_of_ne_zero hcoarse) htells.size _ _ _ _
      | false => exact yields_some Hypergraph.compact_empty

end Levels

/-! ## The outcome is that of the cascade -/

section

variable [Score S] {scores scores' : ScoreChart S}

omit [Score S] in
theorem ScoreChart.Same.isEmpty_eq (h : ScoreChart.Same scores scores') (i j : Nat) :
    (scores.get i j).isEmpty = (scores'.get i j).isEmpty := by
  have hblank (m : LabelMap S) : m.isEmpty = true ↔ ∀ label, LabelMap.get? m label = none := by
    cases m with
    | nil => simp [LabelMap.get?]
    | cons kv m =>
      refine iff_of_false (by simp) fun hnone => ?_
      have := hnone kv.1
      simp [LabelMap.get?] at this
  rw [Bool.eq_iff_iff, hblank, hblank]
  exact forall_congr' fun label => by rw [h.score i j label]

theorem ScoreChart.Same.ofScores_eq (h : ScoreChart.Same scores scores') (cutoff : S)
    (coarsening : Coarsening) :
    Pruner.ofScores scores cutoff coarsening = Pruner.ofScores scores' cutoff coarsening := by
  have hlabels (i j : Nat) (label : Symbol) :
      Pruner.belowCutoff (scores.get i j) cutoff coarsening label =
        Pruner.belowCutoff (scores'.get i j) cutoff coarsening label := by
    simp only [Pruner.belowCutoff, h.score i j]
  simp only [Pruner.ofScores, h.isEmpty_eq, hlabels, h.size]

end

namespace Levels

variable [Scalar V] [LogScale V S] {lattice : Lattice V} {c : Cascade V S}

def Agree (c : Cascade V S) (lattice : Lattice V) :
    Option (ScoreChart S) → Option (ScoreChart S × V) → Prop
  | none, none => True
  | some scores', some (scores, threshold) => ScoreChart.Same scores' scores ∧
      scores'.size = lattice.size ∧ (of c).thresholds[c.coarse.length - 1]? = some threshold
  | _, _ => False

section Exact

variable (hzero : Score.isZero (Score.zero : S) = true)
  (hproduct : Score.isZero (Score.mul Score.zero Score.zero : S) = true)
  (hclosed : ∀ g ∈ c.grammars, ∀ t ∈ g, t.Closed)

include hzero hproduct hclosed

theorem scoreLevels_exact (order : (level : Nat) → ClosureOrder) (factor : V)
    {done rest : List (Grammar V × V)} {g : Grammar V} {t : V}
    (hsplit : c.coarse = done ++ (g, t) :: rest) {scores' scores : ScoreChart S}
    (hsame : ScoreChart.Same scores' scores) (hsize : scores'.size = lattice.size) :
    Yields ((of c).scoreLevels? lattice order factor
      (List.range' (done.length + 1) rest.length) scores') (Agree c lattice ·
        (c.scorePasses order lattice factor (done.length + 1) (scores, t) rest)) := by
  induction rest generalizing done g t scores' scores with
  | nil => exact yields_some ⟨hsame, hsize, by simp [of, hsplit]⟩
  | cons next rest ih =>
    obtain ⟨g', t'⟩ := next
    have hnext : c.coarse = (done ++ [(g, t)]) ++ (g', t') :: rest := by simp [hsplit]
    have hthreshold : (of c).thresholds[done.length]? = some t := by simp [of, hsplit]
    have hgrammar : (of c).grammars[done.length + 1]? = some g' := by
      simp [of, Cascade.grammars, hsplit]
    have hclosed' : ∀ t ∈ g', t.Closed := hclosed g' (by simp [Cascade.grammars, hsplit])
    have hpruner := pruner?_eq factor scores' hthreshold
      (Cascade.scoringCoarsening (done.length + 1))
    rw [show Cascade.prunerOf scores' _ _ = Cascade.prunerOf scores _ _ from
      hsame.ofScores_eq _ _] at hpruner
    have hknows := knows_prunerOf (hsame.size.symm.trans hsize) (t * factor)
      (Cascade.scoringCoarsening (done.length + 1))
    rw [List.length_cons, List.range'_succ]
    unfold scoreLevels? Cascade.scorePasses
    rw [scoringCoarsening?_eq (by omega), hpruner, Option.bind_eq_bind, Option.bind_some, hgrammar,
      Option.bind_eq_bind, Option.bind_some]
    refine (ScoreMemory.yields_parse hclosed' (.inr hknows) _).bind fun (m, parsed) htells => ?_
    have hparsed : parsed = (posteriorsIn _ g' c.weighting c.options lattice _).parsed :=
      htells.parsed
    have hchart := htells.chart hzero hproduct
    simp only
    cases parsed with
    | true =>
      have hrest := ih hnext hchart htells.size
      rw [List.length_append] at hrest
      rw [← hparsed]
      exact hrest
    | false =>
      rw [← hparsed]
      exact yields_some trivial

theorem attempt_exact (orders : (round level : Nat) → ClosureOrder) (factor : V)
    {rest : List (Grammar V × V)} {g : Grammar V} {t : V} (hcoarse : c.coarse = (g, t) :: rest)
    {scores' scores : ScoreChart S}
    (hsame : ScoreChart.Same scores' scores) (hsize : scores'.size = lattice.size)
    (m : ForestTables V) (round : Nat) :
    Yields ((of c).attempt? orders lattice scores' m round factor)
      (·.2 = c.round (orders round) lattice (scores, t) rest factor) := by
  have hfinest : (of c).grammars.length = rest.length + 1 + 1 := by
    simp [of, Cascade.grammars, hcoarse]
  have hgrammar : (of c).grammars[rest.length + 1]? = some c.finest := by
    simp [of, Cascade.grammars, hcoarse]
  have hclosed' : ∀ t ∈ c.finest, t.Closed := hclosed _ (by simp [Cascade.grammars])
  unfold attempt? Cascade.round
  rw [hfinest, minus?_eq_some (by omega), Nat.add_sub_cancel, Option.bind_eq_bind, Option.bind_some,
    Nat.add_sub_cancel]
  have hsplit : c.coarse = [] ++ (g, t) :: rest := hcoarse
  refine (scoreLevels_exact hzero hproduct hclosed (orders round) factor hsplit hsame hsize).bind
    fun r hr => ?_
  simp only [List.length_nil, Nat.zero_add] at hr
  generalize c.scorePasses (orders round) lattice factor 1 (scores, t) rest = last at hr ⊢
  match r, last, hr with
  | none, none, _ => exact yields_some rfl
  | some scores', some (scores, threshold), ⟨hsame, hsize, hthreshold⟩ =>
    have hthreshold' : (of c).thresholds[rest.length]? = some threshold := by
      simpa [hcoarse] using hthreshold
    have hpruner := pruner?_eq factor scores' hthreshold'
      (Cascade.finestCoarsening (rest.length + 1))
    rw [show Cascade.prunerOf scores' _ _ = Cascade.prunerOf scores _ _ from
      hsame.ofScores_eq _ _] at hpruner
    have hknows := knows_prunerOf (hsame.size.symm.trans hsize) (threshold * factor)
      (Cascade.finestCoarsening (rest.length + 1))
    simp only
    rw [finestCoarsening?_eq (by omega), hpruner, Option.bind_eq_bind, Option.bind_some, hgrammar,
      Option.bind_eq_bind, Option.bind_some]
    refine (ForestTables.yields_parse hclosed' (.inr hknows) m).bind fun (m, graph) hgraph => ?_
    simp only at hgraph ⊢
    rw [hgraph]
    exact yields_some rfl

theorem relax_exact (orders : (round level : Nat) → ClosureOrder) {rest : List (Grammar V × V)}
    {g : Grammar V} {t : V} (hcoarse : c.coarse = (g, t) :: rest) {scores' scores : ScoreChart S}
    (hsame : ScoreChart.Same scores' scores) (hsize : scores'.size = lattice.size)
    (left relaxations : Nat) (m : ForestTables V) {composer : ForestParser V}
    (hcomposes : c.Composes composer) (factor : V) :
    (of c).relax? orders lattice scores' left relaxations m factor =
      some (c.relax (c.attempt orders lattice (scores, t) rest) left relaxations composer
        factor) := by
  induction left generalizing relaxations m composer factor with
  | zero =>
    unfold relax?
    refine Yields.eq_some ((attempt_exact hzero hproduct hclosed orders factor hcoarse hsame hsize m
      relaxations).bind fun (m, graph) hgraph => ?_)
    cases graph with
    | none => exact .of_eq_some rfl (hcomposes.relax_zero hgraph.symm).symm
    | some graph => exact .of_eq_some rfl (hcomposes.relax_of_some hgraph.symm 0).symm
  | succ left ih =>
    unfold relax?
    refine Yields.eq_some ((attempt_exact hzero hproduct hclosed orders factor hcoarse hsame hsize m
      relaxations).bind fun (m, graph) hgraph => ?_)
    cases graph with
    | none =>
      obtain ⟨composer', hcomposes', heq⟩ := hcomposes.relax_succ hgraph.symm left
      rw [heq]
      exact .of_eq_some (ih (relaxations + 1) m hcomposes' _) rfl
    | some graph =>
      exact .of_eq_some rfl (hcomposes.relax_of_some hgraph.symm (left + 1)).symm

theorem parse?_eq (orders : (round level : Nat) → ClosureOrder) :
    (of c).parse? orders lattice = some (c.parseIn orders lattice) := by
  have hfinest : ∀ t ∈ c.finest, t.Closed := hclosed _ (by simp [Cascade.grammars])
  have hlast : (of c).grammars[c.coarse.length]? = some c.finest := by
    simp [of, Cascade.grammars]
  have hlength : (of c).grammars.length = c.coarse.length + 1 := by simp [of, Cascade.grammars]
  unfold parse? Cascade.parseIn
  split
  · rfl
  · rw [hlength, minus?_eq_some (by omega), Nat.add_sub_cancel, Option.bind_eq_bind,
      Option.bind_some, hlast, Option.bind_eq_bind, Option.bind_some]
    cases hcoarse : c.coarse with
    | nil =>
      refine Yields.eq_some ((ForestTables.yields_parse hfinest (.inr rfl) _).bind
        fun (m, graph) hgraph => ?_)
      simp only at hgraph
      rw [hgraph]
      exact yields_some rfl
    | cons first rest =>
      obtain ⟨g, t⟩ := first
      have hfirst : (of c).grammars[0]? = some g := by simp [of, Cascade.grammars, hcoarse]
      have hclosed' : ∀ t ∈ g, t.Closed := hclosed g (by simp [Cascade.grammars, hcoarse])
      rw [List.length_cons, if_neg (Nat.succ_ne_zero _), hfirst, Option.bind_eq_bind,
        Option.bind_some]
      refine Yields.eq_some ((ScoreMemory.yields_parse hclosed' (.inr rfl) _).bind
        fun (m, parsed) htells => ?_)
      have hparsed : parsed =
          (posteriorsIn _ g c.weighting c.options lattice Pruner.none).parsed := htells.parsed
      have hchart := htells.chart hzero hproduct
      simp only
      cases parsed with
      | true =>
        rw [← hparsed, if_pos rfl, if_pos rfl]
        exact .of_eq_some (relax_exact hzero hproduct hclosed orders hcoarse hchart htells.size _ _ _
          (Cascade.composes_new c) _) rfl
      | false =>
        rw [← hparsed]
        exact .of_eq_some rfl rfl

end Exact

end Levels

end ParseForest
