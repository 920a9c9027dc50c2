import Mathlib.Algebra.Order.Ring.NNRat
import Mathlib.Order.Hom.Basic
import ParseForest.Proofs.Posterior.Mapped

/-!
# Scores in another representation

The scoring parser multiplies, divides and compares scores and asks whether they are zero. A map
of score types that all of this goes along with can be taken before or after any step: it carries
matches, closures, tiers and charts of a parse over to those of a parse with the mapped weighting.
An order embedding that keeps zero, one, products and quotients is such a map. The sum of a score
type plays no part.
-/

namespace ParseForest

variable {V S T : Type}

/-! ## Maps of scores -/

class OrderedScore (S : Type) [Score S] [Preorder S] : Prop where
  less_iff (a b : S) : Score.less a b = true ↔ a < b
  isZero_iff (a : S) : Score.isZero a = true ↔ a = Score.zero

instance [Score S] [LinearOrder S] [LawfulScore S] : OrderedScore S :=
  ⟨LawfulScore.less_iff, LawfulScore.isZero_iff⟩

/-- A map that the operations and tests of the scoring parser go along with. -/
structure Score.Embedding (S T : Type) [Score S] [Score T] where
  toFun : S → T
  zero : toFun Score.zero = Score.zero
  one : toFun Score.one = Score.one
  mul (a b : S) : toFun (Score.mul a b) = Score.mul (toFun a) (toFun b)
  div (a b : S) : toFun (Score.div a b) = Score.div (toFun a) (toFun b)
  less (a b : S) : Score.less (toFun a) (toFun b) = Score.less a b
  isZero (a : S) : Score.isZero (toFun a) = Score.isZero a

variable [Score S] [Score T]

namespace Score.Embedding

instance : CoeFun (Score.Embedding S T) fun _ => S → T := ⟨toFun⟩

def ofOrderEmbedding [Preorder S] [Preorder T] [OrderedScore S] [OrderedScore T] (h : S ↪o T)
    (hzero : h Score.zero = Score.zero) (hone : h Score.one = Score.one)
    (hmul : ∀ a b, h (Score.mul a b) = Score.mul (h a) (h b))
    (hdiv : ∀ a b, h (Score.div a b) = Score.div (h a) (h b)) : Score.Embedding S T where
  toFun := h
  zero := hzero
  one := hone
  mul := hmul
  div := hdiv
  less a b := by
    rw [Bool.eq_iff_iff, OrderedScore.less_iff, OrderedScore.less_iff, h.lt_iff_lt]
  isZero a := by
    rw [Bool.eq_iff_iff, OrderedScore.isZero_iff, OrderedScore.isZero_iff, ← hzero,
      h.injective.eq_iff]

variable (h : Score.Embedding S T)

theorem best (a b : S) : h (Score.best a b) = Score.best (h a) (h b) := by
  rw [Score.best, Score.best, h.less]
  split <;> rfl

theorem product (start : S) (xs : List S) :
    Score.product (h start) (xs.map h) = h (Score.product start xs) := by
  rw [Score.product, Score.product, List.foldl_map]
  exact List.foldl_hom h fun a b => (h.mul a b).symm

theorem scoreOf (m : LabelMap S) (label : Symbol) :
    ParseForest.scoreOf (m.mapValues h) label = h (ParseForest.scoreOf m label) := by
  rw [ParseForest.scoreOf, ParseForest.scoreOf, LabelMap.get?_mapValues, ← h.zero]
  cases LabelMap.get? m label <;> rfl

theorem raise (m : LabelMap S) (label : Symbol) (x : S) :
    (ParseForest.raise m label x).mapValues h = ParseForest.raise (m.mapValues h) label (h x) := by
  refine LabelMap.mapValues_upsert m label fun old => ?_
  rw [h.best, ← h.zero]
  cases old <;> rfl

end Score.Embedding

variable (h : Score.Embedding S T)

/-! ## Closures -/

namespace Closure

variable {g : Grammar V} {w : Weighting V S} {o : Options V} {child : Symbol}

theorem improve_map (closure : LabelMap S) (label : Symbol) (x : S) :
    improve (closure.mapValues h) label (h x) =
      Prod.map (LabelMap.mapValues h) id (improve closure label x) := by
  unfold improve
  rw [LabelMap.get?_mapValues, ← LabelMap.mapValues_insert]
  cases LabelMap.get? closure label with
  | none => rfl
  | some old =>
    simp only [Option.map_some, h.less]
    split <;> rfl

theorem applyPair_map (x : S) (st : LabelMap S × Bool) (pair : RulePair V) :
    applyPair (h ∘ w) o child (h x) (Prod.map (LabelMap.mapValues h) id st) pair =
      Prod.map (LabelMap.mapValues h) id (applyPair w o child x st pair) := by
  unfold applyPair
  simp only [Function.comp_apply, Prod.map_fst, ← h.mul, improve_map]
  split <;> rfl

theorem roundIn_map (labels : List Symbol) (closure : LabelMap S) :
    roundIn labels g (h ∘ w) o child (closure.mapValues h) =
      Prod.map (LabelMap.mapValues h) id (roundIn labels g w o child closure) := by
  unfold roundIn
  rw [LabelMap.inOrder_mapValues, LabelMap.mapValues.eq_def h (LabelMap.inOrder labels closure),
    List.foldl_map]
  change List.foldl _ (Prod.map (LabelMap.mapValues h) id (closure, false)) _ = _
  refine List.foldl_hom _ fun st kv => ?_
  exact List.foldl_hom _ fun st pair => applyPair_map h kv.2 st pair

/-- Rounds are as many over both score types: they end by labels and by comparisons. -/
theorem roundsFromIn_map (order : ClosureOrder) (fuel n stagnant : Nat) (closure : LabelMap S) :
    roundsFromIn order g (h ∘ w) o child fuel n stagnant (closure.mapValues h) =
      (roundsFromIn order g w o child fuel n stagnant closure).mapValues h := by
  induction fuel generalizing n stagnant closure with
  | zero => rfl
  | succ fuel ih =>
    have hlength (m : LabelMap S) : (m.mapValues h).length = m.length := List.length_map _
    rw [roundsFromIn, roundsFromIn]
    simp only [LabelMap.keys_mapValues, roundIn_map, Prod.map_fst, Prod.map_snd, id_eq, hlength, ih,
      apply_ite (LabelMap.mapValues h)]

end Closure

theorem unaryClosureIn_map (order : ClosureOrder) (g : Grammar V) (w : Weighting V S)
    (o : Options V) (child : Symbol) :
    unaryClosureIn order g (h ∘ w) o child =
      (unaryClosureIn order g w o child).mapValues h := by
  rw [unaryClosureIn, unaryClosureIn, ← Closure.roundsFromIn_map]
  exact congrArg _ (congrArg (fun x => [(child, x)]) h.one.symm)

/-! ## States of the parser -/

def ScoredEdge.map (e : ScoredEdge S) : ScoredEdge T := ⟨e.tails, h e.score⟩

def UnaryEdge.map (e : UnaryEdge S) : UnaryEdge T := ⟨e.tail, h e.score⟩

theorem ScoredEdge.along_carrier (w : Weighting V S) :
    (carrier w).Along (carrier (h ∘ w)) (ScoredEdge.map h) where
  label := rfl
  start := congrArg (ScoredEdge.mk []) h.one.symm
  overEntry _ _ := rfl
  overArc e a := congrArg (ScoredEdge.mk e.tails) (h.mul e.score (w a.features)).symm

namespace ScoreState

def map (st : ScoreState V S) : ScoreState V T where
  labels := st.labels
  tracks := st.tracks.map (Track.map (ScoredEdge.map h))
  built := st.built.map (EdgeMap.map (ScoredEdge.map h))
  closed := st.closed.map (EdgeMap.map (UnaryEdge.map h))
  final := st.final.map (EdgeMap.map (UnaryEdge.map h))
  inside := st.inside.map (LabelMap.mapValues h)
  outside := st.outside.map (LabelMap.mapValues h)

theorem map_start (g : Grammar V) (w : Weighting V S) (o : Options V) (size : Nat) :
    (start g w o size).map h = start g (h ∘ w) o size := by
  have htracks : (g.map (Track.start (ScoredEdge.carrier w) size)).map
      (Track.map (ScoredEdge.map h)) = g.map (Track.start (ScoredEdge.carrier (h ∘ w)) size) := by
    rw [List.map_map]
    exact List.map_congr_left fun t _ => Track.map_start (ScoredEdge.along_carrier h w) size t
  simp only [start, map, htracks, Chart.map_new (f := EdgeMap.map (ScoredEdge.map h)) rfl,
    Chart.map_new (f := EdgeMap.map (UnaryEdge.map h)) rfl,
    Chart.map_new (f := LabelMap.mapValues h) rfl]

theorem insideOf_map (st : ScoreState V S) (l : SpanLabel) :
    (st.map h).insideOf l = h (st.insideOf l) := by
  rw [insideOf, map, Chart.get_map (f := LabelMap.mapValues h) rfl, h.scoreOf]
  rfl

theorem outsideOf_map (st : ScoreState V S) (l : SpanLabel) :
    (st.map h).outsideOf l = h (st.outsideOf l) := by
  rw [outsideOf, map, Chart.get_map (f := LabelMap.mapValues h) rfl, h.scoreOf]
  rfl

theorem map_raiseInside (st : ScoreState V S) (l : SpanLabel) (x : S) :
    (st.raiseInside l x).map h = (st.map h).raiseInside l (h x) := by
  rw [raiseInside, map, st.inside.map_modify l.first l.last fun m => h.raise m l.label x]
  rfl

theorem map_raiseOutside (st : ScoreState V S) (l : SpanLabel) (x : S) :
    (st.raiseOutside l x).map h = (st.map h).raiseOutside l (h x) := by
  rw [raiseOutside, map, st.outside.map_modify l.first l.last fun m => h.raise m l.label x]
  rfl

theorem map_addBuilt (st : ScoreState V S) (l : SpanLabel) (e : ScoredEdge S) :
    (st.addBuilt l e).map h = (st.map h).addBuilt l (e.map h) := by
  rw [addBuilt, map, st.built.map_modify l.first l.last fun m => EdgeMap.map_add m l.label e]
  rfl

theorem map_addUnary (st : ScoreState V S) (toFinal : Bool) (l : SpanLabel) (e : UnaryEdge S) :
    (st.addUnary toFinal l e).map h = (st.map h).addUnary toFinal l (e.map h) := by
  cases toFinal with
  | true =>
    rw [addUnary, addUnary, if_pos rfl, if_pos rfl, map,
      st.final.map_modify l.first l.last fun m => EdgeMap.map_add m l.label e]
    rfl
  | false =>
    rw [addUnary, addUnary, if_neg Bool.false_ne_true, if_neg Bool.false_ne_true, map,
      st.closed.map_modify l.first l.last fun m => EdgeMap.map_add m l.label e]
    rfl

/-! ## Inside scores -/

theorem buildLabel_map (w : Weighting V S) (site : Site V) (st : ScoreState V S)
    (matched : RulePair V × ScoredEdge S) :
    buildLabel (h ∘ w) site (st.map h) (Prod.map id (ScoredEdge.map h) matched) =
      (buildLabel w site st matched).map h := by
  obtain ⟨pair, used⟩ := matched
  have htails : Score.product Score.one ((used.map h).tails.map (st.map h).insideOf) =
      h (Score.product Score.one (used.tails.map st.insideOf)) := by
    rw [← h.product, h.one, List.map_map]
    congr 1
    exact List.map_congr_left fun l _ => insideOf_map h st l
  unfold buildLabel
  simp only [Prod.map_apply, id_eq, htails, Function.comp_apply]
  split
  · rfl
  · rw [map_raiseInside, map_addBuilt, h.mul]
    simp only [ScoredEdge.map, h.mul]

theorem reachLabel_map (site : Site V) (toFinal : Bool) (child : Symbol) (tail : S)
    (st : ScoreState V S) (reached : Symbol × S) :
    reachLabel site toFinal child (h tail) (st.map h) (reached.1, h reached.2) =
      (reachLabel site toFinal child tail st reached).map h := by
  obtain ⟨label, x⟩ := reached
  unfold reachLabel
  simp only
  split
  · rfl
  · rw [map_raiseInside, map_addUnary, h.mul]
    rfl

theorem closeLabel_map {closure : Symbol → LabelMap S} (site : Site V) (toFinal : Bool)
    (st : ScoreState V S) (child : Symbol) :
    closeLabel (fun label => (closure label).mapValues h) site toFinal (st.map h) child =
      (closeLabel closure site toFinal st child).map h := by
  have hlabels : ((closure child).mapValues h).map (·.1) = (closure child).map (·.1) :=
    LabelMap.keys_mapValues (closure child)
  unfold closeLabel
  simp only [hlabels, insideOf_map]
  rw [show (st.map h).labels = st.labels from rfl]
  generalize ((closure child).map (·.1)).foldl noteLabel st.labels = labels
  have hordered : (labels.filterMap fun label =>
      (LabelMap.get? ((closure child).mapValues h) label).map fun x => (label, x)) =
        ((closure child).inOrder labels).mapValues h := LabelMap.inOrder_mapValues labels _
  rw [hordered, LabelMap.mapValues, List.foldl_map]
  change List.foldl _ (map h { st with labels }) _ = _
  exact List.foldl_hom (map h) fun st' kv =>
    reachLabel_map h site toFinal child (st.insideOf ⟨site.first, site.last, child⟩) st' kv

theorem closeSpan_map {closure : Symbol → LabelMap S} (site : Site V) (st : ScoreState V S) :
    closeSpan (fun label => (closure label).mapValues h) site (st.map h) =
      (closeSpan closure site st).map h := by
  have hbuilt : ((st.map h).built.get site.first site.last).among (st.map h).labels =
      (st.built.get site.first site.last).among st.labels := by
    rw [map, Chart.get_map (f := EdgeMap.map (ScoredEdge.map h)) rfl, EdgeMap.among_map]
  have hclosed (st : ScoreState V S) :
      ((st.map h).closed.get site.first site.last).among (st.map h).labels =
        (st.closed.get site.first site.last).among st.labels := by
    rw [map, Chart.get_map (f := EdgeMap.map (UnaryEdge.map h)) rfl, EdgeMap.among_map]
  have hfold (toFinal : Bool) (st : ScoreState V S) (labels : List Symbol) :
      labels.foldl (closeLabel (fun label => (closure label).mapValues h) site toFinal)
        (st.map h) = (labels.foldl (closeLabel closure site toFinal) st).map h :=
    List.foldl_hom (map h) fun st label => closeLabel_map h site toFinal st label
  unfold closeSpan
  simp only [hbuilt, hfold, hclosed]

theorem beginSpan_map (w : Weighting V S) (first last distance : Nat) (st : ScoreState V S) :
    beginSpan (h ∘ w) first last distance (st.map h) =
      (beginSpan w first last distance st).map h := by
  unfold beginSpan
  simp only [map, EdgeMap.labelsAt_map, List.map_map]
  congr 1
  exact List.map_congr_left fun tr _ =>
    Track.beginWith_map (ScoredEdge.along_carrier h w) _ first last distance tr

theorem fillSpan_map (w : Weighting V S) (o : Options V) {closure : Symbol → LabelMap S}
    (lattice : Lattice V) (distances : Lattice.DistanceTable) (pruner : Pruner)
    (st : ScoreState V S) (span : Nat × Nat) :
    fillSpan (h ∘ w) o (fun label => (closure label).mapValues h) lattice distances pruner
        (st.map h) span =
      (fillSpan w o closure lattice distances pruner st span).map h := by
  obtain ⟨labels, tracks, built, closed, final, inside, outside⟩ := st
  obtain ⟨first, last⟩ := span
  have htracks : (tracks.map (Track.map (ScoredEdge.map h))).map
      (Track.advance (ScoredEdge.carrier (h ∘ w)) o lattice
        (EdgeMap.labelsAt (final.map (EdgeMap.map (UnaryEdge.map h))) labels) first last
        (distances.length first last)) =
      (tracks.map (Track.advance (ScoredEdge.carrier w) o lattice (EdgeMap.labelsAt final labels)
        first last (distances.length first last))).map (Track.map (ScoredEdge.map h)) := by
    have hentries : EdgeMap.labelsAt (final.map (EdgeMap.map (UnaryEdge.map h))) labels =
        EdgeMap.labelsAt final labels := by
      funext first last
      exact EdgeMap.labelsAt_map final labels first last
    rw [hentries, List.map_map, List.map_map]
    exact List.map_congr_left fun tr _ =>
      Track.advance_map (ScoredEdge.along_carrier h w) o lattice _ first last _ tr
  unfold fillSpan
  simp only [map, htracks]
  generalize tracks.map _ = tracks
  have hmatched : (tracks.map (Track.map (ScoredEdge.map h))).flatMap
      (Track.completed first last) =
        (tracks.flatMap (Track.completed first last)).map
          (Prod.map id (ScoredEdge.map h)) := by
    rw [List.flatMap_map, List.map_flatMap]
    congr 1
    funext tr
    exact Track.completed_map first last tr
  have hbuild (site : Site V) (st : ScoreState V S) (matched : List (RulePair V × ScoredEdge S)) :
      (matched.map (Prod.map id (ScoredEdge.map h))).foldl (buildLabel (h ∘ w) site) (st.map h) =
        (matched.foldl (buildLabel w site) st).map h := by
    rw [List.foldl_map]
    exact List.foldl_hom (map h) fun st m => buildLabel_map h w site st m
  split
  · rfl
  · rw [hmatched]
    refine (congrArg _ (congrArg _ (hbuild ⟨o, pruner, first, last⟩
      ⟨labels, tracks, built, closed, final, inside, outside⟩ _))).trans ?_
    rw [closeSpan_map, beginSpan_map]
    rfl

theorem runInside_map (g : Grammar V) (w : Weighting V S) (o : Options V)
    {closure : Symbol → LabelMap S} (lattice : Lattice V) (pruner : Pruner) :
    runInside g (h ∘ w) o (fun label => (closure label).mapValues h) lattice pruner =
      (runInside g w o closure lattice pruner).map h := by
  rw [runInside, runInside, ← map_start]
  exact List.foldl_hom (map h) fun st span =>
    fillSpan_map h w o lattice lattice.distanceTable pruner st span

/-! ## Outside scores and posteriors -/

theorem passUnary_map (tier : EdgeMap (UnaryEdge S)) (first last : Nat) (st : ScoreState V S)
    (label : Symbol) :
    passUnary (EdgeMap.map (UnaryEdge.map h) tier) first last (st.map h) label =
      (passUnary tier first last st label).map h := by
  unfold passUnary
  simp only [outsideOf_map, h.isZero, EdgeMap.edges_map]
  split
  · rfl
  · rw [Array.foldl_map]
    refine Array.foldl_hom (map h) fun st e => ?_
    rw [map_raiseOutside, h.mul]
    rfl

theorem passEdge_map (head : S) (st : ScoreState V S) (e : ScoredEdge S) :
    passEdge (h head) (st.map h) (e.map h) = (passEdge head st e).map h := by
  refine List.foldl_hom (map h) fun st tail => ?_
  have hsiblings : (st.map h).siblingScores e.tails tail.2 =
      (st.siblingScores e.tails tail.2).map h := by
    rw [siblingScores, siblingScores, List.map_map]
    exact List.map_congr_left fun l _ => insideOf_map h st l
  rw [map_raiseOutside, ← h.product, h.mul]
  exact congrArg (fun scores => (st.map h).raiseOutside tail.1 (Score.product _ scores)) hsiblings

theorem passBuilt_map (tier : EdgeMap (ScoredEdge S)) (first last : Nat) (st : ScoreState V S)
    (label : Symbol) :
    passBuilt (EdgeMap.map (ScoredEdge.map h) tier) first last (st.map h) label =
      (passBuilt tier first last st label).map h := by
  unfold passBuilt
  simp only [outsideOf_map, h.isZero, EdgeMap.edges_map]
  split
  · rfl
  · rw [Array.foldl_map]
    exact Array.foldl_hom (map h) fun st e => passEdge_map h _ st e

theorem outsideSpan_map (st : ScoreState V S) (span : Nat × Nat) :
    outsideSpan (st.map h) span = (outsideSpan st span).map h := by
  obtain ⟨first, last⟩ := span
  have hfinal : (st.map h).final.get first last =
      EdgeMap.map (UnaryEdge.map h) (st.final.get first last) :=
    Chart.get_map (f := EdgeMap.map (UnaryEdge.map h)) rfl st.final first last
  have hclosed : (st.map h).closed.get first last =
      EdgeMap.map (UnaryEdge.map h) (st.closed.get first last) :=
    Chart.get_map (f := EdgeMap.map (UnaryEdge.map h)) rfl st.closed first last
  have hbuilt : (st.map h).built.get first last =
      EdgeMap.map (ScoredEdge.map h) (st.built.get first last) :=
    Chart.get_map (f := EdgeMap.map (ScoredEdge.map h)) rfl st.built first last
  have hunary (tier : EdgeMap (UnaryEdge S)) (st : ScoreState V S) (labels : List Symbol) :
      labels.foldl (passUnary (EdgeMap.map (UnaryEdge.map h) tier) first last) (st.map h) =
        (labels.foldl (passUnary tier first last) st).map h :=
    List.foldl_hom (map h) fun st label => passUnary_map h tier first last st label
  have hpass (tier : EdgeMap (ScoredEdge S)) (st : ScoreState V S) (labels : List Symbol) :
      labels.foldl (passBuilt (EdgeMap.map (ScoredEdge.map h) tier) first last) (st.map h) =
        (labels.foldl (passBuilt tier first last) st).map h :=
    List.foldl_hom (map h) fun st label => passBuilt_map h tier first last st label
  have hlabels (st : ScoreState V S) : (st.map h).labels = st.labels := rfl
  unfold outsideSpan
  simp only [hfinal, hclosed, hbuilt, EdgeMap.among_map, hlabels, hunary, hpass]

theorem runOutside_map (goal : Symbol) (size : Nat) (st : ScoreState V S) :
    runOutside goal size (st.map h) = (runOutside goal size st).map h := by
  have hgoal :
      map h { st with outside := st.outside.modify 0 size (LabelMap.insert · goal Score.one) } =
        { st.map h with
          outside := (st.map h).outside.modify 0 size (LabelMap.insert · goal Score.one) } := by
    have hinsert (m : LabelMap S) : (LabelMap.insert m goal Score.one).mapValues h =
        LabelMap.insert (m.mapValues h) goal Score.one := by
      rw [LabelMap.mapValues_insert, h.one]
    rw [map, st.outside.map_modify 0 size hinsert]
    rfl
  rw [runOutside, runOutside, ← hgoal]
  exact List.foldl_hom (map h) fun st span => outsideSpan_map h st span

theorem spanPosteriors_map (st : ScoreState V S) (goalInside : S) (first last : Nat) :
    (st.map h).spanPosteriors (h goalInside) first last =
      (st.spanPosteriors goalInside first last).mapValues h := by
  have hinside : (st.map h).inside.get first last = (st.inside.get first last).mapValues h :=
    Chart.get_map (f := LabelMap.mapValues h) rfl st.inside first last
  unfold spanPosteriors
  rw [hinside, LabelMap.mapValues.eq_def h (List.filterMap _ _), List.map_filterMap,
    LabelMap.mapValues, List.filterMap_map]
  refine List.filterMap_congr fun kv _ => ?_
  simp only [Function.comp_apply, outsideOf_map, ← h.mul, h.isZero, ← h.div]
  split <;> rfl

theorem posteriors_map (st : ScoreState V S) (goalInside : S) (size : Nat) :
    (st.map h).posteriors (h goalInside) size =
      (st.posteriors goalInside size).map (LabelMap.mapValues h) := by
  rw [posteriors, posteriors, ← Chart.map_new (f := LabelMap.mapValues h) rfl]
  refine List.foldl_hom (Chart.map (LabelMap.mapValues h)) fun c span => ?_
  simp only [spanPosteriors_map, Chart.map_set]

end ScoreState

/-! ## Parses -/

def Posteriors.map (f : S → T) (ps : Posteriors S) : Posteriors T :=
  ⟨ps.parsed, ps.scores.map (LabelMap.mapValues f)⟩

namespace ScoreParser

theorem parseIn_map (order : ClosureOrder) (p : ScoreParser V S) (q : ScoreParser V T)
    (hgrammar : q.grammar = p.grammar) (hoptions : q.options = p.options)
    (hweighting : ∀ f, q.weighting f = h (p.weighting f)) (lattice : Lattice V)
    (pruner : Pruner) :
    (q.parseIn order lattice pruner).2 = (p.parseIn order lattice pruner).2.map h := by
  have hblank : (Chart.new lattice.size : ScoreChart S).map (LabelMap.mapValues h) =
      Chart.new lattice.size := Chart.map_new (f := LabelMap.mapValues h) rfl lattice.size
  have hclosure : unaryClosureIn order p.grammar (h ∘ p.weighting) p.options =
      fun label => (unaryClosureIn order p.grammar p.weighting p.options label).mapValues h :=
    funext (unaryClosureIn_map h order p.grammar p.weighting p.options)
  have hscored : ScoreState.scored order q.grammar q.weighting q.options lattice pruner =
      (ScoreState.scored order p.grammar p.weighting p.options lattice pruner).map h := by
    rw [hgrammar, hoptions, show q.weighting = h ∘ p.weighting from funext hweighting,
      ScoreState.scored, hclosure, ScoreState.runInside_map, ScoreState.scored]
  cases hempty : lattice.isEmpty with
  | true => rw [parseIn_of_empty q hempty, parseIn_of_empty p hempty, Posteriors.map, hblank]
  | false =>
    rw [parseIn_eq_of q hempty, parseIn_eq_of p hempty, hscored, hoptions]
    simp only [ScoreState.insideOf_map, h.isZero]
    split
    · rw [Posteriors.map, hblank]
    · rw [ScoreState.runOutside_map, ScoreState.posteriors_map]
      rfl

/-- Posteriors go along with an order embedding of score types that keeps zero, one, products and
quotients: the goal is parsed over both types or over neither, and every span has the same labels,
with the mapped values. This holds in whatever order closures go through their labels. -/
theorem parse_eq_map [Preorder S] [Preorder T] [OrderedScore S] [OrderedScore T] (h : S ↪o T)
    (hzero : h Score.zero = Score.zero) (hone : h Score.one = Score.one)
    (hmul : ∀ a b, h (Score.mul a b) = Score.mul (h a) (h b))
    (hdiv : ∀ a b, h (Score.div a b) = Score.div (h a) (h b))
    (p : ScoreParser V S) (q : ScoreParser V T)
    (hgrammar : q.grammar = p.grammar) (hoptions : q.options = p.options)
    (hweighting : ∀ f, q.weighting f = h (p.weighting f)) (lattice : Lattice V)
    (pruner : Pruner) :
    (q.parse lattice pruner).2 = (p.parse lattice pruner).2.map h ∧
      ∀ order, (q.parseIn order lattice pruner).2 =
        (p.parseIn order lattice pruner).2.map h := by
  have hin (order : ClosureOrder) : (q.parseIn order lattice pruner).2 =
      (p.parseIn order lattice pruner).2.map h :=
    parseIn_map (.ofOrderEmbedding h hzero hone hmul hdiv) order p q hgrammar hoptions hweighting
      lattice pruner
  exact ⟨hin .arrival, hin⟩

end ScoreParser

/-! ## Binary logarithms -/

inductive BinaryLog
  | zero
  | power (k : ℤ)

namespace BinaryLog

instance : Score BinaryLog where
  zero := zero
  one := power 0
  add
    | zero, b => b
    | a, zero => a
    | power k, power l => if k ≤ l then power l else power k
  mul
    | power k, power l => power (k + l)
    | _, _ => zero
  div
    | power k, power l => power (k - l)
    | _, _ => zero
  less
    | zero, power _ => true
    | power k, power l => decide (k < l)
    | _, zero => false
  isZero
    | zero => true
    | power _ => false

def value : BinaryLog → ℚ≥0
  | zero => 0
  | power k => ((2 : ℕ) : ℚ≥0) ^ k

theorem value_power (k : ℤ) : value (power k) = 2 ^ k := congrArg (· ^ k) Nat.cast_ofNat

theorem value_pos (k : ℤ) : 0 < value (power k) := value_power k ▸ zpow_pos two_pos k

theorem value_injective : Function.Injective value := by
  rintro (_ | k) (_ | l) heq
  · rfl
  · exact absurd heq (value_pos l).ne
  · exact absurd heq (value_pos k).ne'
  · rw [value_power, value_power] at heq
    rw [zpow_right_injective₀ two_pos (OfNat.ofNat_ne_one 2) heq]

instance : PartialOrder BinaryLog := PartialOrder.lift value value_injective

theorem less_iff (a b : BinaryLog) : Score.less a b = true ↔ value a < value b := by
  cases a with
  | zero =>
    cases b with
    | zero => exact iff_of_false Bool.false_ne_true (lt_irrefl _)
    | power l => exact iff_of_true rfl (value_pos l)
  | power k =>
    cases b with
    | zero => exact iff_of_false Bool.false_ne_true (value_pos k).not_gt
    | power l =>
      rw [value_power, value_power, zpow_lt_zpow_iff_right₀ one_lt_two]
      exact decide_eq_true_iff

instance : OrderedScore BinaryLog where
  less_iff := less_iff
  isZero_iff
    | zero => iff_of_true rfl rfl
    | power _ => iff_of_false Bool.false_ne_true nofun

def valueEmbedding : BinaryLog ↪o ℚ≥0 := ⟨⟨value, value_injective⟩, Iff.rfl⟩

theorem value_mul (a b : BinaryLog) : value (Score.mul a b) = Score.mul (value a) (value b) := by
  cases a with
  | zero => exact (zero_mul _).symm
  | power k =>
    cases b with
    | zero => exact (mul_zero _).symm
    | power l =>
      change value (power (k + l)) = value (power k) * value (power l)
      rw [value_power, value_power, value_power, zpow_add₀ two_ne_zero]

theorem value_div (a b : BinaryLog) : value (Score.div a b) = Score.div (value a) (value b) := by
  cases a with
  | zero => exact (zero_div _).symm
  | power k =>
    cases b with
    | zero => exact (div_zero _).symm
    | power l =>
      change value (power (k - l)) = value (power k) / value (power l)
      rw [value_power, value_power, value_power, zpow_sub₀ two_ne_zero]

/-- Rules of probability one half, over logarithms and over probabilities. -/
theorem parse_eq_map_value :
    let g := [RuleTable.ofText "[S] ||| [A,1]\n[A] ||| [S,1]\n[A] ||| a"]
    let p := ScoreParser.new g (fun _ => .power (-1) : Weighting Float BinaryLog)
      Options.standard
    let q := ScoreParser.new g (fun _ => 1 / 2 : Weighting Float ℚ≥0) Options.standard
    let lattice := Lattice.ofWords [⟨"a"⟩]
    (valueEmbedding Score.zero = Score.zero ∧ valueEmbedding Score.one = Score.one ∧
      (∀ a b, valueEmbedding (Score.mul a b) = Score.mul (valueEmbedding a) (valueEmbedding b)) ∧
      (∀ a b, valueEmbedding (Score.div a b) = Score.div (valueEmbedding a) (valueEmbedding b)) ∧
      q.grammar = p.grammar ∧ q.options = p.options ∧
      ∀ f, q.weighting f = valueEmbedding (p.weighting f)) ∧
        (p.parse lattice .none).2.parsed = true ∧
        (q.parse lattice .none).2 = (p.parse lattice .none).2.map valueEmbedding ∧
        ∀ order, (q.parseIn order lattice .none).2 =
          (p.parseIn order lattice .none).2.map valueEmbedding := by
  intro g p q lattice
  have hone : valueEmbedding Score.one = Score.one := zpow_zero _
  have hweighting : ∀ f, q.weighting f = valueEmbedding (p.weighting f) := fun _ => by
    change (1 / 2 : ℚ≥0) = value (power (-1))
    rw [value_power, zpow_neg_one, one_div]
  have hparsed : (p.parse lattice .none).2.parsed = true := by decide +kernel
  exact ⟨⟨rfl, hone, value_mul, value_div, rfl, rfl, hweighting⟩, hparsed,
    ScoreParser.parse_eq_map valueEmbedding rfl hone value_mul value_div p q rfl rfl hweighting
      lattice .none⟩

end BinaryLog

end ParseForest
