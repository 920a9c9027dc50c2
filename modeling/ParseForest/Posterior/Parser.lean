import ParseForest.Matching
import ParseForest.Posterior.Closure
import ParseForest.Site

/-!
# The scoring parser

The scoring parser finds the best score of every label at every span without building a forest.
The labels of a span come in three tiers: those that rules build, those that unary closures reach
from the first tier, and those that they reach from the second. A closure contains the label it
starts from, so each tier contains the one before it.

The inside score of a label at a span is the best score of deriving it there; the outside score is
the best score of deriving the goal around it. Their product over the inside score of the goal is
the posterior, one for the labels of the best derivation.
-/

namespace ParseForest

variable {V S : Type}

structure SpanLabel where
  first : Nat
  last : Nat
  label : Symbol
  deriving DecidableEq, Repr, Inhabited

/-- A way to build a label: the labels it is built from, and the score of the rule and of the arcs
without theirs. -/
structure ScoredEdge (S : Type) where
  tails : List SpanLabel
  score : S
  deriving Inhabited

/-- A way to get to a label from another one of its span by unary rules. -/
structure UnaryEdge (S : Type) where
  tail : Symbol
  score : S

def ScoredEdge.carrier [Score S] (w : Weighting V S) : Carrier V SpanLabel (ScoredEdge S) where
  label := SpanLabel.label
  start := ⟨[], Score.one⟩
  overEntry e l := { e with tails := e.tails ++ [l] }
  overArc e a := { e with score := Score.mul e.score (w a.features) }

abbrev EdgeMap (E : Type) := LabelMap (Array E)

namespace EdgeMap

variable {E : Type}

def edges (m : EdgeMap E) (label : Symbol) : Array E := (LabelMap.get? m label).getD #[]

def add (m : EdgeMap E) (label : Symbol) (e : E) : EdgeMap E :=
  LabelMap.upsert label (fun old => (old.getD #[]).push e) m

def has (m : EdgeMap E) (label : Symbol) : Bool := (LabelMap.get? m label).isSome

def among (m : EdgeMap E) (labels : List Symbol) : List Symbol := labels.filter m.has

def labelsAt (tier : Chart (EdgeMap E)) (labels : List Symbol) (first last : Nat) :
    List SpanLabel :=
  ((tier.get first last).among labels).map fun label => ⟨first, last, label⟩

end EdgeMap

def scoreOf [Score S] (m : LabelMap S) (label : Symbol) : S :=
  (LabelMap.get? m label).getD Score.zero

def raise [Score S] (m : LabelMap S) (label : Symbol) (score : S) : LabelMap S :=
  LabelMap.upsert label (fun old => Score.best (old.getD Score.zero) score) m

def noteLabel (labels : List Symbol) (label : Symbol) : List Symbol :=
  if labels.contains label then labels else labels ++ [label]

/-- What the scoring parser has found: the labels in the order in which they came up, the matches,
the three tiers, and the inside and outside scores. -/
structure ScoreState (V S : Type) where
  labels : List Symbol
  tracks : List (Track V (ScoredEdge S))
  built : Chart (EdgeMap (ScoredEdge S))
  closed : Chart (EdgeMap (UnaryEdge S))
  final : Chart (EdgeMap (UnaryEdge S))
  inside : Chart (LabelMap S)
  outside : Chart (LabelMap S)

namespace ScoreState

variable [Score S]

def start (grammar : Grammar V) (w : Weighting V S) (o : Options V) (size : Nat) :
    ScoreState V S where
  labels := [o.goal]
  tracks := grammar.map (Track.start (ScoredEdge.carrier w) size)
  built := Chart.new size
  closed := Chart.new size
  final := Chart.new size
  inside := Chart.new size
  outside := Chart.new size

def insideOf (st : ScoreState V S) (l : SpanLabel) : S :=
  scoreOf (st.inside.get l.first l.last) l.label

def outsideOf (st : ScoreState V S) (l : SpanLabel) : S :=
  scoreOf (st.outside.get l.first l.last) l.label

def raiseInside (st : ScoreState V S) (l : SpanLabel) (score : S) : ScoreState V S :=
  { st with inside := st.inside.modify l.first l.last fun m => raise m l.label score }

def raiseOutside (st : ScoreState V S) (l : SpanLabel) (score : S) : ScoreState V S :=
  { st with outside := st.outside.modify l.first l.last fun m => raise m l.label score }

def addBuilt (st : ScoreState V S) (l : SpanLabel) (e : ScoredEdge S) : ScoreState V S :=
  { st with
    labels := noteLabel st.labels l.label
    built := st.built.modify l.first l.last fun m => m.add l.label e }

def addUnary (st : ScoreState V S) (toFinal : Bool) (l : SpanLabel) (e : UnaryEdge S) :
    ScoreState V S :=
  if toFinal then
    { st with final := st.final.modify l.first l.last fun m => m.add l.label e }
  else
    { st with closed := st.closed.modify l.first l.last fun m => m.add l.label e }

def buildLabel (w : Weighting V S) (site : Site V) (st : ScoreState V S)
    (matched : RulePair V × ScoredEdge S) : ScoreState V S :=
  let (pair, used) := matched
  let label := (site.ruleOf pair).lhs
  if site.skips label then st
  else
    let tails := Score.product Score.one (used.tails.map st.insideOf)
    let score := Score.mul used.score (w pair.features)
    let l : SpanLabel := ⟨site.first, site.last, label⟩
    (st.addBuilt l { used with score }).raiseInside l (Score.mul tails score)

/-- Adds a label that the closure of `child` reaches, unless it is skipped; `tail` is the inside
score of `child`. -/
def reachLabel (site : Site V) (toFinal : Bool) (child : Symbol) (tail : S) (st : ScoreState V S)
    (reached : Symbol × S) : ScoreState V S :=
  let (label, score) := reached
  if site.skips label then st
  else
    let l : SpanLabel := ⟨site.first, site.last, label⟩
    (st.addUnary toFinal l ⟨child, score⟩).raiseInside l (Score.mul tail score)

def closeLabel (closure : Symbol → LabelMap S) (site : Site V) (toFinal : Bool)
    (st : ScoreState V S) (child : Symbol) : ScoreState V S :=
  let reached := closure child
  let labels := (reached.map (·.1)).foldl noteLabel st.labels
  -- by when a label first came up at any span, not by where this closure lists it
  let ordered := labels.filterMap fun label =>
    (LabelMap.get? reached label).map fun score => (label, score)
  ordered.foldl (reachLabel site toFinal child (st.insideOf ⟨site.first, site.last, child⟩))
    { st with labels }

def closeSpan (closure : Symbol → LabelMap S) (site : Site V) (st : ScoreState V S) :
    ScoreState V S :=
  -- the second pass starts from what the first one has put into the middle tier
  let st := ((st.built.get site.first site.last).among st.labels).foldl
    (closeLabel closure site false) st
  ((st.closed.get site.first site.last).among st.labels).foldl (closeLabel closure site true) st

def beginSpan (w : Weighting V S) (first last distance : Nat) (st : ScoreState V S) :
    ScoreState V S :=
  let ⟨labels, tracks, built, closed, final, inside, outside⟩ := st
  let entries := EdgeMap.labelsAt final labels first last
  let tracks := tracks.map
    (Track.beginWith (ScoredEdge.carrier w) entries first last distance)
  ⟨labels, tracks, built, closed, final, inside, outside⟩

def fillSpan (w : Weighting V S) (o : Options V) (closure : Symbol → LabelMap S)
    (lattice : Lattice V) (distances : Lattice.DistanceTable) (pruner : Pruner)
    (st : ScoreState V S) (span : Nat × Nat) : ScoreState V S :=
  let (first, last) := span
  let distance := distances.length first last
  let carrier := ScoredEdge.carrier w
  let ⟨labels, tracks, built, closed, final, inside, outside⟩ := st
  let entries := EdgeMap.labelsAt final labels
  let tracks := tracks.map (Track.advance carrier o lattice entries first last distance)
  let matched := tracks.flatMap (Track.completed first last)
  let st : ScoreState V S := ⟨labels, tracks, built, closed, final, inside, outside⟩
  let site : Site V := ⟨o, pruner, first, last⟩
  -- the tracks have advanced all the same: longer matches may pass through a skipped span
  if site.isSkipped then st
  else
    ((matched.foldl (buildLabel w site) st).closeSpan closure site).beginSpan w first last
      distance

def runInside (grammar : Grammar V) (w : Weighting V S) (o : Options V)
    (closure : Symbol → LabelMap S) (lattice : Lattice V) (pruner : Pruner) : ScoreState V S :=
  (Chart.spansByLength lattice.size).foldl
    (fillSpan w o closure lattice lattice.distanceTable pruner)
    (start grammar w o lattice.size)

def passUnary (tier : EdgeMap (UnaryEdge S)) (first last : Nat) (st : ScoreState V S)
    (label : Symbol) : ScoreState V S :=
  let head := st.outsideOf ⟨first, last, label⟩
  if Score.isZero head then st
  else
    (tier.edges label).foldl
      (fun st e => st.raiseOutside ⟨first, last, e.tail⟩ (Score.mul head e.score)) st

def siblingScores (st : ScoreState V S) (tails : List SpanLabel) (position : Nat) : List S :=
  (tails.eraseIdx position).map st.insideOf

def passEdge (head : S) (st : ScoreState V S) (e : ScoredEdge S) : ScoreState V S :=
  e.tails.zipIdx.foldl
    (fun st (tail, position) =>
      st.raiseOutside tail
        (Score.product (Score.mul head e.score) (st.siblingScores e.tails position))) st

def passBuilt (tier : EdgeMap (ScoredEdge S)) (first last : Nat) (st : ScoreState V S)
    (label : Symbol) : ScoreState V S :=
  let head := st.outsideOf ⟨first, last, label⟩
  if Score.isZero head then st else (tier.edges label).foldl (passEdge head) st

def outsideSpan (st : ScoreState V S) (span : Nat × Nat) : ScoreState V S :=
  let (first, last) := span
  let final := st.final.get first last
  let closed := st.closed.get first last
  let built := st.built.get first last
  -- a tier has all of its outside scores once the tier above it has passed its own down
  let st := (final.among st.labels).foldl (passUnary final first last) st
  let st := (closed.among st.labels).foldl (passUnary closed first last) st
  (built.among st.labels).foldl (passBuilt built first last) st

def runOutside (goal : Symbol) (size : Nat) (st : ScoreState V S) : ScoreState V S :=
  (Chart.spansFromLong size).foldl outsideSpan
    { st with outside := st.outside.modify 0 size fun m => LabelMap.insert m goal Score.one }

def spanPosteriors (st : ScoreState V S) (goalInside : S) (first last : Nat) : LabelMap S :=
  (st.inside.get first last).filterMap fun (label, inside) =>
    let joint := Score.mul inside (st.outsideOf ⟨first, last, label⟩)
    if Score.isZero joint then none else some (label, Score.div joint goalInside)

def posteriors (st : ScoreState V S) (goalInside : S) (size : Nat) : ScoreChart S :=
  (Chart.spansByLength size).foldl
    (fun c (first, last) => c.set first last (st.spanPosteriors goalInside first last))
    (Chart.new size)

end ScoreState

structure Posteriors (S : Type) where
  parsed : Bool
  scores : ScoreChart S

abbrev ClosureTable (S : Type) := LabelMap (Thunk (LabelMap S))

def closureTable [Score S] (order : ClosureOrder) (grammar : Grammar V) (w : Weighting V S)
    (o : Options V) : ClosureTable S :=
  let labels := grammar.flatMap fun t => t.pairs.map fun pair => (pair.side o.yieldSource).lhs
  labels.eraseDups.map fun label =>
    (label, Thunk.mk fun _ => unaryClosureIn order grammar w o label)

def ClosureTable.closure [Score S] (table : ClosureTable S) (order : ClosureOrder)
    (grammar : Grammar V) (w : Weighting V S) (o : Options V) (label : Symbol) : LabelMap S :=
  match LabelMap.get? table label with
  | some kept => kept.get
  | none => unaryClosureIn order grammar w o label

theorem closure_closureTable [Score S] (order : ClosureOrder) (grammar : Grammar V)
    (w : Weighting V S) (o : Options V) (label : Symbol) :
    (closureTable order grammar w o).closure order grammar w o label =
      unaryClosureIn order grammar w o label := by
  have key (labels : List Symbol) :
      ClosureTable.closure
        (labels.map fun l => (l, Thunk.mk fun _ => unaryClosureIn order grammar w o l))
        order grammar w o label = unaryClosureIn order grammar w o label := by
    induction labels with
    | nil => rfl
    | cons l rest ih =>
      simp only [ClosureTable.closure, LabelMap.get?, List.map_cons, List.lookup_cons]
      by_cases h : label = l
      · simp [h, Thunk.get]
      · rw [beq_eq_false_iff_ne.mpr h]
        exact ih
  exact key _

structure ScoreParser (V S : Type) where
  grammar : Grammar V
  weighting : Weighting V S
  options : Options V
  state : ScoreState V S

namespace ScoreParser

variable [Score S]

def new (grammar : Grammar V) (weighting : Weighting V S) (options : Options V) :
    ScoreParser V S :=
  ⟨grammar, weighting, options, ScoreState.start [] weighting options 0⟩

/-- The posteriors of a lattice under the labels that the pruner leaves, with closures that go
through their labels in the order of `order`. The chart is blank when the goal is not derivable. An
empty lattice leaves the charts of the parser as they are. -/
def parseIn (order : ClosureOrder) (p : ScoreParser V S) (lattice : Lattice V) (pruner : Pruner) :
    ScoreParser V S × Posteriors S :=
  let blank := Chart.new lattice.size
  if lattice.isEmpty then (p, ⟨false, blank⟩)
  else
    let closures := closureTable order p.grammar p.weighting p.options
    let st := ScoreState.runInside p.grammar p.weighting p.options
      (closures.closure order p.grammar p.weighting p.options) lattice pruner
    let goalInside := st.insideOf ⟨0, lattice.size, p.options.goal⟩
    if Score.isZero goalInside then ({ p with state := st }, ⟨false, blank⟩)
    else
      let st := st.runOutside p.options.goal lattice.size
      ({ p with state := st }, ⟨true, st.posteriors goalInside lattice.size⟩)

def parse (p : ScoreParser V S) (lattice : Lattice V) (pruner : Pruner) :
    ScoreParser V S × Posteriors S :=
  p.parseIn .arrival lattice pruner

def parse? (p : ScoreParser V S) (lattice : Lattice V) (pruner : Pruner) :
    Option (ScoreParser V S × Posteriors S) :=
  if lattice.isEmpty || pruner.knows lattice.size then some (p.parse lattice pruner) else none

end ScoreParser

def posteriorsIn [Score S] (order : ClosureOrder) (grammar : Grammar V) (w : Weighting V S)
    (o : Options V) (lattice : Lattice V) (pruner : Pruner) : Posteriors S :=
  ((ScoreParser.new grammar w o).parseIn order lattice pruner).2

end ParseForest
