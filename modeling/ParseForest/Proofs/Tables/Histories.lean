import ParseForest.Proofs.Tables.Safety

/-!
# Parsers that have parsed before

A parser is called again and again, and each call finds what the calls before it have left in the
tables: charts of another size, labels with other numbers, closures under those numbers, a search
that ended when the goal was not found. A call makes all of them anew before it reads them, or reads
none when the lattice is empty. So it answers as the first call of a new parser does.
-/

namespace ParseForest

variable {V S : Type}

structure Call (V : Type) where
  lattice : Lattice V
  pruner : Pruner

def Call.Known (c : Call V) : Prop :=
  c.lattice.isEmpty = true ∨ c.pruner.knows c.lattice.size = true

structure ScoreCall (V S : Type) extends Call V where
  order : ClosureOrder
  chart : ScoreChart S

/-! ## Forests -/

def ForestParser.after [Scalar V] (p : ForestParser V) (calls : List (Call V)) : ForestParser V :=
  calls.foldl (fun p c => (p.parse c.lattice c.pruner).1) p

theorem ForestParser.parse_after [Scalar V] (p : ForestParser V) (calls : List (Call V))
    (c : Call V) : ((p.after calls).parse c.lattice c.pruner).2 =
      forest p.grammar p.options c.lattice c.pruner := by
  induction calls generalizing p with
  | nil =>
    unfold after forest parse
    cases c.lattice.isEmpty <;> rfl
  | cons first calls ih =>
    have hkept : (p.parse first.lattice first.pruner).1.grammar = p.grammar ∧
        (p.parse first.lattice first.pruner).1.options = p.options := by
      unfold parse
      cases first.lattice.isEmpty <;> exact ⟨rfl, rfl⟩
    rw [← hkept.1, ← hkept.2]
    exact ih _

namespace ForestTables

variable [Scalar V] (g : Grammar V) (o : Options V)

def after? (calls : List (Call V)) : Option (ForestTables V) :=
  calls.foldlM (fun m c => (parse? g o c.lattice c.pruner m).map (·.1)) blank

def answer? (m : ForestTables V) (c : Call V) : Option (Hypergraph V) :=
  (parse? g o c.lattice c.pruner m).map (·.2)

variable {g o}

theorem answer?_eq (m m' : ForestTables V) (c : Call V) : answer? g o m c = answer? g o m' c := by
  unfold answer? parse?
  split
  · rfl
  · rw [run?_eq m m']

theorem exists_after (hclosed : ∀ t ∈ g, t.Closed) {calls : List (Call V)}
    (hcalls : ∀ c ∈ calls, c.Known) : ∃ m, after? g o calls = some m := by
  have hrun : Yields (after? g o calls) fun _ => True := by
    refine yields_foldlM_prefix (P := fun _ _ => True) (fun done c rest hsplit m _ => ?_) trivial
    have hc : c.Known := hcalls c (by simp [hsplit])
    exact ((yields_parse hclosed hc m).mono fun _ _ => trivial).map
  obtain ⟨m, hm, -⟩ := hrun
  exact ⟨m, hm⟩

theorem answer?_of_known (hclosed : ∀ t ∈ g, t.Closed) (m : ForestTables V) {c : Call V}
    (hc : c.Known) : answer? g o m c = some (forest g o c.lattice c.pruner) := by
  obtain ⟨r, hr, hgraph⟩ := yields_parse (o := o) hclosed hc m
  rw [answer?, hr, ← hgraph]
  rfl

end ForestTables

/-! ## Posteriors -/

def ScoreParser.after [Score S] (p : ScoreParser V S) (calls : List (ScoreCall V S)) :
    ScoreParser V S :=
  calls.foldl (fun p c => (p.parseIn c.order c.lattice c.pruner).1) p

theorem ScoreParser.parseIn_after [Score S] (p : ScoreParser V S) (calls : List (ScoreCall V S))
    (c : ScoreCall V S) : ((p.after calls).parseIn c.order c.lattice c.pruner).2 =
      posteriorsIn c.order p.grammar p.weighting p.options c.lattice c.pruner := by
  induction calls generalizing p with
  | nil => exact p.parseIn_eq_posteriorsIn c.order c.lattice c.pruner
  | cons first calls ih =>
    have hkept : (p.parseIn first.order first.lattice first.pruner).1.grammar = p.grammar ∧
        (p.parseIn first.order first.lattice first.pruner).1.weighting = p.weighting ∧
        (p.parseIn first.order first.lattice first.pruner).1.options = p.options := by
      unfold parseIn
      simp only
      split
      · exact ⟨rfl, rfl, rfl⟩
      · split <;> exact ⟨rfl, rfl, rfl⟩
    rw [← hkept.1, ← hkept.2.1, ← hkept.2.2]
    exact ih _

namespace ScoreTables

variable [Score S] (g : Grammar V) (w : Weighting V S) (o : Options V)

def after? (calls : List (ScoreCall V S)) : Option (ScoreTables S) :=
  calls.foldlM (fun m c => (ScoreMemory.parse? g w o c.order c.lattice c.pruner ⟨m, c.chart⟩).map
    (·.1.tables)) blank

def answer? (m : ScoreTables S) (c : ScoreCall V S) : Option (Posteriors S) :=
  (ScoreMemory.parse? g w o c.order c.lattice c.pruner ⟨m, c.chart⟩).map fun r => ⟨r.2, r.1.chart⟩

variable {g w o}

theorem answer?_eq (m m' : ScoreTables S) (c : ScoreCall V S) (chart : ScoreChart S) :
    answer? g w o m c = answer? g w o m' { c with chart } := by
  unfold answer? ScoreMemory.parse?
  simp only
  split <;> rfl

theorem exists_after (hclosed : ∀ t ∈ g, t.Closed) {calls : List (ScoreCall V S)}
    (hcalls : ∀ c ∈ calls, c.Known) : ∃ m, after? g w o calls = some m := by
  have hrun : Yields (after? g w o calls) fun _ => True := by
    refine yields_foldlM_prefix (P := fun _ _ => True) (fun done c rest hsplit m _ => ?_) trivial
    have hc : c.Known := hcalls c (by simp [hsplit])
    exact ((ScoreMemory.yields_parse hclosed hc _).mono fun _ _ => trivial).map
  obtain ⟨m, hm, -⟩ := hrun
  exact ⟨m, hm⟩

end ScoreTables

/-- The same outcome, with the same labels and scores at each span where scores other than zero
alone count. -/
structure Posteriors.Agree [Score S] (p q : Posteriors S) : Prop where
  parsed : p.parsed = q.parsed
  scores : Score.isZero (Score.zero : S) = true →
    Score.isZero (Score.mul Score.zero Score.zero : S) = true → p.scores.Same q.scores

theorem ScoreTables.answer?_of_known [Score S] {g : Grammar V} {w : Weighting V S} {o : Options V}
    (hclosed : ∀ t ∈ g, t.Closed) (m : ScoreTables S) {c : ScoreCall V S} (hc : c.Known) :
    Yields (answer? g w o m c) (·.Agree (posteriorsIn c.order g w o c.lattice c.pruner)) :=
  ((ScoreMemory.yields_parse hclosed hc _).mono fun _ hr => ⟨hr.parsed, hr.chart⟩).map

/-- Whatever the earlier calls were, a call returns what it would return as the first one, whatever
chart is passed in. Where the pruners know the lattices, no call fails, and it returns what the
parsers without tables return after these calls. -/
theorem answers_as_new [Scalar V] [Score S] (g : Grammar V) (w : Weighting V S) (o : Options V) :
    (∀ earlier m, ForestTables.after? g o earlier = some m → ∀ c,
      ForestTables.answer? g o m c = ForestTables.answer? g o .blank c) ∧
    (∀ earlier m, ScoreTables.after? g w o earlier = some m → ∀ (c : ScoreCall V S) chart,
      ScoreTables.answer? g w o m c = ScoreTables.answer? g w o .blank { c with chart }) ∧
    ((∀ t ∈ g, t.FromPairs) →
      (∀ (earlier : List (Call V)) (c : Call V), (∀ e ∈ earlier ++ [c], e.Known) →
        ∃ m, ForestTables.after? g o earlier = some m ∧ ForestTables.answer? g o m c =
          some (((ForestParser.new g o).after earlier).parse c.lattice c.pruner).2) ∧
      ∀ (earlier : List (ScoreCall V S)) (c : ScoreCall V S), (∀ e ∈ earlier ++ [c], e.Known) →
        ∃ m, ScoreTables.after? g w o earlier = some m ∧ Yields (ScoreTables.answer? g w o m c)
          (·.Agree (((ScoreParser.new g w o).after earlier).parseIn c.order c.lattice
            c.pruner).2)) := by
  refine ⟨fun earlier m _ c => ForestTables.answer?_eq m _ c,
    fun earlier m _ c chart => ScoreTables.answer?_eq m _ c chart, fun htables => ?_⟩
  have hclosed : ∀ t ∈ g, t.Closed := fun t ht => (htables t ht).closed
  constructor
  · intro earlier c hcalls
    obtain ⟨m, hm⟩ := ForestTables.exists_after (o := o) hclosed
      fun e he => hcalls e (List.mem_append_left _ he)
    refine ⟨m, hm, ?_⟩
    rw [ForestParser.parse_after]
    exact ForestTables.answer?_of_known hclosed m (hcalls c (by simp))
  · intro earlier c hcalls
    obtain ⟨m, hm⟩ := ScoreTables.exists_after (w := w) (o := o) hclosed
      fun e he => hcalls e (List.mem_append_left _ he)
    refine ⟨m, hm, ?_⟩
    rw [ScoreParser.parseIn_after]
    exact ScoreTables.answer?_of_known hclosed m (hcalls c (by simp))

/-- Calls that fail or have nothing to parse, and charts of other sizes. -/
theorem answers_as_new_after_failure :
    let g : Grammar ℚ := [RuleTable.ofText "[S] ||| [A,1]\n[A] ||| a"]
    let w : Weighting ℚ ℚ≥0 := Weighting.uniform
    let o := Options.ofGoal (1 / 10) Options.defaultGoal
    let call (words : List Symbol) : Call ℚ := ⟨Lattice.ofWords words, .none⟩
    let scoring (size : Nat) (c : Call ℚ) : ScoreCall ℚ ℚ≥0 := ⟨c, .arrival, Chart.new size⟩
    let earlier := [call [⟨"a"⟩, ⟨"b"⟩], call [], call [⟨"a"⟩]]
    let c := call [⟨"a"⟩]
    ((∀ t ∈ g, t.FromPairs) ∧ ∀ e ∈ earlier ++ [c], e.Known) ∧
      (∃ m, ForestTables.after? g o earlier = some m ∧
        ForestTables.answer? g o m c = ForestTables.answer? g o .blank c) ∧
      ∃ m p, ScoreTables.after? g w o (earlier.map (scoring 3)) = some m ∧
        ScoreTables.answer? g w o m (scoring 3 c) = some p ∧ p.parsed = true ∧
          ScoreTables.answer? g w o .blank (scoring 0 c) = some p := by
  intro g w o call scoring earlier c
  have htables : ∀ t ∈ g, t.FromPairs := by
    intro t ht
    rw [List.mem_singleton.mp ht]
    exact RuleTable.fromPairs_ofText _
  have hcall (words : List Symbol) : (call words).Known := .inr rfl
  have hknown : ∀ e ∈ earlier ++ [c], e.Known := by
    simp only [earlier, c, List.cons_append, List.nil_append, List.forall_mem_cons]
    exact ⟨hcall _, hcall _, hcall _, hcall _, fun _ he => absurd he List.not_mem_nil⟩
  have hscoring : ∀ e ∈ earlier.map (scoring 3) ++ [scoring 3 c], e.Known := by
    rw [← List.map_singleton, ← List.map_append]
    exact List.forall_mem_map.mpr hknown
  have hparsed : (posteriorsIn .arrival g w o c.lattice .none).parsed = true := by
    decide +kernel
  obtain ⟨hforests, hscores, hruns⟩ := answers_as_new g w o
  obtain ⟨m, hm, -⟩ := (hruns htables).1 earlier c hknown
  obtain ⟨n, hn, p, hp, hagree⟩ := (hruns htables).2 _ _ hscoring
  have hfound : p.parsed = true := by
    rw [hagree.parsed, ScoreParser.parseIn_after]
    exact hparsed
  have hblank := hscores _ n hn (scoring 3 c) (Chart.new 0)
  exact ⟨⟨htables, hknown⟩, ⟨m, hm, hforests _ m hm c⟩, n, p, hn, hp, hfound, hblank.symm.trans hp⟩

end ParseForest
