import ParseForest.Proofs.Derivation
import ParseForest.Proofs.Forest.Graph

/-!
# Recognition

The forest parser has a constituent of a label at a span exactly when the label has a derivation
there. One direction follows the entries of the ledger down from a constituent, the other one
follows a derivation up; both replace the parts of an application by what is known of them and
leave its trail as it is. So the forest has a goal exactly when the goal label has a derivation
over the whole lattice.
-/

namespace ParseForest

variable {V : Type} [Scalar V]

open ForestState

section Ledger

variable {g : Grammar V} {o : Options V} {lattice : Lattice V} {pruner : Pruner}
  (hlegible : ∀ t ∈ g, t.Legible) (htree : o.treebank = false) (hpos : o.posMode = false)
  (hterm : lattice.AllTerminal)

include hlegible htree hpos hterm

omit [Scalar V] in
theorem valid_of_genuine {a : Entry} {entries : (first last : Nat) → Set Constituent}
    (ha : Genuine g o lattice pruner entries a) {parts : Trail Derivation}
    (hparts : Trail.Along (fun p q c d => d.Valid g lattice pruner Symbol.words ∧
      d.place = ⟨p, q, c.label⟩) a.place.last a.step.parts parts) :
    (Derivation.node a.place a.step.rule parts).Valid g lattice pruner Symbol.words := by
  obtain ⟨pair, hpair, hlabel⟩ := ha.label
  have haligned := Grammar.aligned_of_pair? hlegible hpair
  have hbelow : ∀ d ∈ parts.entries, d.Valid g lattice pruner Symbol.words := by
    intro d hd
    obtain ⟨p, q, hplaced⟩ := Trail.exists_placed hd a.place.last
    obtain ⟨c, -, hvalid, -⟩ := hparts.of_mem_placed hplaced
    exact hvalid
  have hfits : Application.Fits (fun d => (Derivation.place d).label) g o lattice
      (Trail.placedAt Derivation.place) a.place.first a.place.last ⟨a.step.rule, parts⟩ := by
    refine Application.fits_along (fun p q c d hcd => by rw [hcd.2])
      (fun p q c d _ hcd => ?_) hparts ha.fits
    exact ⟨by rw [hcd.2], by rw [hcd.2]⟩
  refine Derivation.Valid.node ha.span.1 ha.spanLeft ha.labelLeft hpair ?_ ?_ hbelow
  · rw [← hlabel, haligned.side]
  · refine (Application.fits_iff_spells hlegible htree hpos hterm
      (Nat.lt_of_lt_of_le ha.span.1 ha.span.2) hpair fun d hd => ?_).mp hfits
    exact ⟨(hbelow d hd).first_lt_last, (hbelow d hd).last_le⟩

theorem exists_derivation {ledger : List Entry}
    (h : Ran g o lattice pruner (Chart.spansByLength lattice.size) (run g o lattice pruner) ledger)
    (n : Nat) : ∀ i j, ∀ c ∈ cells g o lattice pruner i j, c.node = n →
      ∃ d, Derivation.Valid g lattice pruner Symbol.words d ∧ d.place = ⟨i, j, c.label⟩ := by
  -- the parts of a constituent have smaller nodes
  induction n using Nat.strongRecOn with
  | _ n ih =>
    intro i j c hc hn
    obtain ⟨a, hgen, hplace, hbelow⟩ := h.exists_entry hc
    obtain ⟨t, -, hover, -⟩ := hgen.fits
    have hparts := Trail.Along.exists_of_placed
      (fun p q c d => Derivation.Valid g lattice pruner Symbol.words d ∧
        d.place = ⟨p, q, c.label⟩) a.place.last a.step.parts fun p q b hb => by
      have hlt := hbelow b (Trail.mem_entries_of_mem_placed hb)
      rw [hn] at hlt
      exact ih b.node hlt p q b (hover.mem_placed hb).2.2.2 rfl
    obtain ⟨parts, hparts⟩ := hparts
    exact ⟨_, valid_of_genuine hlegible htree hpos hterm hgen hparts, hplace⟩

omit [Scalar V] in
theorem genuine_of_valid {place : SpanLabel} {rule : RuleName} {parts : Trail Derivation}
    (h : (Derivation.node place rule parts).Valid g lattice pruner Symbol.words)
    {entries : (first last : Nat) → Set Constituent} {parts' : Trail Constituent}
    (hparts : Trail.Along (fun p q (d : Derivation) c => c ∈ entries p q ∧ d.place.label = c.label)
      place.last parts parts') :
    Genuine g o lattice pruner entries ⟨place, ⟨rule, parts'⟩⟩ := by
  have hlast := h.last_le
  cases h with
  | node span spanLeft labelLeft named label spells below =>
    refine ⟨⟨span, hlast⟩, spanLeft, labelLeft, ⟨_, named, ?_⟩, ?_⟩
    · rw [(Grammar.aligned_of_pair? hlegible named).side, label]
    · have hfits := (Application.fits_iff_spells hlegible htree hpos hterm
        (Nat.lt_of_lt_of_le span hlast) named fun d hd =>
          ⟨(below d hd).first_lt_last, (below d hd).last_le⟩).mpr spells
      exact Application.fits_along (fun p q d c hdc => hdc.2) (fun p q d c _ hdc => hdc.1) hparts
        hfits

theorem exists_constituent {ledger : List Entry} (hstag : 0 < o.forestStagnation)
    (h : Ran g o lattice pruner (Chart.spansByLength lattice.size) (run g o lattice pruner) ledger)
    {d : Derivation} (hd : d.Valid g lattice pruner Symbol.words) :
    ∃ c ∈ cells g o lattice pruner d.place.first d.place.last, c.label = d.place.label := by
  induction hd with
  | @node place rule parts pair span spanLeft labelLeft named label spells below ih =>
    have hvalid := Derivation.Valid.node span spanLeft labelLeft named label spells below
    have hfits := (Application.fits_iff_spells hlegible htree hpos hterm
      (Nat.lt_of_lt_of_le span hvalid.last_le) named fun d hd =>
        ⟨(below d hd).first_lt_last, (below d hd).last_le⟩).mpr spells
    obtain ⟨t, -, hover, -⟩ := hfits
    have hparts := Trail.Along.exists_of_placed
      (fun p q (d : Derivation) c => c ∈ listed (cells g o lattice pruner) p q ∧
        d.place.label = c.label) place.last parts fun p q d hd => by
      obtain ⟨c, hc, hlabel⟩ := ih d (Trail.mem_entries_of_mem_placed hd)
      obtain ⟨hp, hq⟩ := (hover.mem_placed hd).2.2.2
      rw [hp, hq] at hc
      exact ⟨c, hc, hlabel.symm⟩
    obtain ⟨parts', hparts⟩ := hparts
    have hgen := genuine_of_valid hlegible htree hpos hterm hvalid hparts
    exact h.labels hstag _ hgen (Chart.mem_spansByLength.mpr ⟨span, hvalid.last_le⟩)

end Ledger

/-! ## The forest -/

namespace ForestParser

theorem parse_eq_forest (p : ForestParser V) (lattice : Lattice V) (pruner : Pruner) :
    (p.parse lattice pruner).2 = forest p.grammar p.options lattice pruner := by
  rw [forest, parse, parse]
  split
  · rfl
  · rfl

/-- A parse gives a forest exactly when the goal label has a derivation. -/
theorem isValid_parse_iff [NumberText V] (p : ForestParser V) (lattice : Lattice V)
    (pruner : Pruner) (hg : p.grammar.IsText) (htree : p.options.treebank = false)
    (hpos : p.options.posMode = false) (hterm : lattice.AllTerminal)
    (hstag : 0 < p.options.forestStagnation) :
    (p.parse lattice pruner).2.isValid = true ↔
      ∃ d, d ∈ Derivation.ofGoal p.grammar lattice pruner Symbol.words p.options.goal := by
  obtain ⟨ledger, hran⟩ := exists_ledger p.grammar p.options lattice pruner
  rw [parse_eq_forest, isValid_forest_iff]
  constructor
  · rintro ⟨c, hc, hlabel⟩
    obtain ⟨d, hvalid, hplace⟩ :=
      exists_derivation (fun _ => hg.legible) htree hpos hterm hran c.node 0 lattice.size c hc rfl
    rw [hlabel] at hplace
    exact ⟨d, hvalid, hplace⟩
  · rintro ⟨d, hvalid, hplace⟩
    obtain ⟨c, hc, hlabel⟩ :=
      exists_constituent (fun _ => hg.legible) htree hpos hterm hstag hran hvalid
    rw [hplace] at hc hlabel
    exact ⟨c, hc, hlabel⟩

/-- Two unary rules that lead back to each other above a rule for the word. -/
theorem isValid_parse_iff_of_cycle :
    let p := ForestParser.new [RuleTable.ofText "[S] ||| [A,1]\n[A] ||| [S,1]\n[A] ||| a"]
      Options.standard
    let lattice := Lattice.ofWords [⟨"a"⟩]
    (p.options.treebank = false ∧ p.options.posMode = false ∧ lattice.AllTerminal ∧
      0 < p.options.forestStagnation) ∧ (p.parse lattice .none).2.isValid = true ∧
        ∃ d, d ∈ Derivation.ofGoal p.grammar lattice .none Symbol.words p.options.goal := by
  intro p lattice
  have hterm : lattice.AllTerminal := by decide +kernel
  have hiff := isValid_parse_iff p lattice .none (Grammar.isText_ofText _) rfl rfl hterm
    Nat.one_pos
  have htop : (p.grammar.pair? ⟨0, 1, 0⟩).map RulePair.source =
      some ⟨⟨"[S]"⟩, [⟨"[A,1]"⟩]⟩ := by decide +kernel
  have hbottom : (p.grammar.pair? ⟨0, 3, 0⟩).map RulePair.source =
      some ⟨⟨"[A]"⟩, [⟨"a"⟩]⟩ := by decide +kernel
  obtain ⟨top, htop, hsource⟩ := Option.map_eq_some_iff.mp htop
  obtain ⟨bottom, hbottom, hsource'⟩ := Option.map_eq_some_iff.mp hbottom
  let word := Derivation.node ⟨0, 1, ⟨"[A]"⟩⟩ ⟨0, 3, 0⟩ (.arc .start 0 0)
  have hword : word.Valid p.grammar lattice .none Symbol.words := by
    refine Derivation.Valid.node Nat.one_pos rfl rfl hbottom ?_ ?_ fun d hd => by cases hd
    · rw [hsource']
    · rw [hsource']
      exact ⟨⟨⟨"a"⟩, 1, NameMap.empty⟩, rfl, rfl, Or.inr ⟨rfl, [], rfl, rfl, rfl⟩⟩
  have hgoal : ∃ d, d ∈ Derivation.ofGoal p.grammar lattice .none Symbol.words p.options.goal := by
    refine ⟨.node ⟨0, 1, ⟨"[S]"⟩⟩ ⟨0, 1, 0⟩ (.entry .start 0 word), ?_, rfl⟩
    refine Derivation.Valid.node Nat.one_pos rfl rfl htop ?_ ?_ fun d hd => ?_
    · rw [hsource]
    · rw [hsource]
      have hlabel : (Symbol.mk "[A]") = (Symbol.mk "[A,1]").unindexed := by decide +kernel
      exact ⟨[], _, rfl, ⟨rfl, rfl⟩, congrArg (SpanLabel.mk 0 1) hlabel⟩
    · rw [List.mem_singleton.mp hd]
      exact hword
  exact ⟨⟨rfl, rfl, hterm, Nat.one_pos⟩, hiff.mpr hgoal, hgoal⟩

/-- An arc for epsilon is no match of a symbol `<epsilon>`: if it were one, this goal would have a
derivation. -/
theorem not_isValid_parse_of_epsilon :
    let p := ForestParser.new [RuleTable.ofText "[S] ||| <epsilon>"] Options.standard
    let lattice := Lattice.ofWords [Symbol.epsilon]
    (p.grammar.IsText ∧ p.options.treebank = false ∧ p.options.posMode = false ∧
      lattice.AllTerminal ∧ 0 < p.options.forestStagnation) ∧
        ¬((p.parse lattice .none).2.isValid = true ↔
          ∃ d, d ∈ Derivation.ofGoal p.grammar lattice .none Set.univ p.options.goal) := by
  intro p lattice
  have hterm : lattice.AllTerminal := by decide +kernel
  refine ⟨⟨Grammar.isText_ofText _, rfl, rfl, hterm, Nat.one_pos⟩, fun h => ?_⟩
  have hinvalid : (p.parse lattice .none).2.isValid = false := by decide +kernel
  have hrule : (p.grammar.pair? ⟨0, 1, 0⟩).map RulePair.source =
      some ⟨⟨"[S]"⟩, [Symbol.epsilon]⟩ := by decide +kernel
  obtain ⟨pair, hpair, hsource⟩ := Option.map_eq_some_iff.mp hrule
  refine absurd (h.mpr ⟨.node ⟨0, 1, ⟨"[S]"⟩⟩ ⟨0, 1, 0⟩ (.arc .start 0 0), ?_, rfl⟩) ?_
  · refine Derivation.Valid.node Nat.one_pos rfl rfl hpair ?_ ?_ fun d hd => by cases hd
    · rw [hsource]
    · rw [hsource]
      exact ⟨⟨Symbol.epsilon, 1, NameMap.empty⟩, rfl, rfl,
        Or.inr ⟨Set.mem_univ _, [], rfl, rfl, rfl⟩⟩
  · rw [hinvalid]
    exact Bool.false_ne_true

end ForestParser

end ParseForest
