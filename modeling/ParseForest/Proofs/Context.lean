import ParseForest.Proofs.Derivation
import ParseForest.Proofs.Posterior.Laws
import ParseForest.Proofs.Posterior.Run

/-!
# Scores of derivations and contexts

The score of a derivation is the product of the scores of its rules and its arcs. A context is
what stands around a label in a derivation of the goal, and its score is the product of all that
stands there. A derivation of the goal that uses a label is cut there into a context and a
derivation of the label, and any derivation of the label may be put into the context instead; the
scores multiply both times.

`Derivation.Made` is about any grammar. For one that was read from text it says the same as
`Derivation.Valid`.
-/

namespace ParseForest

variable {V S E : Type}

instance : Nonempty Derivation := ⟨.node ⟨0, 0, ⟨""⟩⟩ ⟨0, 0, 0⟩ .start⟩

/-- The derivations that the parsers can make: at each node the application fits. -/
inductive Derivation.Made (g : Grammar V) (o : Options V) (lattice : Lattice V)
    (pruner : Pruner) : Derivation → Prop
  | node {place : SpanLabel} {rule : RuleName} {parts : Trail Derivation} {pair : RulePair V}
    (span : place.first < place.last ∧ place.last ≤ lattice.size)
    (spanLeft : pruner.skipsSpan place.first place.last = false)
    (labelLeft : pruner.skipsLabel place.first place.last place.label = false)
    (named : g.pair? rule = some pair)
    (label : (pair.side o.yieldSource).lhs = place.label)
    (fits : Application.Fits (fun d => (Derivation.place d).label) g o lattice
      (Trail.placedAt Derivation.place) place.first place.last ⟨rule, parts⟩)
    (below : ∀ d ∈ parts.entries, Made g o lattice pruner d) :
    Made g o lattice pruner (.node place rule parts)

theorem Application.Fits.exists_below {g : Grammar V} {o : Options V} {lattice : Lattice V}
    {place : SpanLabel} {rule : RuleName} {parts : Trail Derivation} {pair : RulePair V}
    (h : Application.Fits (fun d => (Derivation.place d).label) g o lattice
      (Trail.placedAt Derivation.place) place.first place.last ⟨rule, parts⟩)
    (hbegins : parts.Begins (place.first, place.last) place.first place.last)
    (named : g.pair? rule = some pair) :
    ∃ d : Derivation, parts = .entry .start place.first d ∧ d.place.first = place.first ∧
      d.place.last = place.last ∧ pair ∈ g.unaryRules d.place.label := by
  obtain ⟨d, ⟨hfirst, hlast⟩, hparts, t, ht, -, hrule⟩ := h.exists_unary hbegins named
  exact ⟨d, hparts, hfirst, hlast, Grammar.mem_unaryRules ht hrule⟩

namespace Derivation.Made

variable {g : Grammar V} {o : Options V} {lattice : Lattice V} {pruner : Pruner}

theorem span {d : Derivation} (h : d.Made g o lattice pruner) :
    d.place.first < d.place.last ∧ d.place.last ≤ lattice.size := by
  cases h with
  | node span => exact span

theorem labelLeft {d : Derivation} (h : d.Made g o lattice pruner) :
    pruner.skipsLabel d.place.first d.place.last d.place.label = false := by
  cases h with
  | node _ _ labelLeft => exact labelLeft

/-- In a grammar that was read from text, these are the derivations that spell their rules. -/
theorem iff_valid (hlegible : ∀ t ∈ g, t.Legible) (htree : o.treebank = false)
    (hpos : o.posMode = false) (hterm : lattice.AllTerminal) {d : Derivation} :
    d.Made g o lattice pruner ↔ d.Valid g lattice pruner Symbol.words := by
  constructor
  · intro h
    induction h with
    | @node place rule parts pair span spanLeft labelLeft named label fits below ih =>
      refine .node span.1 spanLeft labelLeft named ?_ ?_ ih
      · rw [← label, (Grammar.aligned_of_pair? hlegible named).side]
      · exact (Application.fits_iff_spells hlegible htree hpos hterm
          (Nat.lt_of_lt_of_le span.1 span.2) named fun d hd => (below d hd).span).mp fits
  · intro h
    induction h with
    | @node place rule parts pair span spanLeft labelLeft named label spells below ih =>
      have hvalid := Valid.node span spanLeft labelLeft named label spells below
      refine .node ⟨span, hvalid.last_le⟩ spanLeft labelLeft named ?_ ?_ ih
      · rw [(Grammar.aligned_of_pair? hlegible named).side, label]
      · exact (Application.fits_iff_spells hlegible htree hpos hterm
          (Nat.lt_of_lt_of_le span hvalid.last_le) named fun d hd => (ih d hd).span).mpr spells

theorem parts {place : SpanLabel} {rule : RuleName} {parts : Trail Derivation}
    (h : (Derivation.node place rule parts).Made g o lattice pruner) :
    ∀ d ∈ parts.entries, d.Made g o lattice pruner := by
  cases h with
  | node _ _ _ _ _ _ below => exact below

end Derivation.Made

inductive Derivation.Uses (l : SpanLabel) : Derivation → Prop
  | here {d : Derivation} (place : d.place = l) : Uses l d
  | part {place : SpanLabel} {rule : RuleName} {parts : Trail Derivation} {d : Derivation}
    (mem : d ∈ parts.entries) (uses : Uses l d) : Uses l (.node place rule parts)

/-! ## Scores -/

section Scores

variable [Score S]

def Grammar.ruleScore (g : Grammar V) (w : Weighting V S) (rule : RuleName) : S :=
  ((g.pair? rule).map fun pair => w pair.features).getD Score.one

theorem Grammar.ruleScore_of_pair? {g : Grammar V} {rule : RuleName} {pair : RulePair V}
    (named : g.pair? rule = some pair) (w : Weighting V S) :
    g.ruleScore w rule = w pair.features := by
  rw [ruleScore, named]
  rfl

mutual

def Derivation.score (g : Grammar V) (w : Weighting V S) (lattice : Lattice V) : Derivation → S
  | .node _ rule parts => Score.mul (Trail.partScore g w lattice parts) (g.ruleScore w rule)

def Trail.partScore (g : Grammar V) (w : Weighting V S) (lattice : Lattice V) :
    Trail Derivation → S
  | .start => Score.one
  | .entry x _ d => Score.mul (Trail.partScore g w lattice x) (Derivation.score g w lattice d)
  | .arc x p k =>
    match (lattice.arcsAt p)[k]? with
    | some a => Score.mul (Trail.partScore g w lattice x) (w a.features)
    | none => Trail.partScore g w lattice x

end

def Trail.ownScore (g : Grammar V) (w : Weighting V S) (lattice : Lattice V) (rule : RuleName)
    (x : Trail E) : S :=
  Score.mul (x.arcScore w lattice) (g.ruleScore w rule)

end Scores

namespace LawfulScore

variable [Score S] [LinearOrder S] [LawfulScore S]

theorem product_eq (a : S) (xs : List S) :
    Score.product a xs = Score.mul a (Score.product Score.one xs) := by
  induction xs generalizing a with
  | nil => exact (mul_one a).symm
  | cons x xs ih =>
    change Score.product (Score.mul a x) xs = Score.mul a (Score.product (Score.mul Score.one x) xs)
    rw [ih (Score.mul a x), ih (Score.mul Score.one x), one_mul, mul_assoc]

theorem product_append (xs ys : List S) : Score.product Score.one (xs ++ ys) =
    Score.mul (Score.product Score.one xs) (Score.product Score.one ys) := by
  rw [Score.product, List.foldl_append]
  exact product_eq _ ys

theorem product_cons (x : S) (xs : List S) : Score.product Score.one (x :: xs) =
    Score.mul x (Score.product Score.one xs) := by
  rw [← List.singleton_append, product_append]
  change Score.mul (Score.mul Score.one x) _ = _
  rw [one_mul]

end LawfulScore

section Cut

variable {g : Grammar V} {w : Weighting V S} {o : Options V} {lattice : Lattice V}
  {pruner : Pruner} [Score S] [LinearOrder S] [LawfulScore S]

open LawfulScore

section Unary

variable {rule : RuleName} {pair : RulePair V} (named : g.pair? rule = some pair)
include named

theorem Derivation.score_unary (place : SpanLabel) (p : Nat) (d : Derivation) :
    (Derivation.node place rule (.entry .start p d)).score g w lattice =
      Score.mul (d.score g w lattice) (w pair.features) := by
  rw [Derivation.score, Trail.partScore, Trail.partScore, LawfulScore.one_mul,
    Grammar.ruleScore_of_pair? named w]

theorem Trail.ownScore_unary (p : Nat) (d : E) :
    (Trail.entry .start p d).ownScore g w lattice rule = w pair.features := by
  rw [Trail.ownScore, Grammar.ruleScore_of_pair? named w]
  exact LawfulScore.one_mul _

end Unary

theorem Trail.partScore_eq (x : Trail Derivation) : Trail.partScore g w lattice x =
    Score.mul (Score.product Score.one (x.entries.map (Derivation.score g w lattice)))
      (x.arcScore w lattice) := by
  induction x with
  | start => exact (LawfulScore.one_mul _).symm
  | entry x p d ih =>
    rw [Trail.partScore, ih, Trail.entries, List.map_append, product_append, Trail.arcScore,
      List.map_singleton, product_cons]
    change _ = Score.mul (Score.mul _ (Score.mul _ Score.one)) _
    rw [LawfulScore.mul_one]
    ac_rfl
  | arc x p k ih =>
    rw [Trail.partScore, Trail.arcScore, Trail.entries]
    cases (lattice.arcsAt p)[k]? with
    | none => exact ih
    | some a => simp only [ih, LawfulScore.mul_assoc]

theorem Derivation.score_node (place : SpanLabel) (rule : RuleName) (parts : Trail Derivation) :
    (node place rule parts).score g w lattice =
      Score.mul (Score.product Score.one (parts.entries.map (Derivation.score g w lattice)))
        (parts.ownScore g w lattice rule) := by
  rw [score, Trail.partScore_eq, Trail.ownScore, LawfulScore.mul_assoc]

/-- What stands around a label in a derivation of the goal, with the score of that: a step down
goes from a node to one of its parts. -/
inductive Context (g : Grammar V) (w : Weighting V S) (o : Options V) (lattice : Lattice V)
    (pruner : Pruner) : SpanLabel → S → Prop
  | goal : Context g w o lattice pruner ⟨0, lattice.size, o.goal⟩ Score.one
  | step {place : SpanLabel} {rule : RuleName} {parts : Trail Derivation} {x : S}
    {front back : List Derivation} {d : Derivation} (above : Context g w o lattice pruner place x)
    (made : (Derivation.node place rule parts).Made g o lattice pruner)
    (split : parts.entries = front ++ d :: back) :
    Context g w o lattice pruner d.place (Score.mul x (Score.mul
      (Score.product Score.one ((front ++ back).map (Derivation.score g w lattice)))
      (parts.ownScore g w lattice rule)))

theorem score_split {front back : List Derivation} {d : Derivation} {place : SpanLabel}
    {rule : RuleName} {parts : Trail Derivation} (split : parts.entries = front ++ d :: back) :
    (Derivation.node place rule parts).score g w lattice = Score.mul (Score.mul
      (Score.product Score.one ((front ++ back).map (Derivation.score g w lattice)))
      (parts.ownScore g w lattice rule)) (d.score g w lattice) := by
  rw [Derivation.score_node, split, List.map_append, List.map_cons, List.map_append,
    product_append, product_append, product_cons]
  ac_rfl

/-- A derivation in a context is cut at a label that it uses. -/
theorem Context.cut {d : Derivation} {l : SpanLabel} (huses : d.Uses l) {x : S}
    (h : Context g w o lattice pruner d.place x) (hd : d.Made g o lattice pruner) :
    ∃ (y : S) (e : Derivation), Context g w o lattice pruner l y ∧ e.Made g o lattice pruner ∧
      e.place = l ∧ Score.mul y (e.score g w lattice) = Score.mul x (d.score g w lattice) := by
  induction huses generalizing x with
  | @here d hplace => exact ⟨x, d, hplace ▸ h, hd, hplace, rfl⟩
  | @part place rule parts d mem uses ih =>
    obtain ⟨front, back, split⟩ := List.append_of_mem mem
    obtain ⟨y, e, hy, he, hplace, hscore⟩ := ih (h.step hd split) (hd.parts d mem)
    refine ⟨y, e, hy, he, hplace, hscore.trans ?_⟩
    rw [score_split split, LawfulScore.mul_assoc]

end Cut

namespace Trail

theorem exists_replaced {x : Trail E} {front back : List E} {e : E}
    (h : x.entries = front ++ e :: back) (e' : E) (last : Nat) :
    ∃ x', Along (fun _ _ a b => b = a ∨ a = e ∧ b = e') last x x' ∧
      x'.entries = front ++ e' :: back := by
  induction x generalizing back last with
  | start => simp [entries] at h
  | entry x p a ih =>
    rw [entries] at h
    rcases List.eq_nil_or_concat back with rfl | ⟨back, b, rfl⟩
    · obtain ⟨hx, ha⟩ := List.append_inj' h rfl
      refine ⟨.entry x p e', .entry (Along.refl x fun _ _ _ => Or.inl rfl)
        (Or.inr ⟨List.singleton_inj.mp ha, rfl⟩), ?_⟩
      rw [entries, hx]
    · rw [List.concat_eq_append, ← List.cons_append, ← List.append_assoc] at h
      obtain ⟨hx, ha⟩ := List.append_inj' h rfl
      obtain ⟨x', hx', hent⟩ := ih hx p
      refine ⟨.entry x' p b, .entry hx' (Or.inl (List.singleton_inj.mp ha).symm), ?_⟩
      rw [entries, hent, List.concat_eq_append, ← List.cons_append, List.append_assoc]
  | arc x p k ih =>
    obtain ⟨x', hx', hent⟩ := ih h p
    exact ⟨.arc x' p k, .arc hx', hent⟩

theorem Along.arcScore_eq {E' : Type} [Score S] {w : Weighting V S} {lattice : Lattice V}
    {R : (first last : Nat) → E → E' → Prop} {last : Nat} {x : Trail E} {x' : Trail E'}
    (h : Along R last x x') : x.arcScore w lattice = x'.arcScore w lattice := by
  induction h with
  | start => rfl
  | entry _ _ ih => exact ih
  | @arc _ p k _ _ _ ih =>
    rw [arcScore, arcScore]
    cases (lattice.arcsAt p)[k]? with
    | none => exact ih
    | some a => simp only [ih]

end Trail

section Plug

variable {g : Grammar V} {w : Weighting V S} {o : Options V} {lattice : Lattice V}
  {pruner : Pruner} [Score S] [LinearOrder S] [LawfulScore S]

/-- A derivation of the label of a context is part of a derivation of the goal. -/
theorem Context.plug {l : SpanLabel} {x : S} (h : Context g w o lattice pruner l x)
    {d : Derivation} (hd : d.Made g o lattice pruner) (hplace : d.place = l) :
    ∃ e : Derivation, e.Made g o lattice pruner ∧ e.place = ⟨0, lattice.size, o.goal⟩ ∧
      (∀ m, d.Uses m → e.Uses m) ∧
      e.score g w lattice = Score.mul x (d.score g w lattice) := by
  induction h generalizing d with
  | goal => exact ⟨d, hd, hplace, fun _ h => h, (LawfulScore.one_mul _).symm⟩
  | @step place rule parts x front back f above made split ih =>
    obtain ⟨parts', halong, hentries⟩ := Trail.exists_replaced split d place.last
    have hmem : d ∈ parts'.entries := by
      rw [hentries]
      exact List.mem_append_right _ List.mem_cons_self
    have hparts := made.parts
    have hmade : (Derivation.node place rule parts').Made g o lattice pruner := by
      cases made with
      | node span spanLeft labelLeft named label fits below =>
        have hsame : ∀ a b, b = a ∨ a = f ∧ b = d → a.place = b.place := by
          rintro a b (rfl | ⟨rfl, rfl⟩)
          · rfl
          · exact hplace.symm
        refine .node span spanLeft labelLeft named label ?_ fun e he => ?_
        · refine Application.fits_along (fun p q a b hab => by rw [hsame a b hab])
            (fun p q a b ha hab => ?_) halong fits
          obtain ⟨t, -, hover, -⟩ := fits
          have hat := (hover.mem_placed ha).2.2.2
          rw [Trail.placedAt, Set.mem_ofPred_eq, hsame a b hab] at hat
          exact hat
        · rw [hentries, List.mem_append, List.mem_cons] at he
          rw [split] at hparts
          rcases he with he | rfl | he
          · exact hparts e (List.mem_append_left _ he)
          · exact hd
          · exact hparts e (List.mem_append_right _ (List.mem_cons_of_mem _ he))
    obtain ⟨e, he, hgoal, huses, hscore⟩ := ih hmade rfl
    refine ⟨e, he, hgoal, fun m hm => huses m (.part hmem hm), ?_⟩
    have hown : parts'.ownScore g w lattice rule = parts.ownScore g w lattice rule := by
      rw [Trail.ownScore, ← halong.arcScore_eq, Trail.ownScore]
    rw [hscore, score_split hentries, hown]
    ac_rfl

end Plug

end ParseForest
