import ParseForest.Proofs.Cascade.Lossless

/-!
# Grammars with coarser labels

A grammar covers another one under a map of labels when it has an image of each of its rule pairs.
A derivation of the finer grammar then has an image in the coarser one, of the same shape over the
same spans, and the labels that it uses are the images of those that the derivation uses.

The grammars of a cascade are such images: the coarsest keeps nothing of a label but whether
binarization made it, the others keep some bits of its latent annotation. The mark of binarization
stays when the annotation is cut down.
-/

namespace ParseForest

/-! ## The mark of binarization -/

namespace Symbol

theorem mark_mem_splitIndex {cs : List Char} : '^' ∈ (splitIndex cs).1 ↔ '^' ∈ cs := by
  rcases splitIndex_cases cs with hplain | ⟨before, ds, n, hds, rfl⟩
  · rw [hplain]
  · have hmark : '^' ∉ ds := hds.not_mem (by decide) (by decide)
    simp [splitIndex_append hds, hmark]

theorem isBinarized_iff {s : Symbol} :
    s.isBinarized = true ↔ s.isNonTerminal = true ∧ '^' ∈ s.category := by
  rw [isBinarized, Bool.and_eq_true, List.contains_iff_mem]

theorem isBinarized_bracket (cs : List Char) : (bracket cs).isBinarized = true ↔ '^' ∈ cs := by
  rw [isBinarized_iff, category_bracket]
  exact (and_iff_right (isNonTerminal_bracket cs)).trans mark_mem_splitIndex

theorem isBinarized_unindexed (s : Symbol) : s.unindexed.isBinarized = s.isBinarized := by
  by_cases h : s.index = 0
  · rw [unindexed_of_index h]
  · rw [unindexed_of_index_ne h, Bool.eq_iff_iff, isBinarized_bracket, isBinarized_iff]
    exact (and_iff_right (isNonTerminal_of_index_ne h)).symm

theorem mark_mem_coarseCategory? {bits : Nat} {cs ds : List Char}
    (h : coarseCategory? bits cs = some ds) : '^' ∈ ds ↔ '^' ∈ cs := by
  unfold coarseCategory? at h
  split at h
  · rename_i before after hsplit
    obtain ⟨latent, hlatent, rfl⟩ := Option.map_eq_some_iff.mp h
    have hafter : '^' ∉ after :=
      (Number.readNatural?_eq_some_iff.mp hlatent).not_mem (by decide) (by decide)
    have hat : ('^' : Char) ≠ '@' := by decide
    have hdigits : '^' ∉ Number.digits (lowBits bits latent) := fun hmem =>
      absurd (Number.isDigit_of_mem_digits hmem) (by decide)
    rw [Text.eq_of_splitLast? hsplit]
    split
    · simp only [List.mem_append, List.mem_cons, hat, hafter, or_false]
    · simp only [List.mem_append, List.mem_cons, hat, hafter, hdigits, or_false]
  · cases h

theorem isNonTerminal_coarse (s : Symbol) (bits : Nat) :
    (s.coarse bits).isNonTerminal = s.isNonTerminal := by
  unfold coarse
  split
  · rename_i hnon
    split
    · rw [isNonTerminal_bracket, hnon]
    · exact s.isNonTerminal_unindexed
  · rfl

theorem isBinarized_coarse (s : Symbol) (bits : Nat) :
    (s.coarse bits).isBinarized = s.isBinarized := by
  unfold coarse
  split
  · rename_i hnon
    split
    · rename_i cs hcs
      rw [Bool.eq_iff_iff, isBinarized_bracket, isBinarized_iff, mark_mem_coarseCategory? hcs]
      exact (and_iff_right hnon).symm
    · exact s.isBinarized_unindexed
  · rfl

end Symbol

theorem Coarsening.category_apply_coarse (s : Symbol) (bits : Nat) :
    category.apply (s.coarse bits) = category.apply s := by
  rw [apply, apply, s.isNonTerminal_coarse, s.isBinarized_coarse]
  split
  · rfl
  · rename_i hword
    rw [Symbol.coarse, if_neg hword]

theorem Coarsening.apply_of_isTerminal (coarsening : Coarsening) {s : Symbol}
    (h : s.isTerminal = true) : coarsening.apply s = s := by
  rw [Symbol.isTerminal, Bool.not_eq_true'] at h
  cases coarsening with
  | category => simp only [apply, h, Bool.false_eq_true, if_false]
  | latent bits => simp only [apply, Symbol.coarse, h, Bool.false_eq_true, if_false]

/-! ## Images of derivations -/

variable {V E : Type}

/-- Every rule pair of `g` has an image in `h`. -/
def Grammar.Covers (image : Symbol → Symbol) (h g : Grammar V) : Prop :=
  ∀ pair ∈ g.pairs, ∃ pair' ∈ h.pairs, pair'.source.lhs = image pair.source.lhs ∧
    RuleTable.path pair' = (RuleTable.path pair).map image

instance (image : Symbol → Symbol) (h g : Grammar V) : Decidable (h.Covers image g) :=
  inferInstanceAs (Decidable (∀ pair ∈ g.pairs, ∃ pair' ∈ h.pairs,
    pair'.source.lhs = image pair.source.lhs ∧
      RuleTable.path pair' = (RuleTable.path pair).map image))

def SpanLabel.image (f : Symbol → Symbol) (l : SpanLabel) : SpanLabel :=
  { l with label := f l.label }

theorem Grammar.exists_pair?_of_mem_pairs {g : Grammar V} {pair : RulePair V} (h : pair ∈ g.pairs) :
    ∃ rule, g.pair? rule = some pair := by
  obtain ⟨t, ht, hpair⟩ := List.mem_flatMap.mp h
  obtain ⟨s, hpair⟩ := RuleTable.exists_mem_rulesAt hpair
  obtain ⟨i, hi⟩ := List.getElem?_of_mem ht
  obtain ⟨k, hk⟩ := List.getElem?_of_mem hpair
  exact ⟨⟨i, s, k⟩, by rw [pair?, hi]; exact hk⟩

namespace Trail

variable {E' : Type} {o : Options V} {lattice : Lattice V}

theorem Along.word?_image {R : (first last : Nat) → E → E' → Prop} {label : E → Symbol}
    {label' : E' → Symbol} {f : Symbol → Symbol} (hterm : lattice.AllTerminal)
    (hwords : ∀ s : Symbol, s.isTerminal = true → f s = s)
    (hR : ∀ p q e e', R p q e e' → label' e' = f (label e)) {last : Nat} {x : Trail E}
    {x' : Trail E'} (h : Along R last x x') :
    x'.word? label' lattice = (x.word? label lattice).map (List.map f) := by
  induction h with
  | start => rfl
  | entry _ step ih =>
    rw [word?, word?, ih, hR _ _ _ _ step, Option.map_map, Option.map_map]
    congr 1
    funext w
    simp
  | @arc _ p k x x' _ ih =>
    rw [word?, word?, ih]
    cases ha : (lattice.arcsAt p)[k]? with
    | none => rfl
    | some a =>
      simp only [Option.bind_some]
      split
      · rfl
      · rw [Option.map_map, Option.map_map]
        congr 1
        funext w
        simp [hwords a.label (hterm.arc ha)]

end Trail

namespace Derivation

structure ImageOf (f : Symbol → Symbol) (d d' : Derivation) : Prop where
  place : d'.place = d.place.image f
  uses : ∀ l, d.Uses l → d'.Uses (l.image f)
  used : ∀ l', d'.Uses l' → ∃ l, d.Uses l ∧ l' = l.image f

theorem ImageOf.node {f : Symbol → Symbol} {place : SpanLabel} {rule rule' : RuleName}
    {parts parts' : Trail Derivation}
    (h : Trail.Along (fun _ _ d d' => ImageOf f d d') place.last parts parts') :
    ImageOf f (node place rule parts) (node (place.image f) rule' parts') := by
  refine ⟨rfl, fun l hl => ?_, fun l' hl' => ?_⟩
  · cases hl with
    | here heq => exact .here (congrArg (SpanLabel.image f) heq)
    | part hmem huses =>
      obtain ⟨p, q, hplaced⟩ := Trail.exists_placed hmem place.last
      obtain ⟨d', hd', himage⟩ := h.flip.of_mem_placed hplaced
      exact .part (Trail.mem_entries_of_mem_placed hd') (himage.uses l huses)
  · cases hl' with
    | here heq => exact ⟨place, .here rfl, heq.symm⟩
    | part hmem huses =>
      obtain ⟨p, q, hplaced⟩ := Trail.exists_placed hmem place.last
      obtain ⟨d, hd, himage⟩ := h.of_mem_placed hplaced
      obtain ⟨l, hl, heq⟩ := himage.used l' huses
      exact ⟨l, .part (Trail.mem_entries_of_mem_placed hd) hl, heq⟩

theorem Made.exists_image {g h : Grammar V} (hg : ∀ t ∈ g, t.Legible) (hh : ∀ t ∈ h, t.Legible)
    {f : Symbol → Symbol} (hcovers : h.Covers f g)
    (hwords : ∀ s : Symbol, s.isTerminal = true → f s = s) {o : Options V}
    (hpos : o.posMode = false) {lattice : Lattice V} (hterm : lattice.AllTerminal)
    {d : Derivation} (hd : d.Made g o lattice .none) :
    ∃ d', d'.Made h o lattice .none ∧ ImageOf f d d' := by
  induction hd with
  | @node place rule parts pair span _ _ named label fits below ih =>
    obtain ⟨pair', hmem, hlhs, hpath⟩ := hcovers pair (Grammar.mem_pairs_of_pair? named)
    obtain ⟨rule', named'⟩ := Grammar.exists_pair?_of_mem_pairs hmem
    obtain ⟨⟨t, hover⟩, hword⟩ := (Application.fits_iff_word? hg hpos named).mp fits
    obtain ⟨parts', halong⟩ := Trail.Along.exists_of_placed
      (fun _ _ d d' => Made h o lattice .none d' ∧ ImageOf f d d') place.last parts
      fun p q d hd => ih d (Trail.mem_entries_of_mem_placed hd)
    refine ⟨.node (place.image f) rule' parts', .node span rfl rfl named' ?_ ?_ ?_,
      .node (halong.imp fun _ _ _ _ hd => hd.2)⟩
    · rw [(Grammar.aligned_of_pair? hh named').side, hlhs,
        ← (Grammar.aligned_of_pair? hg named).side o.yieldSource, label]
      rfl
    · have hover' :
          parts'.Over t o lattice (Trail.placedAt Derivation.place) place.first place.last :=
        halong.runs_over (fun p q d d' hd himage => by
          obtain ⟨hp, hq⟩ := (hover.mem_placed hd).2.2.2
          rw [Trail.placedAt, Set.mem_ofPred_eq, himage.2.place]
          exact ⟨hp, hq⟩) hover
      refine (Application.fits_iff_word? hh hpos named').mpr ⟨⟨t, hover'⟩, ?_⟩
      rw [halong.word?_image hterm hwords fun _ _ _ _ hd => by rw [hd.2.place]; rfl, hword, hpath]
      rfl
    · intro d' hd'
      obtain ⟨p, q, hplaced⟩ := Trail.exists_placed hd' place.last
      obtain ⟨_, -, hmade, -⟩ := halong.of_mem_placed hplaced
      exact hmade

end Derivation

end ParseForest
