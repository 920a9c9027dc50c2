import ParseForest.Proofs.Track

/-!
# Matched rule pairs

A rule pair of a grammar is named by its table, its state there and its place among the rule pairs
of that state. An application takes a named rule pair and a trail that ends in its state. When the
rule pairs of a span are read off, each application over the span turns up once, but for those
whose trail is a single entry: these are left to the unary rules.
-/

namespace ParseForest

variable {V E L : Type}

theorem RuleTable.covers_mono {t : RuleTable V} {d d' : Nat} (hle : d ≤ d')
    (h : t.covers d' = true) : t.covers d = true := by
  unfold covers at h ⊢
  cases hm : t.maxSpan with
  | none => rfl
  | some m =>
    rw [hm, Option.all_some, decide_eq_true_eq] at h
    rw [Option.all_some, decide_eq_true_eq]
    exact Nat.le_trans hle h

structure RuleName where
  table : Nat
  state : StateId
  slot : Nat
  deriving DecidableEq

def Grammar.pair? (g : Grammar V) (r : RuleName) : Option (RulePair V) :=
  g[r.table]?.bind fun t => (t.rulesAt r.state)[r.slot]?

@[ext]
structure Application (E : Type) where
  rule : RuleName
  parts : Trail E
  deriving DecidableEq

namespace Application

def Fits (label : E → Symbol) (g : Grammar V) (o : Options V) (lattice : Lattice V)
    (entries : (first last : Nat) → Set E) (first last : Nat) (a : Application E) : Prop :=
  ∃ t, g[a.rule.table]? = some t ∧ a.parts.Over t o lattice entries first last ∧
    a.parts.state? label t o lattice = some a.rule.state

def result? (c : Carrier V E L) (g : Grammar V) (lattice : Lattice V) (a : Application E) :
    Option (RulePair V × L) :=
  (g.pair? a.rule).map fun pair => (pair, a.parts.load c lattice)

theorem fits_along {E' : Type} {label : E → Symbol} {label' : E' → Symbol} {g : Grammar V}
    {o : Options V} {lattice : Lattice V} {entries : (first last : Nat) → Set E}
    {entries' : (first last : Nat) → Set E'} {first last : Nat}
    {R : (first last : Nat) → E → E' → Prop} {r : RuleName} {x : Trail E} {x' : Trail E'}
    (hlabel : ∀ p q e e', R p q e e' → label e = label' e')
    (hent : ∀ p q e e', (p, q, e) ∈ x.placed last → R p q e e' → e' ∈ entries' p q)
    (h : Trail.Along R last x x') (hx : Fits label g o lattice entries first last ⟨r, x⟩) :
    Fits label' g o lattice entries' first last ⟨r, x'⟩ := by
  obtain ⟨t, ht, hover, hstate⟩ := hx
  exact ⟨t, ht, h.runs_over hent hover, (h.state?_eq hlabel t o lattice).symm.trans hstate⟩

variable {label : E → Symbol} {g : Grammar V} {o : Options V} {lattice : Lattice V}
  {entries : (first last : Nat) → Set E} {first last : Nat}

theorem Fits.exists_unary {a : Application E}
    (h : a.Fits label g o lattice entries first last)
    (hbegins : a.parts.Begins (first, last) first last) {pair : RulePair V}
    (hpair : g.pair? a.rule = some pair) :
    ∃ e ∈ entries first last, a.parts = .entry .start first e ∧ ∃ t ∈ g,
      t.covers (lattice.distanceTable.length first last) = true ∧ pair ∈ t.unaryRules (label e) := by
  obtain ⟨t, ht, hover, hstate⟩ := h
  obtain ⟨e, hparts⟩ := hover.begins_iff.mp hbegins
  rw [hparts] at hover hstate
  obtain ⟨-, -, -, he, hcov⟩ := hover
  refine ⟨e, he, hparts, t, List.mem_of_getElem? ht, hcov, ?_⟩
  rw [Trail.state?, Trail.state?, Option.bind_some] at hstate
  rw [Grammar.pair?, ht, Option.bind_some] at hpair
  unfold RuleTable.unaryRules
  by_cases hroot : t.next RuleTable.root (label e) = RuleTable.root
  · rw [if_pos hroot] at hstate
    cases hstate
  · rw [if_neg hroot] at hstate
    simp only [if_neg hroot]
    rw [Option.some.inj hstate]
    exact List.mem_of_getElem? hpair

theorem exists_fits_of_unary (hspan : first < last ∧ last ≤ lattice.size) {t : RuleTable V}
    (ht : t ∈ g) (hcov : t.covers (lattice.distanceTable.length first last) = true) {e : E}
    (he : e ∈ entries first last) {pair : RulePair V} (hpair : pair ∈ t.unaryRules (label e)) :
    ∃ r, g.pair? r = some pair ∧
      Fits label g o lattice entries first last ⟨r, .entry .start first e⟩ := by
  obtain ⟨i, hi⟩ := List.getElem?_of_mem ht
  unfold RuleTable.unaryRules at hpair
  by_cases hroot : t.next RuleTable.root (label e) = RuleTable.root
  · simp only [if_pos hroot] at hpair
    cases hpair
  · simp only [if_neg hroot] at hpair
    obtain ⟨k, hk⟩ := List.getElem?_of_mem hpair
    have hfirst : first < lattice.size := Nat.lt_of_lt_of_le hspan.1 hspan.2
    refine ⟨⟨i, t.next RuleTable.root (label e), k⟩, ?_, t, hi, ?_, ?_⟩
    · rw [Grammar.pair?, hi]
      exact hk
    · exact ⟨⟨rfl, hfirst, t.covers_mono (Nat.zero_le _) hcov⟩, hspan.1, hspan.2, he, hcov⟩
    · rw [Trail.state?, Trail.state?, Option.bind_some, if_neg hroot]

end Application

namespace Track

variable {c : Carrier V E L} {o : Options V} {lattice : Lattice V}
variable {entries : (first last : Nat) → List E} {g : Grammar V}
variable {done rest : List (Nat × Nat)} {first last : Nat}

theorem enumerates_completed {i : Nat} {t : RuleTable V} (ht : g[i]? = some t) {tr : Track V L}
    (htable : tr.table = t) {P : Trail E → Prop}
    (h : Enumerates (Trail.item? c t o lattice) P (tr.items.get first last)) :
    Enumerates (Application.result? c g lattice)
      (fun a => (g[i]? = some t ∧ a.rule.table = i) ∧ P a.parts ∧
        a.parts.state? c.label t o lattice = some a.rule.state ∧ (g.pair? a.rule).isSome = true)
      (tr.completed first last) := by
  have heach := h.each fun item => (tr.table.rulesAt item.state).map fun pair => (pair, item.load)
  obtain ⟨zs, hnd, hmem, heq⟩ := heach
  -- the state of an application is the one that its trail reaches
  let name : Trail E × Nat → Application E := fun z =>
    ⟨⟨i, (z.1.state? c.label t o lattice).getD RuleTable.root, z.2⟩, z.1⟩
  have hpair : ∀ s k, g.pair? ⟨i, s, k⟩ = (t.rulesAt s)[k]? := by
    intro s k
    rw [Grammar.pair?, ht]
    rfl
  refine ⟨zs.map name, hnd.map fun z z' hz => ?_, fun a => ?_, ?_⟩
  · simp only [name, Application.mk.injEq, RuleName.mk.injEq] at hz
    exact Prod.ext hz.2 hz.1.2.2
  · rw [List.mem_map]
    constructor
    · rintro ⟨z, hz, rfl⟩
      obtain ⟨hP, item, hitem, hlt⟩ := (hmem z).mp hz
      rw [Trail.item?_eq] at hitem
      obtain ⟨s, hs, rfl⟩ := Option.map_eq_some_iff.mp hitem
      rw [List.length_map, htable] at hlt
      simp only [name, hs, Option.getD_some, hpair]
      refine ⟨⟨ht, trivial⟩, hP, trivial, ?_⟩
      rw [List.getElem?_eq_getElem hlt, Option.isSome_some]
    · rintro ⟨⟨-, hi⟩, hP, hs, hsome⟩
      obtain ⟨⟨i', s, k⟩, x⟩ := a
      simp only at hi hs hP
      subst hi
      rw [hpair] at hsome
      obtain ⟨pair, hk⟩ := Option.isSome_iff_exists.mp hsome
      have hlt := (List.getElem?_eq_some_iff.mp hk).1
      refine ⟨(x, k), (hmem _).mpr ⟨hP, ⟨s, x.load c lattice⟩, ?_, ?_⟩, ?_⟩
      · rw [Trail.item?_eq, hs]
        rfl
      · rw [List.length_map, htable]
        exact hlt
      · simp only [name, hs, Option.getD_some]
  · rw [List.filterMap_map]
    refine Eq.trans (List.filterMap_congr fun z hz => ?_) heq
    obtain ⟨hP, item, hitem, hlt⟩ := (hmem z).mp hz
    rw [Trail.item?_eq] at hitem
    obtain ⟨s, hs, rfl⟩ := Option.map_eq_some_iff.mp hitem
    simp only [Function.comp_def, Application.result?, name, hs, Option.getD_some, hpair,
      Trail.item?_eq, Option.map_some, Option.bind_some, List.getElem?_map, htable]

/-- The rule pairs that are read off a span: one for each application over it whose trail is not a
single entry. -/
theorem enumerates_matched (hnd : ∀ p q, (entries p q).Nodup)
    (hsplit : Chart.spansByLength lattice.size = done ++ (first, last) :: rest) :
    Enumerates (Application.result? c g lattice)
      (fun a => a.Fits c.label g o lattice (listed entries) first last ∧
        ¬a.parts.Begins (first, last) first last ∧ (g.pair? a.rule).isSome = true)
      ((g.map fun t => (after c o lattice entries t done).advance c o lattice entries first last
        (lattice.distanceTable.length first last)).flatMap (completed first last)) := by
  have htable : ∀ t, ((after c o lattice entries t done).advance c o lattice entries first last
      (lattice.distanceTable.length first last)).table = t := by
    intro t
    exact ((filled_after hnd hsplit (t := t) (c := c) (o := o)).advance hsplit
      fun p => hnd p last).table
  have hzip : g.map (fun t => (after c o lattice entries t done).advance c o lattice entries first
      last (lattice.distanceTable.length first last)) = g.zipIdx.map fun ti =>
      (after c o lattice entries ti.1 done).advance c o lattice entries first last
        (lattice.distanceTable.length first last) := by
    conv_lhs => rw [← List.zipIdx_map_fst 0 g]
    rw [List.map_map]
    rfl
  rw [hzip, List.flatMap_map]
  have hndz : g.zipIdx.Nodup := List.Nodup.of_map Prod.snd (List.nodup_zipIdx_map_snd _)
  refine (Enumerates.flatMap hndz (fun ti hti => enumerates_completed
    (List.mem_zipIdx_iff_getElem?.mp hti) (htable ti.1)
    (enumerates_advanced hnd hsplit (t := ti.1))) ?_).congr fun a => ?_
  · rintro ⟨t, i⟩ ⟨t', i'⟩ a ⟨⟨ht, hi⟩, -⟩ ⟨⟨ht', hi'⟩, -⟩
    simp only at ht hi ht' hi'
    rw [← hi] at ht
    rw [← hi', ht] at ht'
    rw [Option.some.inj ht', ← hi, ← hi']
  · constructor
    · rintro ⟨ti, -, ⟨ht, hi⟩, ⟨hover, hbegins⟩, hstate, hsome⟩
      rw [← hi] at ht
      exact ⟨⟨ti.1, ht, hover, hstate⟩, hbegins, hsome⟩
    · rintro ⟨⟨t, ht, hover, hstate⟩, hbegins, hsome⟩
      exact ⟨(t, a.rule.table), List.mem_zipIdx_iff_getElem?.mpr ht, ⟨ht, rfl⟩, ⟨hover, hbegins⟩,
        hstate, hsome⟩

end Track

end ParseForest
