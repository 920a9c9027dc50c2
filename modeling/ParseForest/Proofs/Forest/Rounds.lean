import ParseForest.Proofs.Forest.Chains

/-!
# How long a span is closed

Each round of the closure of a span makes the constituents of the next level. A level brings a label
when it has a constituent whose label no constituent of a lower level has. The rounds end when as
many levels have brought no label as the closure may stagnate, or when there is nothing left to
apply rules to. So the levels of a finished span tell which of its constituents the unary rules have
been applied to.
-/

namespace ParseForest

variable {V : Type}

/-! ## Levels that bring a label -/

def Brings (found : List Constituent) (level : Nat) : Prop :=
  ∃ c ∈ found, c.level = level ∧ ∀ d ∈ found, d.level < level → d.label ≠ c.label

instance (found : List Constituent) (level : Nat) : Decidable (Brings found level) :=
  inferInstanceAs (Decidable (∃ c ∈ found, c.level = level ∧
    ∀ d ∈ found, d.level < level → d.label ≠ c.label))

/-- How many of the first `n` rounds brought no label. -/
def idleRounds (found : List Constituent) (n : Nat) : Nat :=
  (List.range n).countP fun r => ¬Brings found (r + 1)

theorem idleRounds_succ (found : List Constituent) (n : Nat) :
    idleRounds found (n + 1) = idleRounds found n + if Brings found (n + 1) then 0 else 1 := by
  rw [idleRounds, List.range_succ, List.countP_append, List.countP_singleton, ← idleRounds]
  by_cases h : Brings found (n + 1)
  · simp [h]
  · simp [h]

theorem idleRounds_mono (found : List Constituent) {n m : Nat} (h : n ≤ m) :
    idleRounds found n ≤ idleRounds found m := by
  induction h with
  | refl => exact Nat.le_refl _
  | step _ ih =>
    rw [idleRounds_succ]
    omega

theorem Brings.congr {found found' : List Constituent} {level : Nat}
    (h : ∀ c, c.level ≤ level → (c ∈ found ↔ c ∈ found')) (hb : Brings found level) :
    Brings found' level := by
  obtain ⟨c, hc, hlevel, hnew⟩ := hb
  exact ⟨c, (h c (Nat.le_of_eq hlevel)).mp hc, hlevel, fun d hd hlt =>
    hnew d ((h d (Nat.le_of_lt hlt)).mpr hd) hlt⟩

theorem idleRounds_congr {found found' : List Constituent} {n : Nat}
    (h : ∀ c, c.level ≤ n → (c ∈ found ↔ c ∈ found')) :
    idleRounds found n = idleRounds found' n := by
  refine List.countP_congr fun r hr => ?_
  have hle : r + 1 ≤ n := List.mem_range.mp hr
  have hiff : Brings found (r + 1) ↔ Brings found' (r + 1) :=
    ⟨Brings.congr fun c hc => h c (hc.trans hle),
      Brings.congr fun c hc => (h c (hc.trans hle)).symm⟩
  rw [decide_eq_true_iff, decide_eq_true_iff, hiff]

variable [Scalar V]

namespace Building

variable {g : Grammar V} {lattice : Lattice V} {site : Site V} {distance : Nat}
  {cells : Nat → Nat → List Constituent} {b : SpanBuild V} {ledger : List Entry}

/-- From a level on, there is a next level only while the closure does not stagnate, and while it
does not, there is one wherever a unary rule can be applied. -/
structure Paced (g : Grammar V) (site : Site V) (distance : Nat) (found : List Constituent)
    (level : Nat) : Prop where
  within : ∀ n, level ≤ n → (∃ c ∈ found, c.level = n + 1) →
    idleRounds found n < site.options.forestStagnation
  onward : ∀ c ∈ found, level ≤ c.level →
    idleRounds found c.level < site.options.forestStagnation →
    (∃ a, UnaryStep g site distance [c] a) → ∃ d ∈ found, d.level = c.level + 1

omit [Scalar V] in
theorem Paced.perm {found found' : List Constituent} {level : Nat} (hperm : found.Perm found')
    (h : Paced g site distance found level) : Paced g site distance found' level := by
  have hidle : ∀ n, idleRounds found' n = idleRounds found n := fun n =>
    idleRounds_congr fun c _ => hperm.mem_iff.symm
  constructor
  · rintro n hle ⟨c, hc, hlevel⟩
    rw [hidle]
    exact h.within n hle ⟨c, hperm.mem_iff.mpr hc, hlevel⟩
  · intro c hc hle hlt happly
    rw [hidle] at hlt
    obtain ⟨d, hd, hlevel⟩ := h.onward c (hperm.mem_iff.mpr hc) hle hlt happly
    exact ⟨d, hperm.mem_iff.mp hd, hlevel⟩

def PacedFrom (g : Grammar V) (site : Site V) (distance : Nat) (b last : SpanBuild V)
    (level : Nat) : Prop :=
  ∃ new, last.found = b.found ++ new ∧ (∀ c ∈ new, level < c.level) ∧
    Paced g site distance last.found level

omit [Scalar V] in
theorem PacedFrom.refl {level : Nat} (hlow : ∀ c ∈ b.found, c.level ≤ level)
    (hlast : ∀ c ∈ b.found, c.level = level →
      site.options.forestStagnation ≤ idleRounds b.found level) :
    PacedFrom g site distance b b level := by
  refine ⟨[], (List.append_nil _).symm, nofun, ?_, fun c hc hle hmore => ?_⟩
  · rintro n hle ⟨c, hc, hlevel⟩
    have := hlow c hc
    omega
  · have heq := Nat.le_antisymm (hlow c hc) hle
    have := hlast c hc heq
    rw [heq] at hmore
    omega

omit [Scalar V] in
theorem PacedFrom.back {after last : SpanBuild V} {new : List Constituent} {level : Nat}
    (hfound : after.found = b.found ++ new) (hnew : ∀ c ∈ new, c.level = level + 1)
    (happlied : ∀ c ∈ b.found, c.level = level →
      (∃ a, UnaryStep g site distance [c] a) → new ≠ [])
    (hidle : idleRounds b.found level < site.options.forestStagnation)
    (h : PacedFrom g site distance after last (level + 1)) :
    PacedFrom g site distance b last level := by
  obtain ⟨new', hlast, hup, hpaced⟩ := h
  rw [hfound, List.append_assoc] at hlast
  have habove : ∀ c ∈ new ++ new', level < c.level := by
    intro c hc
    rcases List.mem_append.mp hc with hc | hc
    · exact Nat.lt_of_lt_of_eq (Nat.lt_succ_self level) (hnew c hc).symm
    · exact Nat.lt_of_succ_lt (hup c hc)
  have hlow : ∀ c, c.level ≤ level → (c ∈ last.found ↔ c ∈ b.found) := by
    intro c hc
    rw [hlast, List.mem_append]
    exact or_iff_left fun hmem => Nat.not_lt.mpr hc (habove c hmem)
  refine ⟨new ++ new', hlast, habove, fun n hle hc => ?_, fun c hc hle hlt happly => ?_⟩
  · rcases Nat.lt_or_eq_of_le hle with hlt | rfl
    · exact hpaced.within n hlt hc
    · rw [idleRounds_congr hlow]
      exact hidle
  · rcases Nat.lt_or_eq_of_le hle with hgt | heq
    · exact hpaced.onward c hc hgt hlt happly
    · have hold := (hlow c (Nat.le_of_eq heq.symm)).mp hc
      obtain ⟨d, hd⟩ := List.exists_mem_of_ne_nil _ (happlied c hold heq.symm happly)
      refine ⟨d, ?_, by rw [hnew d hd, heq]⟩
      rw [hlast]
      exact List.mem_append_right _ (List.mem_append_left _ hd)

omit [Scalar V] in
theorem idleRounds_append {before after : SpanBuild V} {new : List Constituent} {level : Nat}
    (hfound : after.found = before.found ++ new) (hlow : ∀ c ∈ before.found, c.level ≤ level)
    (hnew : ∀ c ∈ new, c.level = level + 1) : idleRounds after.found (level + 1) =
      idleRounds before.found level + if SpanBuild.grew before after then 0 else 1 := by
  have hmem : ∀ c, c.level ≤ level → (c ∈ after.found ↔ c ∈ before.found) := by
    intro c hc
    rw [hfound, List.mem_append]
    refine or_iff_left fun hmem => ?_
    have := hnew c hmem
    omega
  have hbrings : Brings after.found (level + 1) ↔ SpanBuild.grew before after = true := by
    rw [grew_eq_true_iff hfound]
    constructor
    · rintro ⟨c, hc, hlevel, hlabel⟩
      rw [hfound] at hc
      refine ⟨c, (List.mem_append.mp hc).resolve_left fun hc => ?_, fun d hd => ?_⟩
      · have := hlow c hc
        omega
      · exact hlabel d (hfound ▸ List.mem_append_left new hd) (Nat.lt_succ_of_le (hlow d hd))
    · rintro ⟨c, hc, hlabel⟩
      exact ⟨c, hfound ▸ List.mem_append_right _ hc, hnew c hc, fun d hd hlt =>
        hlabel d ((hmem d (Nat.le_of_lt_succ hlt)).mp hd)⟩
  rw [idleRounds_succ, idleRounds_congr hmem]
  simp only [hbrings]

theorem exists_of_unaryStep (h : Building g lattice site cells b ledger) {a : Entry}
    (hmem : a ∈ ledger) {c : Constituent} (ha : UnaryStep g site distance [c] a) :
    ∃ d ∈ b.found, d.level = c.level + 1 := by
  obtain ⟨e, he⟩ := List.getElem?_of_mem hmem
  obtain ⟨-, d, -, hd, -, hlevel, -⟩ := h.recorded.edge e a he
  obtain ⟨-, pair, -, -, hplace⟩ := eq_of_recorded ha.1
  rw [hplace, cellsWith_self] at hd
  refine ⟨d, hd, hlevel.trans (ha.level fun d hd => ?_)⟩
  rw [List.mem_singleton.mp hd]

theorem ne_nil_of_unaryStep {after : SpanBuild V} {added : List Entry} {done level : Nat}
    {new : List Constituent} (hb : Building g lattice site cells after (ledger ++ added))
    (hfound : after.found = b.found ++ new) (hlayered : Layered b.found done level)
    (hadded : ∀ a, a ∈ added ↔ UnaryStep g site distance (b.found.drop done) a) :
    ∀ c ∈ b.found, c.level = level → (∃ a, UnaryStep g site distance [c] a) → new ≠ [] := by
  rintro c hc hlevel ⟨a, ha⟩ rfl
  have hmem := (hadded a).mpr (ha.mono fun d hd => by
    rw [List.mem_singleton.mp hd]
    exact (hlayered.mem_frontier_iff c).mpr ⟨hc, hlevel⟩)
  obtain ⟨d, hd, hdlevel⟩ := hb.exists_of_unaryStep (List.mem_append_right ledger hmem) ha
  rw [hfound, List.append_nil] at hd
  have := hlayered.level_le d hd
  omega

variable (distance) in
/-- The rounds from a level on, where `stagnant` counts the idle rounds so far. -/
theorem pacedFrom_closeFrom (fuel stagnant done level : Nat)
    (h : Building g lattice site cells b ledger) (hlayered : Layered b.found done level)
    (hidle : idleRounds b.found level = stagnant)
    (hlt : stagnant < site.options.forestStagnation)
    (hfuel : (g.unknown site.options b.hasLabel).length +
      (site.options.forestStagnation - stagnant) ≤ fuel) :
    PacedFrom g site distance b (SpanBuild.closeFrom site g distance fuel stagnant done b)
      level := by
  induction fuel generalizing stagnant done level b ledger with
  | zero => omega
  | succ fuel ih =>
    rw [SpanBuild.closeFrom]
    split
    · -- nothing was made in the last round, so no constituent has the level
      rename_i hempty
      rw [List.isEmpty_iff] at hempty
      refine PacedFrom.refl hlayered.level_le fun c hc hlevel => ?_
      have hmem := (hlayered.mem_frontier_iff c).mpr ⟨hc, hlevel⟩
      rw [hempty] at hmem
      cases hmem
    · obtain ⟨added, new, hb, hfound, hnew, hsteps, -⟩ := h.round distance
        (b.found.drop done) (h.nodup.sublist (List.drop_sublist _ _)) level
        (fun c hc => (hlayered.mem_frontier_iff c).mp hc) hlayered.level_le
      simp only
      generalize b.round site g distance (b.found.drop done) = after at *
      have hcat := fun c hc => (hnew c hc).1
      have hnext := hfound ▸ hlayered.next hcat
      have hcount := idleRounds_append hfound hlayered.level_le hcat
      rw [hidle] at hcount
      refine PacedFrom.back hfound hcat (ne_nil_of_unaryStep hb hfound hlayered hsteps.2)
        (hidle ▸ hlt) ?_
      split
      · rename_i hgrew
        have hless := length_unknown_lt_of_grew hfound (fun c hc => (hnew c hc).2) hgrew
        rw [if_pos hgrew] at hcount
        exact ih stagnant b.found.length (level + 1) hb hnext hcount hlt (by omega)
      · rename_i hgrew
        rw [if_neg hgrew] at hcount
        split
        · exact PacedFrom.refl hnext.level_le fun c hc hlevel => by omega
        · have hle := Grammar.length_unknown_mono (g := g) (o := site.options)
            (hasLabel_of_append hfound)
          exact ih (stagnant + 1) b.found.length (level + 1) hb hnext hcount (by omega) (by omega)

variable (distance) in
theorem paced_close (h : Building g lattice site cells b ledger)
    (hlevels : ∀ c ∈ b.found, c.level = 0) :
    Paced g site distance (b.close site g distance).found 0 := by
  unfold SpanBuild.close
  split
  · rename_i hzero
    constructor
    · rintro n - ⟨c, hc, hlevel⟩
      rw [hlevels c hc] at hlevel
      cases hlevel
    · intro c _ _ hlt
      rw [hzero] at hlt
      cases hlt
  · have hunknown := g.length_unknown_le site.options b.hasLabel
    obtain ⟨-, -, -, hpaced⟩ := h.pacedFrom_closeFrom distance
      (SpanBuild.roundLimit site.options g) 0 0 0 ⟨nofun, hlevels⟩ rfl (by omega)
      (by rw [SpanBuild.roundLimit]; omega)
    exact hpaced

end Building

namespace ForestState

variable {g : Grammar V} {o : Options V} {lattice : Lattice V} {pruner : Pruner}

theorem paced_cells {first last : Nat} (hspan : first < last ∧ last ≤ lattice.size)
    (hleft : pruner.skipsSpan first last = false) :
    Building.Paced g ⟨o, pruner, first, last⟩ (lattice.distanceTable.length first last)
      (cells g o lattice pruner first last) 0 := by
  have hmem : (first, last) ∈ Chart.spansByLength lattice.size :=
    Chart.mem_spansByLength.mpr hspan
  obtain ⟨done, rest, hsplit⟩ := List.append_of_mem hmem
  obtain ⟨ledger, hran⟩ : ∃ ledger, Ran g o lattice pruner done (upTo g o lattice pruner done)
      ledger := exists_ran hsplit
  obtain ⟨xs, -, -, hb, hbase⟩ := exists_applied hsplit hran
  exact (hb.paced_close _ hbase).perm (perm_cells_built hsplit hleft).symm

theorem idleRounds_cells {done rest : List (Nat × Nat)} {first last : Nat}
    (hsplit : Chart.spansByLength lattice.size = done ++ (first, last) :: rest)
    (hleft : pruner.skipsSpan first last = false) (n : Nat) :
    idleRounds (cells g o lattice pruner first last) n =
      idleRounds (built g o lattice pruner (upTo g o lattice pruner done) first last).found n :=
  idleRounds_congr fun _ _ => (perm_cells_built hsplit hleft).mem_iff

variable {ledger : List Entry}
  (h : Ran g o lattice pruner (Chart.spansByLength lattice.size) (run g o lattice pruner) ledger)
include h

/-- A unary rule is applied to a constituent exactly when fewer rounds than the closure may stagnate
have been idle up to its level. -/
theorem Ran.mem_ledger_iff_idleRounds {a : Entry}
    (ha : Genuine g o lattice pruner (listed (cells g o lattice pruner)) a) {c : Constituent}
    (hparts : a.step.parts = .entry .start a.place.first c) :
    a ∈ ledger ↔ idleRounds (cells g o lattice pruner a.place.first a.place.last) c.level <
      o.forestStagnation := by
  have hpaced := paced_cells (g := g) (o := o) ha.span ha.spanLeft
  constructor
  · intro hmem
    obtain ⟨-, d, hd, -, hlevel⟩ := h.mem_ledger_iff_derived.mp hmem
    rw [hparts] at hlevel
    exact hpaced.within c.level (Nat.zero_le _) ⟨d, hd, hlevel⟩
  · intro hlt
    obtain ⟨hc, hstep⟩ := unaryStep_of_genuine ha hparts
    exact h.layers a ha (Chart.mem_spansByLength.mpr ha.span) c hparts
      (hpaced.onward c hc (Nat.zero_le _) hlt ⟨a, hstep⟩)

theorem Ran.mem_ledger_of_idleRounds {a : Entry}
    (ha : Genuine g o lattice pruner (listed (cells g o lattice pruner)) a)
    (hidle : ∀ n, a.step.parts.level = n + 1 →
      idleRounds (cells g o lattice pruner a.place.first a.place.last) n < o.forestStagnation) :
    a ∈ ledger := by
  by_cases hbegins : a.step.parts.Begins (a.place.first, a.place.last) a.place.first a.place.last
  · obtain ⟨t, -, hover, -⟩ := ha.fits
    obtain ⟨c, hparts⟩ := hover.begins_iff.mp hbegins
    exact (h.mem_ledger_iff_idleRounds ha hparts).mpr (hidle c.level (by rw [hparts]; rfl))
  · exact h.complete a ha (Chart.mem_spansByLength.mpr ha.span) hbegins

end ForestState

end ParseForest
