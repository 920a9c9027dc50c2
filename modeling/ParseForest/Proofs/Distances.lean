import Mathlib.Order.Bounds.Basic
import ParseForest.Proofs.Trail

/-!
# Shortest distances

Arcs lead forward, so when the arcs of a position are relaxed no arc that ends there is still to
come. Hence every distance that is known in the end is that of a path, and no path is shorter.

Items move over arcs and over constituents, so what is matched over a span follows a path.
-/

namespace ParseForest

variable {V : Type}

namespace Lattice

variable {lattice : Lattice V}

/-- Arcs lead from one position to another, and so many of them are not epsilon arcs. -/
inductive Path (lattice : Lattice V) (first : Nat) : (last distance : Nat) → Prop
  | stay (h : first ≤ lattice.size) : Path lattice first first 0
  | step {p d : Nat} {a : Arc V} (before : Path lattice first p d) (ha : a ∈ lattice.arcsAt p) :
      Path lattice first (p + a.distance) (d + a.cost)

namespace Path

variable {first middle last d d' : Nat}

theorem bounds (h : lattice.Path first last d) :
    first ≤ last ∧ last ≤ lattice.size ∧ d ≤ last - first := by
  induction h with
  | stay h => omega
  | @step p d a before ha ih =>
    have ha := arc_bounds ha
    have hcost : a.cost ≤ 1 := by
      unfold Arc.cost
      split <;> omega
    omega

theorem trans (h : lattice.Path first middle d) (h' : lattice.Path middle last d') :
    lattice.Path first last (d + d') := by
  induction h' with
  | stay => exact h
  | step _ ha ih =>
    rw [← Nat.add_assoc]
    exact ih.step ha

end Path

/-! ## Relaxing the arcs of a position -/

def known (distances : Array (Option Nat)) (p : Nat) : Option Nat := distances[p]?.join

theorem known_modify (distances : Array (Option Nat)) (p new j : Nat) :
    known (distances.modify p (closer new)) j =
      if p = j ∧ j < distances.size then closer new (known distances j)
      else known distances j := by
  unfold known
  rw [Array.getElem?_modify]
  by_cases hp : p = j
  · by_cases hj : j < distances.size
    · rw [if_pos hp, if_pos ⟨hp, hj⟩, Array.getElem?_eq_getElem hj]
      rfl
    · rw [if_pos hp, if_neg fun h => hj h.2, Array.getElem?_eq_none (Nat.not_lt.mp hj)]
      rfl
  · rw [if_neg hp, if_neg fun h => hp h.1]

theorem exists_closer_le (new : Nat) (old : Option Nat) :
    ∃ d, closer new old = some d ∧ d ≤ new ∧ (∀ d', old = some d' → d ≤ d') ∧
      (d = new ∨ old = some d) := by
  cases old with
  | none => exact ⟨new, rfl, Nat.le_refl _, nofun, .inl rfl⟩
  | some old =>
    refine ⟨min old new, rfl, Nat.min_le_right _ _, fun d' h => ?_, ?_⟩
    · rw [← Option.some.inj h]
      exact Nat.min_le_left _ _
    · rcases Nat.le_total old new with h | h
      · exact .inr (by rw [Nat.min_eq_left h])
      · exact .inl (Nat.min_eq_right h)

structure Relaxed (arcs : List (Arc V)) (p here : Nat) (distances distances' : Array (Option Nat)) :
    Prop where
  size : distances'.size = distances.size
  lower : ∀ j d, known distances j = some d → ∃ d' ≤ d, known distances' j = some d'
  reached : ∀ a ∈ arcs, p + a.distance < distances.size →
    ∃ d ≤ here + a.cost, known distances' (p + a.distance) = some d
  origin : ∀ j d, known distances' j = some d →
    known distances j = some d ∨ ∃ a ∈ arcs, j = p + a.distance ∧ d = here + a.cost

theorem relaxed_foldl (arcs : List (Arc V)) (p here : Nat) (distances : Array (Option Nat)) :
    Relaxed arcs p here distances (arcs.foldl
      (fun ds a => ds.modify (p + a.distance) (closer (here + a.cost))) distances) := by
  induction arcs generalizing distances with
  | nil =>
    exact ⟨rfl, fun j d h => ⟨d, Nat.le_refl d, h⟩, nofun, fun j d h => .inl h⟩
  | cons a arcs ih =>
    have hrest := ih (distances.modify (p + a.distance) (closer (here + a.cost)))
    have hsize : (distances.modify (p + a.distance) (closer (here + a.cost))).size =
        distances.size := Array.size_modify
    rw [List.foldl_cons]
    refine ⟨hrest.size.trans hsize, fun j d h => ?_, fun b hb hlt => ?_, fun j d h => ?_⟩
    · obtain ⟨new, hnew, -, hle, -⟩ := exists_closer_le (here + a.cost) (known distances j)
      have hmodify := known_modify distances (p + a.distance) (here + a.cost) j
      split at hmodify
      · obtain ⟨d', hd', hknown⟩ := hrest.lower j new (hmodify.trans hnew)
        exact ⟨d', Nat.le_trans hd' (hle d h), hknown⟩
      · exact hrest.lower j d (hmodify.trans h)
    · rcases List.mem_cons.mp hb with rfl | hb
      · obtain ⟨new, hnew, hle, -⟩ :=
          exists_closer_le (here + b.cost) (known distances (p + b.distance))
        have hmodify := known_modify distances (p + b.distance) (here + b.cost) (p + b.distance)
        rw [if_pos ⟨rfl, hlt⟩, hnew] at hmodify
        obtain ⟨d', hd', hknown⟩ := hrest.lower _ new hmodify
        exact ⟨d', Nat.le_trans hd' hle, hknown⟩
      · exact hrest.reached b hb (hsize ▸ hlt)
    · rcases hrest.origin j d h with h | ⟨b, hb, hj, hd⟩
      · rw [known_modify] at h
        split at h
        · rename_i hj
          obtain ⟨new, hnew, -, -, hor⟩ := exists_closer_le (here + a.cost) (known distances j)
          rw [hnew] at h
          cases h
          rcases hor with hd | hold
          · exact .inr ⟨a, List.mem_cons_self, hj.1.symm, hd⟩
          · exact .inl hold
        · exact .inl h
      · exact .inr ⟨b, List.mem_cons_of_mem _ hb, hj, hd⟩

/-! ## The pass over the positions -/

structure Settled (lattice : Lattice V) (first m : Nat) (distances : Array (Option Nat)) :
    Prop where
  size : distances.size = lattice.size + 1
  start : known distances first = some 0
  path : ∀ j d, known distances j = some d → lattice.Path first j d
  closed : ∀ p < m, ∀ a ∈ lattice.arcsAt p, ∀ d, known distances p = some d →
    ∃ d' ≤ d + a.cost, known distances (p + a.distance) = some d'

theorem settled_start {first : Nat} (h : first ≤ lattice.size) :
    lattice.Settled first first
      ((Array.replicate (lattice.size + 1) none).setIfInBounds first (some 0)) := by
  have hknown : ∀ j, known ((Array.replicate (lattice.size + 1) none).setIfInBounds first
      (some 0)) j = if first = j then some 0 else none := by
    intro j
    unfold known
    rw [Array.getElem?_setIfInBounds, Array.size_replicate]
    split
    · rw [if_pos (by omega)]
      rfl
    · rw [Array.getElem?_replicate]
      split <;> rfl
  refine ⟨by rw [Array.size_setIfInBounds, Array.size_replicate], by rw [hknown, if_pos rfl],
    fun j d hj => ?_, fun p hp a ha d hd => ?_⟩
  · rw [hknown] at hj
    split at hj
    · rename_i heq
      cases hj
      exact heq ▸ .stay h
    · cases hj
  · rw [hknown, if_neg (Nat.ne_of_gt hp)] at hd
    cases hd

theorem relax_of_none {distances : Array (Option Nat)} {arcs : List (Arc V)} {m : Nat}
    (h : known distances m = none) : relax distances (arcs, m) = distances := by
  rw [known] at h
  simp only [Lattice.relax, h]

theorem relax_of_some {distances : Array (Option Nat)} {arcs : List (Arc V)} {m here : Nat}
    (h : known distances m = some here) :
    relax distances (arcs, m) =
      arcs.foldl (fun ds a => ds.modify (m + a.distance) (closer (here + a.cost))) distances := by
  rw [known] at h
  simp only [Lattice.relax, h]

theorem Settled.relax {first m : Nat} {distances : Array (Option Nat)}
    (h : lattice.Settled first m distances) :
    lattice.Settled first (m + 1) (relax distances (lattice.arcsAt m, m)) := by
  cases hm : known distances m with
  | none =>
    rw [relax_of_none hm]
    refine ⟨h.size, h.start, h.path, fun p hp a ha d hd => ?_⟩
    rcases Nat.lt_or_eq_of_le (Nat.le_of_lt_succ hp) with hp | rfl
    · exact h.closed p hp a ha d hd
    · rw [hm] at hd
      cases hd
  | some here =>
    have hrel := relaxed_foldl (lattice.arcsAt m) m here distances
    rw [relax_of_some hm]
    -- arcs lead forward, so the distances of the positions up to `m` stay
    have hstay : ∀ p ≤ m, ∀ d, known ((lattice.arcsAt m).foldl
        (fun ds a => ds.modify (m + a.distance) (closer (here + a.cost))) distances) p = some d →
        known distances p = some d := by
      intro p hp d hd
      refine (hrel.origin p d hd).resolve_right ?_
      rintro ⟨a, ha, rfl, -⟩
      have ha := arc_bounds ha
      omega
    refine ⟨hrel.size.trans h.size, ?_, fun j d hj => ?_, fun p hp a ha d hd => ?_⟩
    · obtain ⟨d, hd, hknown⟩ := hrel.lower first 0 h.start
      rw [hknown, Nat.le_zero.mp hd]
    · rcases hrel.origin j d hj with hj | ⟨a, ha, rfl, rfl⟩
      · exact h.path j d hj
      · exact (h.path m here hm).step ha
    · replace hd := hstay p (Nat.le_of_lt_succ hp) d hd
      rcases Nat.lt_or_eq_of_le (Nat.le_of_lt_succ hp) with hp | rfl
      · obtain ⟨d', hle, hknown⟩ := h.closed p hp a ha d hd
        obtain ⟨d'', hle', hknown'⟩ := hrel.lower _ d' hknown
        exact ⟨d'', Nat.le_trans hle' hle, hknown'⟩
      · rw [hm] at hd
        cases hd
        have hend := arc_bounds ha
        exact hrel.reached a ha (by rw [h.size]; omega)

theorem Settled.foldl_relax {first m : Nat} {distances : Array (Option Nat)}
    (h : lattice.Settled first m distances) {rows : List (List (Arc V))}
    (hrows : rows = lattice.arcs.drop m) :
    lattice.Settled first (m + rows.length) ((rows.zipIdx m).foldl Lattice.relax distances) := by
  induction rows generalizing m distances with
  | nil => exact h
  | cons row rows ih =>
    have hrow : lattice.arcsAt m = row := by
      have hget : (lattice.arcs.drop m)[0]? = some row := by rw [← hrows]; rfl
      rw [List.getElem?_drop, Nat.add_zero] at hget
      rw [arcsAt, hget, Option.getD_some]
    have hdrop : rows = lattice.arcs.drop (m + 1) := by
      rw [← List.tail_drop, ← hrows, List.tail_cons]
    rw [List.zipIdx_cons, List.foldl_cons, List.length_cons, Nat.add_comm rows.length,
      ← Nat.add_assoc, ← hrow]
    exact ih h.relax hdrop

theorem settled_distancesFrom {first : Nat} (h : first ≤ lattice.size) :
    lattice.Settled first lattice.size (lattice.distancesFrom first) := by
  have hrun := (settled_start h).foldl_relax rfl
  rw [List.length_drop, ← size, Nat.add_sub_of_le h] at hrun
  have hrows : lattice.arcs.zipIdx.drop first = (lattice.arcs.drop first).zipIdx first := by
    refine List.ext_getElem? fun i => ?_
    rw [List.getElem?_drop, List.getElem?_zipIdx, List.getElem?_zipIdx, List.getElem?_drop,
      Nat.zero_add]
  rw [distancesFrom, hrows]
  exact hrun

theorem shortestDistance_eq_known {first : Nat} (h : first ≤ lattice.size) (last : Nat) :
    lattice.shortestDistance first last = known (lattice.distancesFrom first) last := by
  rw [shortestDistance, DistanceTable.get, distanceTable, Array.getElem?_map,
    Array.getElem?_range, if_pos (Nat.lt_succ_of_le h)]
  rfl

theorem shortestDistance_eq_none {first : Nat} (h : lattice.size < first) (last : Nat) :
    lattice.shortestDistance first last = none := by
  rw [shortestDistance, DistanceTable.get, distanceTable, Array.getElem?_eq_none]
  · rfl
  · rw [Array.size_map, Array.size_range]
    exact h

theorem path_of_shortestDistance {first last d : Nat}
    (h : lattice.shortestDistance first last = some d) : lattice.Path first last d := by
  by_cases hfirst : first ≤ lattice.size
  · rw [shortestDistance_eq_known hfirst] at h
    exact (settled_distancesFrom hfirst).path last d h
  · rw [shortestDistance_eq_none (Nat.not_le.mp hfirst)] at h
    cases h

theorem Path.exists_shortestDistance {first last d : Nat} (h : lattice.Path first last d) :
    ∃ d' ≤ d, lattice.shortestDistance first last = some d' := by
  have hbounds := h.bounds
  have hfirst : first ≤ lattice.size := by omega
  have hsettled := settled_distancesFrom hfirst
  rw [shortestDistance_eq_known hfirst]
  clear hbounds
  -- each arc of the path has been relaxed, so it keeps the known distance within that of the path
  induction h with
  | stay => exact ⟨0, Nat.le_refl 0, hsettled.start⟩
  | @step p d a before ha ih =>
    obtain ⟨d', hle, hknown⟩ := ih
    have hend := arc_bounds ha
    obtain ⟨d'', hle', hknown'⟩ := hsettled.closed p (by omega) a ha d' hknown
    exact ⟨d'', by omega, hknown'⟩

theorem Path.length_le {first last d : Nat} (h : lattice.Path first last d) :
    lattice.distanceTable.length first last ≤ last - first := by
  obtain ⟨d', -, hd'⟩ := h.exists_shortestDistance
  rw [DistanceTable.length, show lattice.distanceTable.get first last = some d' from hd',
    Option.getD_some]
  exact (path_of_shortestDistance hd').bounds.2.2

theorem shortestDistance_eq_some_iff {first last d : Nat} :
    lattice.shortestDistance first last = some d ↔ IsLeast {d | lattice.Path first last d} d := by
  constructor
  · intro h
    refine ⟨path_of_shortestDistance h, fun d' hd' => ?_⟩
    obtain ⟨d'', hle, hd''⟩ := hd'.exists_shortestDistance
    rw [h] at hd''
    exact Option.some.inj hd'' ▸ hle
  · intro h
    obtain ⟨d', hle, hd'⟩ := h.1.exists_shortestDistance
    have hle' := h.2 (path_of_shortestDistance hd')
    rw [hd', Nat.le_antisymm hle hle']

theorem shortestDistance_eq_none_iff {first last : Nat} :
    lattice.shortestDistance first last = none ↔ ∀ d, ¬lattice.Path first last d := by
  rw [Option.eq_none_iff_forall_ne_some]
  constructor
  · intro h d hd
    obtain ⟨d', -, hd'⟩ := hd.exists_shortestDistance
    exact h d' hd'
  · intro h d hd
    exact h d (path_of_shortestDistance hd)

/-! ## Paths as lists of arcs -/

def IsPath (lattice : Lattice V) : (first : Nat) → List (Arc V) → (last : Nat) → Prop
  | first, [], last => first = last
  | first, a :: arcs, last =>
    a ∈ lattice.arcsAt first ∧ lattice.IsPath (first + a.distance) arcs last

def wordCount (arcs : List (Arc V)) : Nat := arcs.countP fun a => !a.label.isEpsilon

theorem wordCount_cons (a : Arc V) (arcs : List (Arc V)) :
    wordCount (a :: arcs) = a.cost + wordCount arcs := by
  cases ha : a.label.isEpsilon <;> simp [wordCount, Arc.cost, ha, Nat.add_comm]

theorem wordCount_append (arcs arcs' : List (Arc V)) :
    wordCount (arcs ++ arcs') = wordCount arcs + wordCount arcs' := by
  simp [wordCount]

theorem isPath_append {arcs arcs' : List (Arc V)} {first last : Nat} :
    lattice.IsPath first (arcs ++ arcs') last ↔
      ∃ middle, lattice.IsPath first arcs middle ∧ lattice.IsPath middle arcs' last := by
  induction arcs generalizing first with
  | nil => simp [IsPath]
  | cons a arcs ih => simp [IsPath, ih, and_assoc]

theorem Path.exists_arcs {first last d : Nat} (h : lattice.Path first last d) :
    ∃ arcs, lattice.IsPath first arcs last ∧ wordCount arcs = d := by
  induction h with
  | stay => exact ⟨[], rfl, rfl⟩
  | @step p d a before ha ih =>
    obtain ⟨arcs, hpath, hcount⟩ := ih
    refine ⟨arcs ++ [a], isPath_append.mpr ⟨p, hpath, ha, rfl⟩, ?_⟩
    rw [wordCount_append, wordCount_cons, hcount]
    rfl

theorem Path.along {start first last d : Nat} (h : lattice.Path start first d)
    {arcs : List (Arc V)} (hpath : lattice.IsPath first arcs last) :
    lattice.Path start last (d + wordCount arcs) := by
  induction arcs generalizing first d with
  | nil =>
    cases hpath
    exact h
  | cons a arcs ih =>
    rw [wordCount_cons, ← Nat.add_assoc]
    exact ih (h.step hpath.1) hpath.2

def pathLengths (lattice : Lattice V) (first last : Nat) : Set Nat :=
  {n | ∃ arcs, lattice.IsPath first arcs last ∧ wordCount arcs = n}

theorem pathLengths_eq {first : Nat} (h : first ≤ lattice.size) (last : Nat) :
    lattice.pathLengths first last = {d | lattice.Path first last d} := by
  ext d
  constructor
  · intro hd
    obtain ⟨arcs, hpath, rfl⟩ := hd
    simpa using (Path.stay h).along hpath
  · exact Path.exists_arcs

/-- The distance of two positions is the least length of a path from one to the other. There is
none exactly when there is no path or a position lies outside the lattice, and the number that
stands for this is the length of no path, as long as it is beyond all positions. -/
theorem shortestDistance_isLeast (lattice : Lattice V) (first last : Nat) :
    (∀ d, lattice.shortestDistance first last = some d ↔
      first ≤ lattice.size ∧ last ≤ lattice.size ∧
        IsLeast (lattice.pathLengths first last) d) ∧
    (lattice.shortestDistance first last = none ↔
      lattice.pathLengths first last = ∅ ∨ lattice.size < first ∨ lattice.size < last) ∧
    (lattice.size < unreachable →
      (lattice.distanceTable.length first last = unreachable ↔
        lattice.shortestDistance first last = none)) := by
  refine ⟨fun d => ?_, ?_, fun hsize => ?_⟩
  · constructor
    · intro h
      have hbounds := (path_of_shortestDistance h).bounds
      have hfirst : first ≤ lattice.size := by omega
      refine ⟨hfirst, hbounds.2.1, ?_⟩
      rw [pathLengths_eq hfirst]
      exact shortestDistance_eq_some_iff.mp h
    · intro h
      obtain ⟨hfirst, -, hleast⟩ := h
      rw [pathLengths_eq hfirst] at hleast
      exact shortestDistance_eq_some_iff.mpr hleast
  · rw [shortestDistance_eq_none_iff]
    by_cases hfirst : first ≤ lattice.size
    · rw [pathLengths_eq hfirst, Set.eq_empty_iff_forall_notMem]
      constructor
      · exact Or.inl
      · intro h d hd
        have hbounds := hd.bounds
        rcases h with h | h | h
        · exact h d hd
        · omega
        · omega
    · constructor
      · exact fun _ => .inr (.inl (Nat.lt_of_not_le hfirst))
      · intro _ d hd
        have hbounds := hd.bounds
        omega
  · rw [DistanceTable.length, ← shortestDistance]
    cases h : lattice.shortestDistance first last with
    | none => simp
    | some d =>
      have hbounds := (path_of_shortestDistance h).bounds
      simp only [Option.getD_some, reduceCtorEq, iff_false]
      omega

/-- Two words or an epsilon arc lead past a position, and no path leads back. -/
theorem shortestDistance_isLeast_of_shortcuts :
    let lattice : Lattice Float :=
      ⟨[[⟨⟨"a"⟩, 1, NameMap.empty⟩, ⟨⟨"a_b"⟩, 2, NameMap.empty⟩],
        [⟨⟨"b"⟩, 1, NameMap.empty⟩, ⟨Symbol.epsilon, 2, NameMap.empty⟩],
        [⟨⟨"c"⟩, 1, NameMap.empty⟩]], by decide⟩
    lattice.size < unreachable ∧ IsLeast (lattice.pathLengths 0 3) 1 ∧
      IsLeast (lattice.pathLengths 1 3) 0 ∧ lattice.pathLengths 2 1 = ∅ ∧
      lattice.distanceTable.length 2 1 = unreachable := by
  intro lattice
  have hsize : lattice.size < unreachable := by decide
  have hlong : lattice.shortestDistance 0 3 = some 1 := by decide +kernel
  have hfree : lattice.shortestDistance 1 3 = some 0 := by decide +kernel
  have hnone : lattice.shortestDistance 2 1 = none := by decide +kernel
  obtain ⟨hleast, -, -⟩ := shortestDistance_isLeast lattice 0 3
  obtain ⟨hleast', -, -⟩ := shortestDistance_isLeast lattice 1 3
  obtain ⟨-, hempty, hlength⟩ := shortestDistance_isLeast lattice 2 1
  refine ⟨hsize, ((hleast 1).mp hlong).2.2, ((hleast' 0).mp hfree).2.2, ?_,
    (hlength hsize).mpr hnone⟩
  exact (hempty.mp hnone).resolve_right (by decide)

end Lattice

theorem Trail.Over.exists_path {E : Type} {t : RuleTable V} {o : Options V} {lattice : Lattice V}
    {entries : (first last : Nat) → Set E} {first last : Nat} {x : Trail E}
    (h : x.Over t o lattice entries first last)
    (hentries : ∀ p q e, (p, q, e) ∈ x.placed last → ∃ d, lattice.Path p q d) :
    ∃ d, lattice.Path first last d := by
  induction x generalizing last with
  | start =>
    obtain ⟨rfl, hlt, -⟩ := h
    exact ⟨0, .stay (Nat.le_of_lt hlt)⟩
  | entry x p e ih =>
    obtain ⟨d, hd⟩ := ih h.1 fun q r f hf => hentries q r f (List.mem_append_left _ hf)
    obtain ⟨d', hd'⟩ := hentries p last e (List.mem_append_right _ List.mem_cons_self)
    exact ⟨d + d', hd.trans hd'⟩
  | arc x p k ih =>
    obtain ⟨hx, -, -, a, ha, rfl⟩ := h
    obtain ⟨d, hd⟩ := ih hx hentries
    exact ⟨d + a.cost, hd.step (List.mem_of_getElem? ha)⟩

end ParseForest
