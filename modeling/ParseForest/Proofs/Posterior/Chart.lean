import ParseForest.Proofs.Agreement
import ParseForest.Proofs.Posterior.Downward

/-!
# The chart of posteriors

A parse that has an inside score for the goal leaves, at each span, the labels whose inside and
outside scores have a product other than zero.
-/

namespace ParseForest

variable {V S : Type}

namespace Chart

variable {α : Type} [Inhabited α]

theorem get_foldl_set (f : Nat → Nat → α) (spans : List (Nat × Nat)) {c : Chart α}
    (h : ∀ s ∈ spans, c.IsSpan s.1 s.2) (i j : Nat) :
    (spans.foldl (fun c s => c.set s.1 s.2 (f s.1 s.2)) c).get i j =
      if (i, j) ∈ spans then f i j else c.get i j := by
  induction spans using List.reverseRecOn with
  | nil => simp
  | append_singleton spans s ih =>
    have hsize : ∀ spans : List (Nat × Nat),
        (spans.foldl (fun c s => c.set s.1 s.2 (f s.1 s.2)) c).size = c.size := by
      intro spans
      induction spans using List.reverseRecOn with
      | nil => rfl
      | append_singleton spans s ih =>
        rw [List.foldl_append]
        exact (size_modify _ _ _ _).trans ih
    have hs := h s (List.mem_append_right _ List.mem_cons_self)
    have hspan : (spans.foldl (fun c s => c.set s.1 s.2 (f s.1 s.2)) c).IsSpan s.1 s.2 :=
      ⟨hs.1, (hsize spans).symm ▸ hs.2⟩
    rw [List.foldl_append, List.foldl_cons, List.foldl_nil, get_set _ _ _ _ _ _ hspan,
      ih fun t ht => h t (List.mem_append_left _ ht)]
    by_cases hij : i = s.1 ∧ j = s.2
    · simp [hij]
    · have hne : (i, j) ≠ s := fun heq => hij ⟨congrArg Prod.fst heq, congrArg Prod.snd heq⟩
      simp [hij, hne]

end Chart

theorem LabelMap.get?_filterMap {α β : Type} (f : Symbol → α → Option β) {m : LabelMap α}
    (h : (keys m).Nodup) (label : Symbol) :
    get? (m.filterMap fun p => (f p.1 p.2).map fun y => (p.1, y)) label =
      (get? m label).bind (f label) := by
  induction m with
  | nil => rfl
  | cons p m ih =>
    obtain ⟨key, x⟩ := p
    obtain ⟨hkey, hm⟩ := List.nodup_cons.mp h
    have ih := ih hm
    by_cases hl : label = key
    · subst hl
      have hnone : get? m label = none := by
        rw [← Option.not_isSome_iff_eq_none, ← mem_keys_iff]
        exact hkey
      rw [hnone] at ih
      rw [get?, get?, List.lookup_cons_self]
      cases hf : f label x with
      | none =>
        simp only [List.filterMap_cons, hf, Option.map_none, Option.bind_some]
        exact ih
      | some y =>
        simp only [List.filterMap_cons, hf, Option.map_some, Option.bind_some]
        exact List.lookup_cons_self
    · have hne : (label == key) = false := beq_eq_false_iff_ne.mpr hl
      unfold get? at ih ⊢
      rw [List.lookup_cons, hne]
      cases hf : f key x with
      | none =>
        simp only [List.filterMap_cons, hf, Option.map_none]
        exact ih
      | some y =>
        simp only [List.filterMap_cons, hf, Option.map_some, List.lookup_cons, hne]
        exact ih

variable [Score S] {order : ClosureOrder} {g : Grammar V} {w : Weighting V S} {o : Options V}
  {lattice : Lattice V} {pruner : Pruner}

theorem ScoreCell.nodup_keys_inside (steps : List (ScoreStep S)) :
    (LabelMap.keys (after steps).inside).Nodup := by
  induction steps using List.reverseRecOn with
  | nil => exact List.nodup_nil
  | append_singleton steps s ih =>
    rw [after_append, inside_take]
    exact LabelMap.nodup_keys_upsert ih _ _

namespace ScoreState

theorem nodup_keys_inside (i j : Nat) :
    (LabelMap.keys ((scored order g w o lattice pruner).inside.get i j)).Nodup := by
  by_cases hblank : (scored order g w o lattice pruner).cell i j = ScoreCell.blank
  · rw [show (scored order g w o lattice pruner).inside.get i j = [] from
      congrArg ScoreCell.inside hblank]
    exact List.nodup_nil
  · obtain ⟨hspan, hleft⟩ := isLeft_of_cell hblank
    obtain ⟨builds, closes, ends, hcell, -⟩ := exists_steps order g w o hspan hleft
    rw [show (scored order g w o lattice pruner).inside.get i j =
      (ScoreCell.after (builds ++ (closes ++ ends))).inside from congrArg ScoreCell.inside hcell]
    exact ScoreCell.nodup_keys_inside _

variable (order g w o lattice pruner) in
def joint (l : SpanLabel) : S :=
  Score.mul ((scored order g w o lattice pruner).insideOf l)
    (((scored order g w o lattice pruner).runOutside o.goal lattice.size).outsideOf l)

variable (order g w o lattice pruner) in
def posterior? (l : SpanLabel) : Option S :=
  if ((scored order g w o lattice pruner).final.get l.first l.last).has l.label = true ∧
      Score.isZero (joint order g w o lattice pruner l) = false then
    some (Score.div (joint order g w o lattice pruner l)
      ((scored order g w o lattice pruner).insideOf ⟨0, lattice.size, o.goal⟩))
  else none

theorem posterior?_eq_some_iff {l : SpanLabel} {x : S} :
    posterior? order g w o lattice pruner l = some x ↔
      ((scored order g w o lattice pruner).final.get l.first l.last).has l.label = true ∧
      Score.isZero (joint order g w o lattice pruner l) = false ∧
      Score.div (joint order g w o lattice pruner l)
        ((scored order g w o lattice pruner).insideOf ⟨0, lattice.size, o.goal⟩) = x := by
  unfold posterior?
  simp only [Option.ite_none_right_eq_some, Option.some.injEq, and_assoc]

theorem get?_spanPosteriors (i j : Nat) (label : Symbol) :
    LabelMap.get?
        (((scored order g w o lattice pruner).runOutside o.goal lattice.size).spanPosteriors
      ((scored order g w o lattice pruner).insideOf ⟨0, lattice.size, o.goal⟩) i j) label =
        posterior? order g w o lattice pruner ⟨i, j, label⟩ := by
  have hinside : ((scored order g w o lattice pruner).runOutside o.goal lattice.size).inside =
      (scored order g w o lattice pruner).inside := by
    obtain ⟨c, hc⟩ := OnlyOutside.runOutside o.goal lattice.size (scored order g w o lattice pruner)
    rw [hc]
  let value : Symbol → S → Option S := fun label x =>
    let joint := Score.mul x
      (((scored order g w o lattice pruner).runOutside o.goal lattice.size).outsideOf ⟨i, j, label⟩)
    if Score.isZero joint then none
    else some (Score.div joint
      ((scored order g w o lattice pruner).insideOf ⟨0, lattice.size, o.goal⟩))
  have hvalues : ((scored order g w o lattice pruner).runOutside o.goal lattice.size).spanPosteriors
      ((scored order g w o lattice pruner).insideOf ⟨0, lattice.size, o.goal⟩) i j =
        ((scored order g w o lattice pruner).inside.get i j).filterMap fun p =>
          (value p.1 p.2).map fun y => (p.1, y) := by
    rw [spanPosteriors, hinside]
    refine List.filterMap_congr fun p _ => ?_
    simp only [value]
    split <;> rfl
  rw [hvalues, LabelMap.get?_filterMap value (nodup_keys_inside i j), posterior?]
  cases hget : LabelMap.get? ((scored order g w o lattice pruner).inside.get i j) label with
  | none =>
    have hhas := (@isSome_inside_iff _ _ _ order g w o lattice pruner i j label).not.mp
      (by simp [hget])
    rw [Option.bind_none, if_neg fun h => hhas h.1]
  | some x =>
    have hhas := (@isSome_inside_iff _ _ _ order g w o lattice pruner i j label).mp (by simp [hget])
    have hx : (scored order g w o lattice pruner).insideOf ⟨i, j, label⟩ = x := by
      rw [insideOf, scoreOf, hget]
      rfl
    simp only [Option.bind_some, value, hhas, true_and, joint, hx]
    cases Score.isZero (Score.mul x
      (((scored order g w o lattice pruner).runOutside o.goal lattice.size).outsideOf
        ⟨i, j, label⟩)) <;>
      rfl

theorem get?_posteriors (i j : Nat) (label : Symbol) :
    LabelMap.get? ((((scored order g w o lattice pruner).runOutside o.goal lattice.size).posteriors
      ((scored order g w o lattice pruner).insideOf ⟨0, lattice.size, o.goal⟩) lattice.size).get i j)
        label = posterior? order g w o lattice pruner ⟨i, j, label⟩ := by
  unfold posteriors
  rw [Chart.get_foldl_set, Chart.get_new]
  · split
    · exact get?_spanPosteriors i j label
    · rename_i hspan
      rw [posterior?, if_neg fun h => hspan (Chart.mem_spansByLength.mpr
        (isLeft_of_has_final h.1).1)]
      rfl
  · intro s hs
    have hspan := Chart.mem_spansByLength.mp hs
    exact ⟨Nat.le_of_lt hspan.1, hspan.2⟩

end ScoreState

theorem ScoreParser.parseIn_eq_posteriorsIn (order : ClosureOrder) (p : ScoreParser V S)
    (lattice : Lattice V) (pruner : Pruner) : (p.parseIn order lattice pruner).2 =
      posteriorsIn order p.grammar p.weighting p.options lattice pruner := by
  cases hempty : lattice.isEmpty with
  | true => rw [posteriorsIn, parseIn_of_empty _ hempty, parseIn_of_empty _ hempty]
  | false => rw [posteriorsIn, parseIn_eq hempty, parseIn_eq_of p hempty]

theorem get?_scores_posteriors (hparsed : (posteriorsIn order g w o lattice pruner).parsed = true)
    (i j : Nat) (label : Symbol) :
    LabelMap.get? ((posteriorsIn order g w o lattice pruner).scores.get i j) label =
      ScoreState.posterior? order g w o lattice pruner ⟨i, j, label⟩ := by
  have hempty : lattice.isEmpty = false := ScoreParser.isEmpty_of_parsed_parseIn hparsed
  rw [posteriorsIn, ScoreParser.parseIn_eq hempty] at hparsed ⊢
  split at hparsed
  · cases hparsed
  · rename_i hzero
    rw [if_neg hzero]
    exact ScoreState.get?_posteriors i j label

end ParseForest
