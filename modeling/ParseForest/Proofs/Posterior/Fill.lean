import ParseForest.Proofs.Posterior.Cell
import ParseForest.Proofs.Posterior.Closure
import ParseForest.Proofs.Track

/-!
# Filling a span

Filling a span changes no other cell. Its own cell is filled by steps: first one for each matched
rule pair, then those of a pass that reaches labels from the first tier, then those of a pass that
reaches labels from the second. A pass takes labels one after another, and reads the inside score
of a label when it comes to it: `Passes` keeps apart what was read before from what comes after.
-/

namespace ParseForest

variable {V S : Type} [Score S]

inductive Passes (closure : Symbol → LabelMap S) (site : Site V) (toFinal : Bool)
    (base : List (ScoreStep S)) : List Symbol → List (ScoreStep S) → Prop
  | nil : Passes closure site toFinal base [] []
  | snoc {children : List Symbol} {steps new : List (ScoreStep S)} {child : Symbol}
    (before : Passes closure site toFinal base children steps)
    (reached : ∀ s, s ∈ new ↔ ∃ label score, LabelMap.get? (closure child) label = some score ∧
      site.skips label = false ∧ s = .reach toFinal label ⟨child, score⟩
        (Score.mul (ScoreCell.scoreAfter (base ++ steps) child) score)) :
    Passes closure site toFinal base (children ++ [child]) (steps ++ new)

namespace Passes

variable {closure : Symbol → LabelMap S} {site : Site V} {toFinal : Bool}
  {base steps : List (ScoreStep S)} {children : List Symbol}

theorem of_mem (h : Passes closure site toFinal base children steps) {s : ScoreStep S}
    (hs : s ∈ steps) : ∃ before, before <+: steps ∧ ∃ child ∈ children, ∃ label score,
      LabelMap.get? (closure child) label = some score ∧ site.skips label = false ∧
      s = .reach toFinal label ⟨child, score⟩
        (Score.mul (ScoreCell.scoreAfter (base ++ before) child) score) := by
  induction h with
  | nil => cases hs
  | snoc _ reached ih =>
    rcases List.mem_append.mp hs with hs | hs
    · obtain ⟨before, hbefore, child, hchild, hrest⟩ := ih hs
      exact ⟨before, hbefore.trans (List.prefix_append _ _), child,
        List.mem_append_left _ hchild, hrest⟩
    · obtain ⟨label, score, hget, hskip, rfl⟩ := (reached s).mp hs
      exact ⟨_, List.prefix_append _ _, _, List.mem_append_right _ List.mem_cons_self, label, score,
        hget, hskip, rfl⟩

theorem exists_mem (h : Passes closure site toFinal base children steps) {child : Symbol}
    (hchild : child ∈ children) : ∃ before, before <+: steps ∧ ∀ label score,
      LabelMap.get? (closure child) label = some score → site.skips label = false →
      .reach toFinal label ⟨child, score⟩
        (Score.mul (ScoreCell.scoreAfter (base ++ before) child) score) ∈ steps := by
  induction h with
  | nil => cases hchild
  | snoc _ reached ih =>
    rcases List.mem_append.mp hchild with hchild | hchild
    · obtain ⟨before, hbefore, hmem⟩ := ih hchild
      exact ⟨before, hbefore.trans (List.prefix_append _ _), fun label score hget hskip =>
        List.mem_append_left _ (hmem label score hget hskip)⟩
    · cases List.mem_singleton.mp hchild
      exact ⟨_, List.prefix_append _ _, fun label score hget hskip =>
        List.mem_append_right _ ((reached _).mpr ⟨label, score, hget, hskip, rfl⟩)⟩

theorem exists_reach_iff (h : Passes closure site toFinal base children steps) {label : Symbol} :
    (∃ e x, .reach toFinal label e x ∈ steps) ↔ site.skips label = false ∧
      ∃ child ∈ children, (LabelMap.get? (closure child) label).isSome = true := by
  constructor
  · rintro ⟨e, x, hs⟩
    obtain ⟨before, -, child, hchild, l, score, hget, hskip, heq⟩ := h.of_mem hs
    cases heq
    exact ⟨hskip, child, hchild, by rw [hget]; rfl⟩
  · rintro ⟨hskip, child, hchild, hsome⟩
    obtain ⟨score, hget⟩ := Option.isSome_iff_exists.mp hsome
    obtain ⟨before, -, hmem⟩ := h.exists_mem hchild
    exact ⟨_, _, hmem label score hget hskip⟩

end Passes

namespace ScoreState

def cell (st : ScoreState V S) (i j : Nat) : ScoreCell S :=
  ⟨st.built.get i j, st.closed.get i j, st.final.get i j, st.inside.get i j⟩

structure Sized (n : Nat) (st : ScoreState V S) : Prop where
  built : st.built.size = n
  closed : st.closed.size = n
  final : st.final.size = n
  inside : st.inside.size = n

structure Local (n first last : Nat) (st : ScoreState V S) (steps : List (ScoreStep S))
    (st' : ScoreState V S) : Prop where
  tracks : st'.tracks = st.tracks
  outside : st'.outside = st.outside
  sized : st'.Sized n
  other : ∀ i j, ¬(i = first ∧ j = last) → st'.cell i j = st.cell i j
  cell : st'.cell first last = steps.foldl ScoreCell.take (st.cell first last)
  labels : st.labels <+: st'.labels
  nodup : st.labels.Nodup → st'.labels.Nodup
  known : ∀ s ∈ steps, s.label ∈ st'.labels

variable {n first last : Nat} {st st' st'' : ScoreState V S} {steps steps' : List (ScoreStep S)}

theorem Local.refl (h : st.Sized n) : Local n first last st [] st :=
  ⟨rfl, rfl, h, fun _ _ _ => rfl, rfl, List.prefix_refl _, id, fun s hs => by cases hs⟩

theorem Local.trans (h : Local n first last st steps st')
    (h' : Local n first last st' steps' st'') :
    Local n first last st (steps ++ steps') st'' := by
  refine ⟨h'.tracks.trans h.tracks, h'.outside.trans h.outside, h'.sized,
    fun i j hij => (h'.other i j hij).trans (h.other i j hij), ?_, h.labels.trans h'.labels,
    fun hnd => h'.nodup (h.nodup hnd), fun s hs => ?_⟩
  · rw [List.foldl_append, ← h.cell, h'.cell]
  · rcases List.mem_append.mp hs with hs | hs
    · exact h'.labels.subset (h.known s hs)
    · exact h'.known s hs

omit [Score S] in
theorem noteLabel_extends (labels : List Symbol) (label : Symbol) :
    labels <+: noteLabel labels label := by
  unfold noteLabel
  split
  · exact List.prefix_refl _
  · exact List.prefix_append _ _

omit [Score S] in
theorem mem_noteLabel (labels : List Symbol) (label : Symbol) : label ∈ noteLabel labels label := by
  unfold noteLabel
  split
  · rename_i h
    exact List.contains_iff_mem.mp h
  · exact List.mem_append_right _ List.mem_cons_self

omit [Score S] in
theorem nodup_noteLabel {labels : List Symbol} (h : labels.Nodup) (label : Symbol) :
    (noteLabel labels label).Nodup := by
  unfold noteLabel
  split
  · exact h
  · rename_i hl
    rw [List.contains_iff_mem] at hl
    exact List.nodup_append.mpr ⟨h, List.nodup_singleton _, fun a ha b hb => by
      rw [List.mem_singleton.mp hb]
      exact fun heq => hl (heq ▸ ha)⟩

omit [Score S] in
theorem Sized.isSpan (h : st.Sized n) (hspan : first < last ∧ last ≤ n) :
    st.built.IsSpan first last ∧ st.closed.IsSpan first last ∧ st.final.IsSpan first last ∧
      st.inside.IsSpan first last := by
  have hs : first ≤ last ∧ last ≤ n := ⟨Nat.le_of_lt hspan.1, hspan.2⟩
  refine ⟨⟨hs.1, ?_⟩, ⟨hs.1, ?_⟩, ⟨hs.1, ?_⟩, ⟨hs.1, ?_⟩⟩
  · rw [h.built]
    exact hs.2
  · rw [h.closed]
    exact hs.2
  · rw [h.final]
    exact hs.2
  · rw [h.inside]
    exact hs.2

theorem local_build (h : st.Sized n) (hspan : first < last ∧ last ≤ n) (label : Symbol)
    (e : ScoredEdge S) (x : S) :
    Local n first last st [.build label e x]
      ((st.addBuilt ⟨first, last, label⟩ e).raiseInside ⟨first, last, label⟩ x) := by
  obtain ⟨hbuilt, -, -, hinside⟩ := h.isSpan hspan
  refine ⟨rfl, rfl, ⟨?_, h.closed, h.final, ?_⟩, fun i j hij => ?_, ?_, noteLabel_extends _ _,
    fun hnd => nodup_noteLabel hnd _, fun s hs => ?_⟩
  · exact (Chart.size_modify _ _ _ _).trans h.built
  · exact (Chart.size_modify _ _ _ _).trans h.inside
  · simp only [cell, raiseInside, addBuilt, Chart.get_modify _ _ _ _ _ _ hbuilt,
      Chart.get_modify _ _ _ _ _ _ hinside, if_neg hij]
  · simp only [cell, raiseInside, addBuilt, Chart.get_modify _ _ _ _ _ _ hbuilt,
      Chart.get_modify _ _ _ _ _ _ hinside]
    rfl
  · rw [List.mem_singleton.mp hs]
    exact mem_noteLabel _ _

theorem local_reach (h : st.Sized n) (hspan : first < last ∧ last ≤ n) (toFinal : Bool)
    {label : Symbol} (hlabel : label ∈ st.labels) (e : UnaryEdge S) (x : S) :
    Local n first last st [.reach toFinal label e x]
      ((st.addUnary toFinal ⟨first, last, label⟩ e).raiseInside ⟨first, last, label⟩ x) := by
  obtain ⟨-, hclosed, hfinal, hinside⟩ := h.isSpan hspan
  cases toFinal with
  | false =>
    refine ⟨rfl, rfl, ⟨h.built, ?_, h.final, ?_⟩, fun i j hij => ?_, ?_, List.prefix_refl _, id,
      fun s hs => ?_⟩
    · exact (Chart.size_modify _ _ _ _).trans h.closed
    · exact (Chart.size_modify _ _ _ _).trans h.inside
    · simp only [cell, raiseInside, addUnary, Bool.false_eq_true, if_false,
        Chart.get_modify _ _ _ _ _ _ hclosed, Chart.get_modify _ _ _ _ _ _ hinside, if_neg hij]
    · simp only [cell, raiseInside, addUnary, Bool.false_eq_true, if_false,
        Chart.get_modify _ _ _ _ _ _ hclosed, Chart.get_modify _ _ _ _ _ _ hinside]
      rfl
    · rw [List.mem_singleton.mp hs]
      exact hlabel
  | true =>
    refine ⟨rfl, rfl, ⟨h.built, h.closed, ?_, ?_⟩, fun i j hij => ?_, ?_, List.prefix_refl _, id,
      fun s hs => ?_⟩
    · exact (Chart.size_modify _ _ _ _).trans h.final
    · exact (Chart.size_modify _ _ _ _).trans h.inside
    · simp only [cell, raiseInside, addUnary, if_true,
        Chart.get_modify _ _ _ _ _ _ hfinal, Chart.get_modify _ _ _ _ _ _ hinside, if_neg hij]
    · simp only [cell, raiseInside, addUnary, if_true,
        Chart.get_modify _ _ _ _ _ _ hfinal, Chart.get_modify _ _ _ _ _ _ hinside]
      rfl
    · rw [List.mem_singleton.mp hs]
      exact hlabel

/-! ## Matched rule pairs -/

def buildStep? (w : Weighting V S) (site : Site V) (insideOf : SpanLabel → S)
    (m : RulePair V × ScoredEdge S) : Option (ScoreStep S) :=
  let label := (site.ruleOf m.1).lhs
  if site.skips label then none
  else
    let score := Score.mul m.2.score (w m.1.features)
    some (.build label { m.2 with score }
      (Score.mul (Score.product Score.one (m.2.tails.map insideOf)) score))

theorem insideOf_eq {l : SpanLabel} (h : st'.cell l.first l.last = st.cell l.first l.last) :
    st'.insideOf l = st.insideOf l := by
  unfold insideOf
  rw [show st'.inside.get l.first l.last = st.inside.get l.first l.last from
    congrArg ScoreCell.inside h]

/-- Building changes its own cell only, so the tails that lie elsewhere keep their scores. -/
theorem local_matched (h : st.Sized n) (w : Weighting V S) (site : Site V)
    (hspan : site.first < site.last ∧ site.last ≤ n) (matched : List (RulePair V × ScoredEdge S)) :
    ∃ steps, Local n site.first site.last st steps (matched.foldl (buildLabel w site) st) ∧
      (∀ s ∈ steps, ∃ label e x, s = .build label e x) ∧
      ((∀ m ∈ matched, ∀ t ∈ m.2.tails, ¬(t.first = site.first ∧ t.last = site.last)) →
        steps = matched.filterMap (buildStep? w site st.insideOf)) := by
  induction matched using List.reverseRecOn with
  | nil => exact ⟨[], Local.refl h, (fun s hs => by cases hs), fun _ => rfl⟩
  | append_singleton matched m ih =>
    obtain ⟨steps, hlocal, hbuild, hsteps⟩ := ih
    rw [List.foldl_append, List.foldl_cons, List.foldl_nil]
    generalize matched.foldl (buildLabel w site) st = st' at hlocal
    have hone : Local n site.first site.last st' (buildStep? w site st'.insideOf m).toList
        (buildLabel w site st' m) := by
      rw [buildLabel, buildStep?]
      cases site.skips (site.ruleOf m.1).lhs with
      | true => exact Local.refl hlocal.sized
      | false => exact local_build hlocal.sized hspan _ _ _
    refine ⟨_, hlocal.trans hone, fun s hs => ?_, fun hinside => ?_⟩
    · rcases List.mem_append.mp hs with hs | hs
      · exact hbuild s hs
      · rw [Option.mem_toList, buildStep?] at hs
        simp only at hs
        split at hs
        · cases hs
        · cases hs
          exact ⟨_, _, _, rfl⟩
    · have htails : m.2.tails.map st'.insideOf = m.2.tails.map st.insideOf := by
        refine List.map_congr_left fun t ht => insideOf_eq (hlocal.other _ _ ?_)
        exact hinside m (List.mem_append_right _ List.mem_cons_self) t ht
      have hsame : buildStep? w site st'.insideOf m = buildStep? w site st.insideOf m := by
        rw [buildStep?, buildStep?, htails]
      rw [hsteps fun m' hm' => hinside m' (List.mem_append_left _ hm'), hsame,
        List.filterMap_append, List.filterMap_cons, List.filterMap_nil]
      cases buildStep? w site st.insideOf m <;> rfl

/-! ## Passes -/

theorem scoreAfter_eq {base : List (ScoreStep S)} (h : st.cell first last = ScoreCell.after base)
    (label : Symbol) :
    st.insideOf ⟨first, last, label⟩ = ScoreCell.scoreAfter base label := by
  rw [ScoreCell.scoreAfter, ← h]
  rfl

omit [Score S] in
theorem foldl_noteLabel (labels more : List Symbol) :
    labels <+: more.foldl noteLabel labels ∧ (labels.Nodup → (more.foldl noteLabel labels).Nodup) ∧
      ∀ l ∈ more, l ∈ more.foldl noteLabel labels := by
  induction more generalizing labels with
  | nil => exact ⟨List.prefix_refl _, id, fun l hl => by cases hl⟩
  | cons l more ih =>
    obtain ⟨hextends, hnodup, hmem⟩ := ih (noteLabel labels l)
    refine ⟨(noteLabel_extends labels l).trans hextends, fun hnd => hnodup (nodup_noteLabel hnd l),
      fun l' hl' => ?_⟩
    rcases List.mem_cons.mp hl' with rfl | hl'
    · exact hextends.subset (mem_noteLabel labels l')
    · exact hmem l' hl'

theorem local_foldl_reach (h : st.Sized n) (site : Site V)
    (hspan : site.first < site.last ∧ site.last ≤ n) (toFinal : Bool) (child : Symbol) (tail : S)
    {reached : List (Symbol × S)} (hlabels : ∀ r ∈ reached, r.1 ∈ st.labels) :
    ∃ steps, Local n site.first site.last st steps
        (reached.foldl (reachLabel site toFinal child tail) st) ∧
      ∀ s, s ∈ steps ↔ ∃ r ∈ reached, site.skips r.1 = false ∧
        s = .reach toFinal r.1 ⟨child, r.2⟩ (Score.mul tail r.2) := by
  induction reached using List.reverseRecOn with
  | nil => exact ⟨[], Local.refl h, by simp⟩
  | append_singleton reached r ih =>
    obtain ⟨steps, hlocal, hmem⟩ := ih fun r' hr' => hlabels r' (List.mem_append_left _ hr')
    rw [List.foldl_append, List.foldl_cons, List.foldl_nil]
    generalize reached.foldl (reachLabel site toFinal child tail) st = st' at hlocal
    have hlabel : r.1 ∈ st'.labels :=
      hlocal.labels.subset (hlabels r (List.mem_append_right _ List.mem_cons_self))
    rw [reachLabel]
    simp only
    cases hskip : site.skips r.1 with
    | true =>
      refine ⟨steps, hlocal, fun s => ?_⟩
      rw [hmem]
      simp [hskip]
    | false =>
      refine ⟨steps ++ [.reach toFinal r.1 ⟨child, r.2⟩ (Score.mul tail r.2)],
        hlocal.trans (local_reach hlocal.sized hspan toFinal hlabel _ _), fun s => ?_⟩
      rw [List.mem_append, hmem]
      simp [hskip, or_and_right, exists_or]

theorem local_closeLabel (h : st.Sized n) (closure : Symbol → LabelMap S) (site : Site V)
    (hspan : site.first < site.last ∧ site.last ≤ n) (toFinal : Bool) (child : Symbol) :
    ∃ steps, Local n site.first site.last st steps (closeLabel closure site toFinal st child) ∧
      ∀ s, s ∈ steps ↔ ∃ label score, LabelMap.get? (closure child) label = some score ∧
        site.skips label = false ∧ s = .reach toFinal label ⟨child, score⟩
          (Score.mul (st.insideOf ⟨site.first, site.last, child⟩) score) := by
  obtain ⟨hextends, hnodup, hkeys⟩ := foldl_noteLabel st.labels ((closure child).map (·.1))
  unfold closeLabel
  extract_lets reached labels ordered
  change st.labels <+: labels at hextends
  change ∀ l ∈ (closure child).map (·.1), l ∈ labels at hkeys
  let noted : ScoreState V S := { st with labels }
  have hnoted : Local n site.first site.last st [] noted :=
    ⟨rfl, rfl, ⟨h.built, h.closed, h.final, h.inside⟩, fun _ _ _ => rfl, rfl, hextends, hnodup,
      fun s hs => by cases hs⟩
  have hordered : ∀ r : Symbol × S, r ∈ (labels.filterMap fun label =>
      (LabelMap.get? (closure child) label).map fun score => (label, score)) ↔
        LabelMap.get? (closure child) r.1 = some r.2 := by
    rintro ⟨label, score⟩
    rw [List.mem_filterMap]
    constructor
    · rintro ⟨l, -, hl⟩
      obtain ⟨x, hx, heq⟩ := Option.map_eq_some_iff.mp hl
      cases heq
      exact hx
    · intro hget
      refine ⟨label, hkeys label ?_, by rw [hget]; rfl⟩
      exact List.mem_map.mpr ⟨_, LabelMap.mem_of_get? hget, rfl⟩
  obtain ⟨steps, hlocal, hmem⟩ := local_foldl_reach hnoted.sized site hspan toFinal child
    (st.insideOf ⟨site.first, site.last, child⟩) fun r hr => hkeys r.1
      (List.mem_map.mpr ⟨_, LabelMap.mem_of_get? ((hordered r).mp hr), rfl⟩)
  refine ⟨steps, hnoted.trans hlocal, fun s => ?_⟩
  rw [hmem]
  constructor
  · rintro ⟨r, hr, hskip, rfl⟩
    exact ⟨r.1, r.2, (hordered r).mp hr, hskip, rfl⟩
  · rintro ⟨label, score, hget, hskip, rfl⟩
    exact ⟨(label, score), (hordered _).mpr hget, hskip, rfl⟩

theorem local_pass (h : st.Sized n) (closure : Symbol → LabelMap S) (site : Site V)
    (hspan : site.first < site.last ∧ site.last ≤ n) (toFinal : Bool)
    {base : List (ScoreStep S)} (hbase : st.cell site.first site.last = ScoreCell.after base)
    (children : List Symbol) :
    ∃ steps, Local n site.first site.last st steps
        (children.foldl (closeLabel closure site toFinal) st) ∧
      Passes closure site toFinal base children steps := by
  induction children using List.reverseRecOn with
  | nil => exact ⟨[], Local.refl h, Passes.nil⟩
  | append_singleton children child ih =>
    obtain ⟨steps, hlocal, hpasses⟩ := ih
    rw [List.foldl_append, List.foldl_cons, List.foldl_nil]
    generalize children.foldl (closeLabel closure site toFinal) st = st' at hlocal
    obtain ⟨new, hnew, hmem⟩ := local_closeLabel hlocal.sized closure site hspan toFinal child
    refine ⟨steps ++ new, hlocal.trans hnew, hpasses.snoc fun s => ?_⟩
    have hcell : st'.cell site.first site.last = ScoreCell.after (base ++ steps) := by
      rw [hlocal.cell, hbase, ScoreCell.after, ScoreCell.after, List.foldl_append]
    rw [hmem, scoreAfter_eq hcell]

theorem mem_among {E : Type} {m : EdgeMap E} {labels : List Symbol} {label : Symbol}
    (h : m.has label = true → label ∈ labels) : label ∈ m.among labels ↔ m.has label = true := by
  unfold EdgeMap.among
  rw [List.mem_filter]
  exact and_iff_right_of_imp h

def Closes (closure : Symbol → LabelMap S) (site : Site V)
    (builds closes finals : List (ScoreStep S)) :
    Prop :=
  (∃ children, (∀ l, l ∈ children ↔ ∃ e x, .build l e x ∈ builds) ∧
    Passes closure site false builds children closes) ∧
  ∃ children, (∀ l, l ∈ children ↔ ∃ e x, .reach false l e x ∈ closes) ∧
    Passes closure site true (builds ++ closes) children finals

theorem local_closeSpan (h : st.Sized n) (closure : Symbol → LabelMap S) (site : Site V)
    (hspan : site.first < site.last ∧ site.last ≤ n) {builds : List (ScoreStep S)}
    (hcell : st.cell site.first site.last = ScoreCell.after builds)
    (hbuilds : ∀ s ∈ builds, s.label ∈ st.labels ∧ ∃ label e x, s = .build label e x) :
    ∃ closes finals, Local n site.first site.last st (closes ++ finals)
      (closeSpan closure site st) ∧
      Closes closure site builds closes finals := by
  unfold closeSpan
  extract_lets st'
  obtain ⟨closes, hclose, hcloses⟩ := local_pass h closure site hspan false hcell
    ((st.built.get site.first site.last).among st.labels)
  have hcell' : st'.cell site.first site.last = ScoreCell.after (builds ++ closes) := by
    rw [hclose.cell, hcell, ScoreCell.after, ScoreCell.after, List.foldl_append]
  obtain ⟨finals, hfinal, hfinals⟩ := local_pass hclose.sized closure site hspan true hcell'
    ((st'.closed.get site.first site.last).among st'.labels)
  refine ⟨closes, finals, hclose.trans hfinal, ⟨_, fun l => ?_, hcloses⟩, _, fun l => ?_, hfinals⟩
  · have hbuilt : st.built.get site.first site.last = (ScoreCell.after builds).built :=
      congrArg ScoreCell.built hcell
    rw [hbuilt, mem_among, ScoreCell.has_built]
    intro hl
    obtain ⟨e, x, hs⟩ := ScoreCell.has_built.mp hl
    exact (hbuilds _ hs).1
  · have hclosed : st'.closed.get site.first site.last =
        (ScoreCell.after (builds ++ closes)).unary false := congrArg ScoreCell.closed hcell'
    have hhas : (st'.closed.get site.first site.last).has l = true ↔
        ∃ e x, .reach false l e x ∈ closes := by
      rw [hclosed, ScoreCell.has_unary]
      refine exists_congr fun e => exists_congr fun x => ?_
      rw [List.mem_append]
      refine or_iff_right fun hs => ?_
      obtain ⟨-, _, _, _, heq⟩ := hbuilds _ hs
      cases heq
    rw [mem_among, hhas]
    intro hl
    obtain ⟨e, x, hs⟩ := hhas.mp hl
    exact hclose.known _ hs

end ScoreState

end ParseForest
