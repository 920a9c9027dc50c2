import ParseForest.Proofs.Posterior.Outside
import ParseForest.Proofs.Tables.Inside

/-!
# The outside pass with its tables

Outside scores are passed down from the goal, longest spans first. Before the edges of a span are
gone through, its outside scores are made as many as its inside scores. Every edge leads to labels
that have an inside score, and so an outside score is only ever raised where there is an inside
score to go with it, or at the goal.
-/

namespace ParseForest

variable {V S : Type} [Score S]

namespace ScoreCells

def raiseOutside? (first last id : Nat) (score : S) (s : ScoreCells S) : Option (ScoreCells S) := do
  let outside ← s.outside.alter? first last Score.zero id (Score.best · score)
  return { s with outside }

def widen? (first last : Nat) (s : ScoreCells S) : Option (ScoreCells S) := do
  let inside ← s.inside.get? first last
  let cell ← s.outside.get? first last
  let outside ← s.outside.set? first last
    (cell ++ Array.replicate (inside.size - cell.size) Score.zero)
  return { s with outside }

def passUnary? (tier : Array (Array (IdEdge S))) (first last : Nat) (s : ScoreCells S) (id : Nat) :
    Option (ScoreCells S) := do
  let cell ← s.outside.get? first last
  let head := scoreAt cell id
  if Score.isZero head then return s
  else
    let edges ← tier[id]?
    edges.toList.foldlM (fun s e => raiseOutside? first last e.tail (Score.mul head e.score) s) s

def passEdge? (head : S) (s : ScoreCells S) (e : TableEdge S) : Option (ScoreCells S) :=
  e.tails.zipIdx.foldlM (fun s (t, position) => do
    let score ← s.product? (Score.mul head e.score) (e.tails.eraseIdx position)
    raiseOutside? t.first t.last t.id score s) s

def passBuilt? (tier : Array (Array (TableEdge S))) (first last : Nat) (s : ScoreCells S)
    (id : Nat) : Option (ScoreCells S) := do
  let cell ← s.outside.get? first last
  let head := scoreAt cell id
  if Score.isZero head then return s
  else
    let edges ← tier[id]?
    edges.toList.foldlM (passEdge? head) s

def outsideSpan? (s : ScoreCells S) (span : Nat × Nat) : Option (ScoreCells S) := do
  let (first, last) := span
  let s ← widen? first last s
  let final ← s.final.get? first last
  let s ← (List.range final.size).foldlM (passUnary? final first last) s
  let closed ← s.closed.get? first last
  let s ← (List.range closed.size).foldlM (passUnary? closed first last) s
  let built ← s.built.get? first last
  (List.range built.size).foldlM (passBuilt? built first last) s

def runOutside? (size : Nat) (s : ScoreCells S) : Option (ScoreCells S) := do
  let outside ← s.outside.alter? 0 size Score.zero s.goal fun _ => Score.one
  let spans ← Chart.spansFromLong? size
  spans.foldlM outsideSpan? { s with outside }

/-! ## Outside scores follow -/

structure Led (known : Set SpanLabel) (st : ScoreState V S) : Prop where
  known : ∀ l ∈ known, st.HasInside l
  closed : ∀ i j label, ∀ e ∈ (st.closed.get i j).edges label, st.HasInside ⟨i, j, e.tail⟩
  final : ∀ i j label, ∀ e ∈ (st.final.get i j).edges label, st.HasInside ⟨i, j, e.tail⟩

/-- Cells that follow `t`, a state on the way down from `st`; those of the spans in `done` have as
many outside scores as inside scores. -/
structure Descends (g : Grammar V) (w : Weighting V S) (o : Options V) (order : ClosureOrder)
    (size : Nat) (known : Set SpanLabel) (st : ScoreState V S) (done : List (Nat × Nat))
    (s : ScoreCells S) (t : ScoreState V S) : Prop where
  follows : s.Follows g w o order size known t
  only : ScoreState.OnlyOutside st t
  held : ∀ l, (LabelMap.get? (t.outside.get l.first l.last) l.label).isSome = true →
    st.HasInside l ∨ l = ⟨0, size, o.goal⟩
  wide : ∀ span ∈ done, (s.inside.get span.1 span.2).size ≤ (s.outside.get span.1 span.2).size

namespace Descends

variable {g : Grammar V} {w : Weighting V S} {o : Options V} {order : ClosureOrder} {size : Nat}
  {known : Set SpanLabel} {s : ScoreCells S} {st t : ScoreState V S} {done : List (Nat × Nat)}
  {first last : Nat}

theorem isSpan_outside (h : Descends g w o order size known st done s t)
    (hspan : first < last ∧ last ≤ size) : t.outside.IsSpan first last :=
  ⟨Nat.le_of_lt hspan.1, h.follows.reach.symm ▸ hspan.2⟩

theorem raiseOutside (h : Descends g w o order size known st done s t)
    (hspan : first < last ∧ last ≤ size) {id : Nat} {label : Symbol}
    (hid : st.labels[id]? = some label) (hin : st.HasInside ⟨first, last, label⟩) (score : S) :
    Yields (raiseOutside? first last id score s) (Descends g w o order size known st done ·
      (t.raiseOutside ⟨first, last, label⟩ score)) := by
  have hout := h.isSpan_outside hspan
  have hout' := h.follows.outside.isSpan_iff.mpr hout
  obtain ⟨outside, rfl⟩ := h.only
  have hf := h.follows
  refine ((hf.outside.alter hout hf.cache.numbers.nodup hid (isScore_best score)).and fun c hc =>
    Chart.size_le_alter hout' hc).bind fun c ⟨hc, hgrown⟩ => yields_some ?_
  refine ⟨⟨hf.cache, hf.goal, hf.built, hf.closed, hf.final, hf.inside, hc,
    ⟨hf.sized.built, hf.sized.closed, hf.sized.final, hf.sized.inside⟩,
    (Chart.size_modify ..).trans hf.reach, hf.spans⟩, ⟨_, rfl⟩, fun l hl => ?_, fun span hs => ?_⟩
  · rw [ScoreState.raiseOutside, Chart.get_modify _ _ _ _ _ _ hout] at hl
    split at hl
    · rename_i hij
      rw [raise, LabelMap.get?_upsert] at hl
      split at hl
      · rename_i hlabel
        left
        obtain ⟨i, j, l⟩ := l
        simp only at hij hlabel
        rw [hij.1, hij.2, hlabel]
        exact hin
      · exact h.held l hl
    · exact h.held l hl
  · exact (h.wide span hs).trans (hgrown _ _)

theorem widen (h : Descends g w o order size known st done s t)
    (hspan : first < last ∧ last ≤ size) :
    Yields (widen? first last s)
      (Descends g w o order size known st (done ++ [(first, last)]) · t) := by
  have hf := h.follows
  have hin : s.inside.IsSpan first last :=
    hf.inside.isSpan_iff.mpr (hf.sized.isSpan hspan).2.2.2
  have hout : s.outside.IsSpan first last := hf.outside.isSpan_iff.mpr (h.isSpan_outside hspan)
  have hstored := hf.outside.cell first last
  have hlong := (hf.inside.cell first last).size
  have hshort := hstored.size
  -- the scores that are put in are zero, as those of labels without one
  have hpadded := hstored.pad
    (n := (s.inside.get first last).size - (s.outside.get first last).size) (by omega)
  unfold widen?
  simp only [Chart.get?_eq_some_get hin, Chart.get?_eq_some_get hout, Chart.set?_eq_some hout,
    Option.bind_eq_bind, Option.bind_some]
  refine yields_some ⟨⟨hf.cache, hf.goal, hf.built, hf.closed, hf.final, hf.inside,
    hf.outside.set_left hpadded, hf.sized, hf.reach, hf.spans⟩, h.only, h.held, fun span hs => ?_⟩
  simp only [Chart.get_set _ _ _ _ _ _ hout]
  split
  · rename_i hij
    rw [hij.1, hij.2]
    simp
    omega
  · rename_i hij
    refine h.wide span ((List.mem_append.mp hs).resolve_right fun hs => hij ?_)
    exact Prod.ext_iff.mp (List.mem_singleton.mp hs)

theorem outside_eq (h : Descends g w o order size known st done s t)
    (hspan : first < last ∧ last ≤ size) {id : Nat} {label : Symbol}
    (hid : st.labels[id]? = some label) : ∃ cell, s.outside.get? first last = some cell ∧
      scoreAt cell id = t.outsideOf ⟨first, last, label⟩ := by
  have hout := h.isSpan_outside hspan
  obtain ⟨outside, rfl⟩ := h.only
  exact ⟨_, Chart.get?_eq_some_get (h.follows.outside.isSpan_iff.mpr hout),
    (h.follows.outside.cell first last).scoreAt_eq hid⟩

theorem passUnary (h : Descends g w o order size known st done s t)
    (hspan : first < last ∧ last ≤ size) {tier' : Array (Array (IdEdge S))}
    {tier : EdgeMap (UnaryEdge S)}
    (htier : Stored st.labels #[] (AreEdges (IdEdge.Like st.labels)) tier' tier)
    (hin : ∀ label, ∀ e ∈ tier.edges label, st.HasInside ⟨first, last, e.tail⟩) {id : Nat}
    (hlt : id < tier'.size) {label : Symbol} (hid : st.labels[id]? = some label) :
    Yields (passUnary? tier' first last s id)
      (Descends g w o order size known st done · (t.passUnary tier first last label)) := by
  obtain ⟨cell, hcell, hhead⟩ := h.outside_eq hspan hid
  unfold passUnary? ScoreState.passUnary
  rw [hcell, Option.bind_eq_bind, Option.bind_some, hhead]
  simp only
  split
  · exact yields_some h
  · rw [getElem?_eq_some_getD hlt #[], Option.bind_eq_bind, Option.bind_some, ← Array.foldl_toList]
    refine yields_foldlM (R := Descends g w o order size known st done)
      (fun r u e f hr hef => ?_) (forall₂_mem_right (htier.edges hid)) h
    rw [hef.1.score]
    exact hr.raiseOutside hspan hef.1.tail (hin label f (Array.mem_toList_iff.mp hef.2)) _

end Descends

omit [Score S] in
theorem forall₂_zipIdx {α β : Type} {Q : α → β → Prop} {as : List α} {bs : List β}
    (h : List.Forall₂ Q as bs) (n : Nat) :
    List.Forall₂ (fun a b => Q a.1 b.1 ∧ a.2 = b.2) (as.zipIdx n) (bs.zipIdx n) := by
  induction h generalizing n with
  | nil => exact .nil
  | cons hab _ ih => exact .cons ⟨hab, rfl⟩ (ih (n + 1))

omit [Score S] in
theorem forall₂_eraseIdx {α β : Type} {Q : α → β → Prop} {as : List α} {bs : List β}
    (h : List.Forall₂ Q as bs) (i : Nat) :
    List.Forall₂ Q (as.eraseIdx i) (bs.eraseIdx i) := by
  rw [List.eraseIdx_eq_take_drop_succ, List.eraseIdx_eq_take_drop_succ]
  exact List.rel_append (List.forall₂_take i h) (List.forall₂_drop (i + 1) h)

namespace Descends

variable {g : Grammar V} {w : Weighting V S} {o : Options V} {order : ClosureOrder} {size : Nat}
  {known : Set SpanLabel} {s : ScoreCells S} {st t : ScoreState V S} {done : List (Nat × Nat)}
  {first last : Nat}

theorem passEdge (h : Descends g w o order size known st done s t)
    (hin : ∀ l ∈ known, st.HasInside l) {e : TableEdge S} {f : ScoredEdge S}
    (hef : e.Like st.labels known f) (head : S) :
    Yields (passEdge? head s e)
      (Descends g w o order size known st done · (t.passEdge head f)) := by
  refine yields_foldlM (R := Descends g w o order size known st done)
    (fun r u (tail, position) (l, position') hr htail => ?_) (forall₂_zipIdx hef.tails 0) h
  obtain ⟨htail, rfl⟩ := htail
  have hspan := hr.follows.spans l htail.known
  have htails := forall₂_eraseIdx hef.tails position
  obtain ⟨outside, rfl⟩ := hr.only
  have hproduct := hr.follows.product htails (Score.mul head e.score)
  refine Yields.bind (.of_eq_some hproduct rfl) fun score hscore => ?_
  subst hscore
  rw [hef.score, htail.first, htail.last]
  exact hr.raiseOutside hspan htail.id (hin l htail.known) _

theorem passBuilt (h : Descends g w o order size known st done s t)
    (hspan : first < last ∧ last ≤ size) (hin : ∀ l ∈ known, st.HasInside l)
    {tier' : Array (Array (TableEdge S))} {tier : EdgeMap (ScoredEdge S)}
    (htier : Stored st.labels #[] (AreEdges (TableEdge.Like st.labels known)) tier' tier) {id : Nat}
    (hlt : id < tier'.size) {label : Symbol} (hid : st.labels[id]? = some label) :
    Yields (passBuilt? tier' first last s id)
      (Descends g w o order size known st done · (t.passBuilt tier first last label)) := by
  obtain ⟨cell, hcell, hhead⟩ := h.outside_eq hspan hid
  unfold passBuilt? ScoreState.passBuilt
  rw [hcell, Option.bind_eq_bind, Option.bind_some, hhead]
  simp only
  split
  · exact yields_some h
  · rw [getElem?_eq_some_getD hlt #[], Option.bind_eq_bind, Option.bind_some, ← Array.foldl_toList]
    exact yields_foldlM (R := Descends g w o order size known st done)
      (Q := TableEdge.Like st.labels known) (fun r u e f hr hef => hr.passEdge hin hef _)
      (htier.edges hid) h

/-- The numbers of a tier are gone through, as the labels with edges are; nothing is to be done for
the other ones. -/
theorem tier (h : Descends g w o order size known st done s t) {E E' : Type} {Q : E' → E → Prop}
    {tier' : Array (Array E')} {tier : EdgeMap E}
    (htier : Stored st.labels #[] (AreEdges Q) tier' tier)
    {pass? : ScoreCells S → Nat → Option (ScoreCells S)}
    {pass : ScoreState V S → Symbol → ScoreState V S}
    (hnone : ∀ u label, tier.edges label = #[] → pass u label = u)
    (hpass : ∀ r u id label, Descends g w o order size known st done r u → id < tier'.size →
      st.labels[id]? = some label →
        Yields (pass? r id) (Descends g w o order size known st done · (pass u label))) :
    Yields ((List.range tier'.size).foldlM pass? s) (Descends g w o order size known st done ·
      ((tier.among t.labels).foldl pass t)) := by
  have hlabels : t.labels = st.labels := by
    obtain ⟨outside, rfl⟩ := h.only
    rfl
  have hnodup := hlabels ▸ h.follows.cache.numbers.nodup
  have hskip (u : ScoreState V S) (label : Symbol) (hlabel : tier.has label = false) :
      pass u label = u := by
    refine hnone u label ?_
    have hget : LabelMap.get? tier label = none := by simpa [EdgeMap.has] using hlabel
    rw [EdgeMap.edges, hget]
    rfl
  rw [hlabels, htier.foldl_among hnodup hskip]
  have hids := (forall₂_mem_right (forall₂_range_take st.labels htier.size).flip).flip
  exact yields_foldlM (R := Descends g w o order size known st done)
    (fun r u id label hr hid => hpass r u id label hr (List.mem_range.mp hid.2) hid.1) hids h

theorem tiers (h : Descends g w o order size known st done s t)
    (hspan : first < last ∧ last ≤ size) :
    (∃ cell, s.final.get? first last = some cell ∧
      Stored st.labels #[] (AreEdges (IdEdge.Like st.labels)) cell (st.final.get first last)) ∧
    (∃ cell, s.closed.get? first last = some cell ∧
      Stored st.labels #[] (AreEdges (IdEdge.Like st.labels)) cell (st.closed.get first last)) ∧
    ∃ cell, s.built.get? first last = some cell ∧
      Stored st.labels #[] (AreEdges (TableEdge.Like st.labels known)) cell
        (st.built.get first last) := by
  obtain ⟨outside, rfl⟩ := h.only
  have hf := h.follows
  obtain ⟨hbuilt, hclosed, hfinal, -⟩ := hf.sized.isSpan hspan
  exact ⟨⟨_, Chart.get?_eq_some_get (hf.final.isSpan_iff.mpr hfinal), hf.final.cell first last⟩,
    ⟨_, Chart.get?_eq_some_get (hf.closed.isSpan_iff.mpr hclosed), hf.closed.cell first last⟩,
    ⟨_, Chart.get?_eq_some_get (hf.built.isSpan_iff.mpr hbuilt), hf.built.cell first last⟩⟩

theorem outsideSpan (h : Descends g w o order size known st done s t) (hled : Led known st)
    (hspan : first < last ∧ last ≤ size) : Yields (outsideSpan? s (first, last))
      (Descends g w o order size known st (done ++ [(first, last)]) ·
        (t.outsideSpan (first, last))) := by
  obtain ⟨outside, rfl⟩ := h.only
  unfold outsideSpan? ScoreState.outsideSpan
  refine (h.widen hspan).bind fun r hr => ?_
  obtain ⟨⟨cell, hcell, hfinal⟩, -, -⟩ := hr.tiers hspan
  refine Yields.bind (.of_eq_some hcell rfl) fun _ heq => ?_
  subst heq
  refine (hr.tier hfinal (fun u label hnone => by simp [ScoreState.passUnary, hnone])
    fun r u id label hr hlt hid => hr.passUnary hspan hfinal (hled.final _ _) hlt hid).bind
      fun r hr => ?_
  obtain ⟨-, ⟨cell, hcell, hclosed⟩, -⟩ := hr.tiers hspan
  refine Yields.bind (.of_eq_some hcell rfl) fun _ heq => ?_
  subst heq
  refine (hr.tier hclosed (fun u label hnone => by simp [ScoreState.passUnary, hnone])
    fun r u id label hr hlt hid => hr.passUnary hspan hclosed (hled.closed _ _) hlt hid).bind
      fun r hr => ?_
  obtain ⟨-, -, cell, hcell, hbuilt⟩ := hr.tiers hspan
  refine Yields.bind (.of_eq_some hcell rfl) fun _ heq => ?_
  subst heq
  exact hr.tier hbuilt (fun u label hnone => by simp [ScoreState.passBuilt, hnone])
    fun r u id label hr hlt hid => hr.passBuilt hspan hled.known hbuilt hlt hid

variable (s) in
theorem runOutside (h : s.Follows g w o order size known st) (hled : Led known st)
    (hblank : ∀ i j, st.outside.get i j = []) :
    Yields (runOutside? size s) (Descends g w o order size known st (Chart.spansFromLong size) ·
      (st.runOutside o.goal size)) := by
  have hout : st.outside.IsSpan 0 size := ⟨Nat.zero_le _, Nat.le_of_eq h.reach.symm⟩
  unfold runOutside? ScoreState.runOutside
  rw [Chart.spansFromLong?_eq]
  refine (h.outside.alter hout h.cache.numbers.nodup h.goal (f := fun _ => Score.one)
    (g := fun _ => Score.one) fun _ _ _ => rfl).bind fun outside houtside => ?_
  have hstart : Descends g w o order size known st [] { s with outside }
      { st with outside := st.outside.modify 0 size fun m => LabelMap.insert m o.goal Score.one } := by
    refine ⟨⟨h.cache, h.goal, h.built, h.closed, h.final, h.inside, houtside,
      ⟨h.sized.built, h.sized.closed, h.sized.final, h.sized.inside⟩,
      (Chart.size_modify ..).trans h.reach, h.spans⟩, ⟨_, rfl⟩, fun l hl => ?_, by simp⟩
    rw [Chart.get_modify _ _ _ _ _ _ hout] at hl
    split at hl
    · rename_i hij
      rw [LabelMap.insert, LabelMap.get?_upsert, hblank] at hl
      split at hl
      · rename_i hlabel
        right
        obtain ⟨i, j, l⟩ := l
        simp only at hij hlabel
        rw [hij.1, hij.2, hlabel]
      · simp [LabelMap.get?] at hl
    · rw [hblank] at hl
      simp [LabelMap.get?] at hl
  refine yields_foldlM_prefix (P := fun done r => Descends g w o order size known st done r
    (done.foldl ScoreState.outsideSpan _)) ?_ hstart
  rintro done ⟨first, last⟩ rest hsplit r hr
  have hmem : (first, last) ∈ Chart.spansFromLong size := by simp [hsplit]
  rw [List.foldl_append]
  exact hr.outsideSpan hled (Chart.mem_spansFromLong.mp hmem)

end Descends

end ScoreCells

end ParseForest
