import ParseForest.Proofs.Posterior.Run

/-!
# Where edges lead

Whatever closures a scoring parser uses, each of its edges leads to labels that have an inside
score: a unary edge to a label of the tier before, an edge of the first tier to labels that were
in the final tier when it was built.
-/

namespace ParseForest.ScoreState

variable {V S : Type} [Score S]

def HasInside (st : ScoreState V S) (l : SpanLabel) : Prop :=
  (LabelMap.get? (st.inside.get l.first l.last) l.label).isSome = true

structure Settled (closure : Symbol → LabelMap S) (o : Options V) (pruner : Pruner) (n : Nat)
    (done : List (Nat × Nat)) (st : ScoreState V S) : Prop where
  sized : st.Sized n
  outside : st.outside = Chart.new n
  blank : ∀ i j, (i, j) ∉ done → st.cell i j = ScoreCell.blank
  filled : ∀ i j, ∃ builds closes finals, st.cell i j =
    ScoreCell.after (builds ++ (closes ++ finals)) ∧
      (∀ s ∈ builds, ∃ label e x, s = .build label e x) ∧
      Closes closure ⟨o, pruner, i, j⟩ builds closes finals

variable {closure : Symbol → LabelMap S} {w : Weighting V S} {o : Options V} {lattice : Lattice V}
  {pruner : Pruner} {n : Nat} {done : List (Nat × Nat)} {st : ScoreState V S}

theorem settled_start (g : Grammar V) : Settled closure o pruner n [] (start g w o n) := by
  have hblank (i j : Nat) : (start g w o n).cell i j = ScoreCell.blank := by
    simp only [cell, start, Chart.get_new]
    rfl
  exact ⟨⟨rfl, rfl, rfl, rfl⟩, rfl, fun i j _ => hblank i j, fun i j =>
    ⟨[], [], [], hblank i j, by simp, ⟨[], by simp, .nil⟩, [], by simp, .nil⟩⟩

theorem Settled.fillSpan (h : Settled closure o pruner lattice.size done st) {first last : Nat}
    (hspan : first < last ∧ last ≤ lattice.size) (hnew : (first, last) ∉ done) :
    Settled closure o pruner lattice.size (done ++ [(first, last)])
      (st.fillSpan w o closure lattice lattice.distanceTable pruner (first, last)) := by
  have hout {i j : Nat} (hij : (i, j) ∉ done ++ [(first, last)]) :
      (i, j) ∉ done ∧ ¬(i = first ∧ j = last) := by
    simpa using hij
  have hsized : Sized lattice.size { st with tracks := advanced w o lattice st first last } :=
    ⟨h.sized.built, h.sized.closed, h.sized.final, h.sized.inside⟩
  cases hskip : pruner.skipsSpan first last with
  | true =>
    rw [fillSpan_of_skipped hskip]
    exact ⟨hsized, h.outside, fun i j hij => h.blank i j (hout hij).1, h.filled⟩
  | false =>
    rw [fillSpan_of_left hskip]
    obtain ⟨builds, hlocal, hbuild, -⟩ := local_matched hsized w ⟨o, pruner, first, last⟩ hspan
      (matchedAt w o lattice st first last)
    generalize (matchedAt w o lattice st first last).foldl (buildLabel w ⟨o, pruner, first, last⟩)
      { st with tracks := advanced w o lattice st first last } = built at hlocal ⊢
    have hcell : built.cell first last = ScoreCell.after builds := by
      have hold : ScoreState.cell { st with tracks := advanced w o lattice st first last } first
          last = ScoreCell.blank := h.blank first last hnew
      rw [hlocal.cell, hold]
      rfl
    obtain ⟨closes, finals, hclose, hcloses⟩ := local_closeSpan hlocal.sized closure
      ⟨o, pruner, first, last⟩ hspan hcell fun s hs => ⟨hlocal.known s hs, hbuild s hs⟩
    generalize built.closeSpan closure ⟨o, pruner, first, last⟩ = st' at hclose ⊢
    have hother (i j : Nat) (hij : ¬(i = first ∧ j = last)) : st'.cell i j = st.cell i j :=
      (hclose.other i j hij).trans (hlocal.other i j hij)
    refine ⟨⟨hclose.sized.built, hclose.sized.closed, hclose.sized.final, hclose.sized.inside⟩,
      hclose.outside.trans (hlocal.outside.trans h.outside),
      fun i j hij => (hother i j (hout hij).2).trans (h.blank i j (hout hij).1), fun i j => ?_⟩
    by_cases hij : i = first ∧ j = last
    · obtain ⟨rfl, rfl⟩ := hij
      refine ⟨builds, closes, finals, hclose.cell.trans ?_, hbuild, hcloses⟩
      simp only [hcell, ScoreCell.after, List.foldl_append]
    · obtain ⟨builds, closes, finals, hfilled⟩ := h.filled i j
      exact ⟨builds, closes, finals, (hother i j hij).trans hfilled.1, hfilled.2⟩

theorem settled_runInside (g : Grammar V) : Settled closure o pruner lattice.size
    (Chart.spansByLength lattice.size) (runInside g w o closure lattice pruner) := by
  have key (done rest : List (Nat × Nat))
      (hsplit : Chart.spansByLength lattice.size = done ++ rest) :
      Settled closure o pruner lattice.size done
        (done.foldl (ScoreState.fillSpan w o closure lattice lattice.distanceTable pruner)
          (start g w o lattice.size)) := by
    induction done using List.reverseRecOn generalizing rest with
    | nil => exact settled_start g
    | append_singleton done s ih =>
      rw [List.append_assoc, List.singleton_append] at hsplit
      rw [List.foldl_append]
      exact (ih _ hsplit).fillSpan (Chart.isSpan_of_split hsplit) (Chart.not_mem_done hsplit)
  exact key _ [] (List.append_nil _).symm

namespace Settled

variable (h : Settled closure o pruner n done st)

include h

theorem hasInside_of_final {i j : Nat} {label : Symbol} (hhas : (st.final.get i j).has label = true) :
    st.HasInside ⟨i, j, label⟩ := by
  obtain ⟨builds, closes, finals, hcell, -, -⟩ := h.filled i j
  rw [show st.final.get i j = (ScoreCell.after (builds ++ (closes ++ finals))).unary true from
    congrArg ScoreCell.final hcell, ScoreCell.has_unary] at hhas
  obtain ⟨e, x, hs⟩ := hhas
  rw [HasInside, show st.inside.get i j = (ScoreCell.after (builds ++ (closes ++ finals))).inside
    from congrArg ScoreCell.inside hcell, ScoreCell.isSome_inside]
  exact ⟨_, hs, rfl⟩

theorem hasInside_of_unary (toFinal : Bool) {i j : Nat} {label : Symbol} {e : UnaryEdge S}
    (he : e ∈ ((st.cell i j).unary toFinal).edges label) : st.HasInside ⟨i, j, e.tail⟩ := by
  obtain ⟨builds, closes, finals, hcell, hbuilds, ⟨children, hchildren, hpass⟩,
    children', hchildren', hpass'⟩ := h.filled i j
  rw [HasInside, show st.inside.get i j = (ScoreCell.after (builds ++ (closes ++ finals))).inside
    from congrArg ScoreCell.inside hcell, ScoreCell.isSome_inside]
  rw [hcell, ScoreCell.mem_unary] at he
  obtain ⟨x, hs⟩ := he
  simp only [List.mem_append] at hs ⊢
  rcases hs with hs | hs | hs
  · obtain ⟨_, _, _, heq⟩ := hbuilds _ hs
    cases heq
  · obtain ⟨_, -, child, hchild, _, _, -, -, heq⟩ := hpass.of_mem hs
    cases heq
    obtain ⟨f, y, hbuild⟩ := (hchildren _).mp hchild
    exact ⟨_, .inl hbuild, rfl⟩
  · obtain ⟨_, -, child, hchild, _, _, -, -, heq⟩ := hpass'.of_mem hs
    cases heq
    obtain ⟨f, y, hclose⟩ := (hchildren' _).mp hchild
    exact ⟨_, .inr (.inl hclose), rfl⟩

end Settled

end ParseForest.ScoreState
