import Mathlib.Data.List.Forall2
import ParseForest.Forest.SpanBuild

/-!
# The order of tails

Tails are put in order by the indices of their non-terminals alone. So ordering commutes with
mapping, and as long as there are no more tails than non-terminals it only permutes them: lists
that are ordered alike can be compared before or after.
-/

namespace ParseForest

variable {S T : Type} {source : Rule}

theorem orderTails_map (f : S → T) (tails : List S) :
    orderTails source (tails.map f) = (orderTails source tails).map f := by
  unfold orderTails
  rw [List.length_map]
  split
  · rfl
  · have hsort : ((source.nonTerminals.zip tails).mergeSort
        fun a b => a.1.index ≤ b.1.index).map (Prod.map id f) =
        ((source.nonTerminals.zip tails).map (Prod.map id f)).mergeSort
          fun a b => a.1.index ≤ b.1.index := List.map_mergeSort fun _ _ _ _ => rfl
    rw [List.zip_map_right, ← hsort, List.map_map, List.map_map]
    rfl

theorem mem_of_mem_orderTails {tails : List T} {t : T} (h : t ∈ orderTails source tails) :
    t ∈ tails := by
  unfold orderTails at h
  split at h
  · exact h
  · obtain ⟨p, hp, rfl⟩ := List.mem_map.mp h
    rw [List.mem_mergeSort] at hp
    exact (List.of_mem_zip hp).2

theorem perm_orderTails {tails : List T} (h : tails.length ≤ source.arity) :
    (orderTails source tails).Perm tails := by
  unfold orderTails
  split
  · exact List.Perm.refl _
  · have hperm := (List.mergeSort_perm (source.nonTerminals.zip tails)
      fun a b => a.1.index ≤ b.1.index).map (·.2)
    rw [List.map_snd_zip h] at hperm
    exact hperm

theorem forall₂_orderTails_iff {R : S → T → Prop} {ss : List S} {ts : List T}
    (hlen : ss.length = ts.length) (h : ss.length ≤ source.arity) :
    List.Forall₂ R (orderTails source ss) (orderTails source ts) ↔ List.Forall₂ R ss ts := by
  have hss : (ss.zip ts).map Prod.fst = ss := List.map_fst_zip (Nat.le_of_eq hlen)
  have hts : (ss.zip ts).map Prod.snd = ts := List.map_snd_zip (Nat.le_of_eq hlen.symm)
  have hzip : (ss.zip ts).length ≤ source.arity := by
    rw [List.length_zip]
    exact Nat.le_trans (Nat.min_le_left _ _) h
  have hall : ∀ l : List (S × T), List.Forall₂ R (l.map Prod.fst) (l.map Prod.snd) ↔
      ∀ p ∈ l, R p.1 p.2 := fun l => by
    rw [List.forall₂_map_left_iff, List.forall₂_map_right_iff, List.forall₂_same]
  have hordered := hall (orderTails source (ss.zip ts))
  rw [← orderTails_map, ← orderTails_map, hss, hts] at hordered
  have hplain := hall (ss.zip ts)
  rw [hss, hts] at hplain
  rw [hordered, hplain]
  simp only [(perm_orderTails hzip).mem_iff]

theorem forall₂_orderTails {R : S → T → Prop} {ss : List S} {ts : List T}
    (h : List.Forall₂ R ss ts) :
    List.Forall₂ R (orderTails source ss) (orderTails source ts) := by
  obtain ⟨hlen, hzip⟩ := List.forall₂_iff_zip.mp h
  have hss : (ss.zip ts).map Prod.fst = ss := List.map_fst_zip (Nat.le_of_eq hlen)
  have hts : (ss.zip ts).map Prod.snd = ts := List.map_snd_zip (Nat.le_of_eq hlen.symm)
  have hordered : List.Forall₂ R ((orderTails source (ss.zip ts)).map Prod.fst)
      ((orderTails source (ss.zip ts)).map Prod.snd) := by
    rw [List.forall₂_map_left_iff, List.forall₂_map_right_iff, List.forall₂_same]
    exact fun p hp => hzip (mem_of_mem_orderTails hp)
  rwa [← orderTails_map, ← orderTails_map, hss, hts] at hordered

theorem orderTails_inj {ss ts : List T} (hlen : ss.length = ts.length)
    (h : ss.length ≤ source.arity) (heq : orderTails source ss = orderTails source ts) :
    ss = ts := by
  rw [← List.forall₂_eq_eq_eq] at heq ⊢
  exact (forall₂_orderTails_iff hlen h).mp heq

end ParseForest
