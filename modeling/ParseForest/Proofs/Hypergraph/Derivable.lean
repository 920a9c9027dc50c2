import Mathlib.Data.List.Induction
import ParseForest.Hypergraph.Sorted
import ParseForest.Proofs.Hypergraph.Linked
import ParseForest.Proofs.Hypergraph.Search

/-!
# What sorting keeps

An edge is kept when it closes no cycle and each of its tails has a kept edge; a node is kept
when the goal leads to it over kept edges. Both are decided in one pass over the order of the
search, the first with tails before heads and the second the other way round.
-/

namespace ParseForest

variable {V : Type}

theorem getD_setIfInBounds {α : Type} (a : Array α) (n m : Nat) (x y : α) :
    (a.setIfInBounds n x).getD m y = if n = m ∧ n < a.size then x else a.getD m y := by
  simp only [Array.getD_eq_getD_getElem?, Array.getElem?_setIfInBounds]
  by_cases hn : n = m
  · subst hn
    by_cases hlt : n < a.size
    · simp [hlt]
    · simp [hlt]
  · simp [hn]

namespace Hypergraph

variable {g : Hypergraph V} {s : Search}

structure Decided (g : Hypergraph V) (s : Search) (nodes : List NodeId) (d : Derivable) :
    Prop where
  sizeNodes : d.nodes.size = g.nodes.size
  sizeEdges : d.edges.size = g.edges.size
  edge : ∀ e : Nat, d.hasEdge e = true ↔ ∃ n ∈ nodes, e ∈ (g.node n).edges ∧
    s.isCyclic e = false ∧ ∀ t ∈ (g.edge e).tails, d.hasNode t = true
  node : ∀ n : Nat, d.hasNode n = true ↔ n ∈ nodes ∧ ∃ e ∈ (g.node n).edges, d.hasEdge e = true

theorem hasNode_note {d : Derivable} {n : Nat} {e : EdgeId} (hn : n < d.nodes.size) (m : Nat) :
    (d.note n e).hasNode m = true ↔ m = n ∨ d.hasNode m = true := by
  simp only [Derivable.note, Derivable.hasNode, getD_setIfInBounds]
  by_cases h : n = m
  · simp [h, h ▸ hn]
  · simp [h, Ne.symm h]

theorem hasEdge_note {d : Derivable} {n : NodeId} {e : Nat} (he : e < d.edges.size) (e' : Nat) :
    (d.note n e).hasEdge e' = true ↔ e' = e ∨ d.hasEdge e' = true := by
  simp only [Derivable.note, Derivable.hasEdge, getD_setIfInBounds]
  by_cases h : e = e'
  · simp [h, h ▸ he]
  · simp [h, Ne.symm h]

theorem note_size (d : Derivable) (n e : Nat) :
    (d.note n e).nodes.size = d.nodes.size ∧ (d.note n e).edges.size = d.edges.size := by
  simp [Derivable.note]

def Good (g : Hypergraph V) (s : Search) (d : Derivable) (e : EdgeId) : Prop :=
  s.isCyclic e = false ∧ ∀ t ∈ (g.edge e).tails, d.hasNode t = true

theorem good_iff {d : Derivable} {e : EdgeId} :
    (!s.isCyclic e && (g.edge e).tails.all d.hasNode) = true ↔ Good g s d e := by
  rw [Bool.and_eq_true, Bool.not_eq_true', List.all_eq_true]
  rfl

theorem Good.congr {d d' : Derivable} {e : EdgeId}
    (h : s.isCyclic e = false → ∀ t ∈ (g.edge e).tails, d'.hasNode t = true ↔ d.hasNode t = true) :
    Good g s d' e ↔ Good g s d e :=
  and_congr_right fun hc => forall₂_congr (h hc)

theorem deriveEdge_spec {d : Derivable} {n e : Nat} (hn : n < d.nodes.size)
    (he : e < d.edges.size) :
    ((g.deriveEdge s n d e).nodes.size = d.nodes.size ∧
      (g.deriveEdge s n d e).edges.size = d.edges.size) ∧
    (∀ e' : Nat, (g.deriveEdge s n d e).hasEdge e' = true ↔
      d.hasEdge e' = true ∨ e' = e ∧ Good g s d e) ∧
    ∀ m : Nat, (g.deriveEdge s n d e).hasNode m = true ↔
      d.hasNode m = true ∨ m = n ∧ Good g s d e := by
  rw [deriveEdge]
  split
  · rename_i hif
    have hgood := good_iff.mp hif
    refine ⟨note_size d n e, fun e' => ?_, fun m => ?_⟩
    · rw [hasEdge_note he, or_comm, and_iff_left hgood]
    · rw [hasNode_note hn, or_comm, and_iff_left hgood]
  · rename_i hif
    have hbad : ¬Good g s d e := fun hgood => hif (good_iff.mpr hgood)
    simp [hbad]

theorem foldl_deriveEdge {d : Derivable} {n : Nat} (hn : n < d.nodes.size) {es : List EdgeId}
    (hes : ∀ e ∈ es, (show Nat from e) < d.edges.size)
    (hself : ∀ e ∈ es, s.isCyclic e = false → n ∉ (g.edge e).tails) :
    let d' := es.foldl (g.deriveEdge s n) d
    (d'.nodes.size = d.nodes.size ∧ d'.edges.size = d.edges.size) ∧
      (∀ e : Nat, d'.hasEdge e = true ↔ d.hasEdge e = true ∨ e ∈ es ∧ Good g s d e) ∧
      ∀ m : Nat, d'.hasNode m = true ↔ d.hasNode m = true ∨ m = n ∧ ∃ e ∈ es, Good g s d e := by
  induction es using List.reverseRecOn with
  | nil => simp
  | append_singleton es e ih =>
    obtain ⟨⟨hns, hes'⟩, hedge, hnode⟩ := ih (fun e he => hes e (List.mem_append_left _ he))
      fun e he => hself e (List.mem_append_left _ he)
    have hmem : e ∈ es ++ [e] := List.mem_append_right _ List.mem_cons_self
    rw [List.foldl_append]
    simp only [List.foldl_cons, List.foldl_nil]
    generalize es.foldl (g.deriveEdge s n) d = d' at hns hes' hedge hnode
    have hgood : Good g s d' e ↔ Good g s d e := by
      refine Good.congr fun hc t ht => (hnode t).trans (or_iff_left fun htn => ?_)
      exact hself e hmem hc (htn.1 ▸ ht)
    obtain ⟨⟨hns', hes''⟩, hedge', hnode'⟩ := deriveEdge_spec (g := g) (s := s) (d := d') (n := n)
      (e := e) (hns ▸ hn) (hes' ▸ hes e hmem)
    refine ⟨⟨hns'.trans hns, hes''.trans hes'⟩, fun e' => ?_, fun m => ?_⟩
    · rw [hedge', hedge, hgood, or_assoc, List.mem_append, List.mem_singleton, or_and_right]
      refine or_congr_right (or_congr_right (and_congr_right fun heq => ?_))
      rw [heq]
    · rw [hnode', hnode, hgood, or_assoc, ← and_or_left]
      simp only [List.mem_append, List.mem_singleton, or_and_right, exists_or, exists_eq_left]

theorem TailsInside.link_lt (hin : g.TailsInside)
    (hedges : ∀ n e : Nat, e ∈ (g.node n).edges → e < g.edges.size) (n : Nat) :
    ∀ l ∈ g.links n, l.2 < g.nodes.size := by
  intro l hl
  obtain ⟨he, ht⟩ := mem_links.mp hl
  exact hin l.1 (hedges n l.1 he) l.2 ht

theorem tail_mem_of_settled (hl : g.Owned) (hin : g.TailsInside) {n : Nat} {before : List NodeId}
    (h : Settled g s.cyclic (n :: before)) {e : Nat} (he : e ∈ (g.node n).edges)
    (hc : s.isCyclic e = false) {t : Nat} (ht : t ∈ (g.edge e).tails) : t ∈ before := by
  rw [Search.isCyclic, ← Bool.not_eq_true, List.contains_iff_mem] at hc
  exact h.mem_before (mem_links.mpr ⟨he, ht⟩) (hin e (hl.owned n e he).1 t ht) hc

theorem mem_before_of_mem (hl : g.Owned) (hin : g.TailsInside) {finished : List NodeId}
    (h : Settled g s.cyclic finished) {m : Nat} (hm : m ∈ finished) {e : Nat}
    (he : e ∈ (g.node m).edges) (hc : s.isCyclic e = false) {t : Nat}
    (ht : t ∈ (g.edge e).tails) : t ∈ finished := by
  induction finished with
  | nil => cases hm
  | cons n before ih =>
    rcases List.mem_cons.mp hm with rfl | hm
    · exact List.mem_cons_of_mem _ (tail_mem_of_settled hl hin h he hc ht)
    · exact List.mem_cons_of_mem _ (ih h.2 hm)

theorem decided_nil : Decided g s []
    ⟨Array.replicate g.nodes.size false, Array.replicate g.edges.size false⟩ := by
  refine ⟨by simp, by simp, fun e => ?_, fun n => ?_⟩
  · simp [Derivable.hasEdge, Array.getD_eq_getD_getElem?, Array.getElem?_replicate]
    split <;> simp
  · simp [Derivable.hasNode, Array.getD_eq_getD_getElem?, Array.getElem?_replicate]
    split <;> simp

/-- One node more. The tails of its edges are among the nodes before it, so what is decided of them
does not change. -/
theorem Decided.cons (hl : g.Owned) (hin : g.TailsInside) {n : NodeId} {before : List NodeId}
    {d : Derivable} (hset : Settled g s.cyclic (n :: before)) (hnb : n ∉ before)
    (hlt : (show Nat from n) < g.nodes.size) (h : Decided g s before d) :
    Decided g s (n :: before) ((g.node n).edges.foldl (g.deriveEdge s n) d) := by
  have htail : ∀ e ∈ (g.node n).edges, s.isCyclic e = false →
      ∀ t ∈ (g.edge e).tails, t ∈ before :=
    fun e he hc t ht => tail_mem_of_settled hl hin hset he hc ht
  obtain ⟨⟨hns, hes⟩, hedge, hnode⟩ := foldl_deriveEdge (g := g) (s := s) (h.sizeNodes ▸ hlt)
    (fun e he => by rw [h.sizeEdges]; exact (hl.owned n e he).1)
    fun e he hc hmem => hnb (htail e he hc n hmem)
  generalize (g.node n).edges.foldl (g.deriveEdge s n) d = d' at hns hes hedge hnode
  have hgood : ∀ m ∈ n :: before, ∀ e ∈ (g.node m).edges, Good g s d' e ↔ Good g s d e := by
    refine fun m hm e he => Good.congr fun hc t ht => (hnode t).trans (or_iff_left fun htn => ?_)
    have htb : t ∈ before := (List.mem_cons.mp hm).elim
      (fun heq => htail e (heq ▸ he) hc t ht) fun hm => mem_before_of_mem hl hin hset.2 hm he hc ht
    exact hnb (htn.1 ▸ htb)
  refine ⟨hns.trans h.sizeNodes, hes.trans h.sizeEdges, fun e => ?_, fun m => ?_⟩
  · rw [hedge, h.edge]
    constructor
    · rintro (⟨m, hm, he, hg⟩ | ⟨he, hg⟩)
      · have hmem := List.mem_cons_of_mem n hm
        exact ⟨m, hmem, he, (hgood m hmem e he).mpr hg⟩
      · exact ⟨n, List.mem_cons_self, he, (hgood n List.mem_cons_self e he).mpr hg⟩
    · rintro ⟨m, hm, he, hg⟩
      have hg := (hgood m hm e he).mp hg
      rcases List.mem_cons.mp hm with rfl | hm
      · exact Or.inr ⟨he, hg⟩
      · exact Or.inl ⟨m, hm, he, hg⟩
  · rw [hnode, h.node]
    constructor
    · rintro (⟨hm, e, he, hd⟩ | ⟨rfl, e, he, hg⟩)
      · exact ⟨List.mem_cons_of_mem n hm, e, he, (hedge e).mpr (Or.inl hd)⟩
      · exact ⟨List.mem_cons_self, e, he, (hedge e).mpr (Or.inr ⟨he, hg⟩)⟩
    · rintro ⟨hm, e, he, hd⟩
      rcases (hedge e).mp hd with hd | ⟨hen, hg⟩
      · obtain ⟨m', hm', he', -⟩ := (h.edge e).mp hd
        obtain rfl := hl.node_eq he' he
        exact Or.inl ⟨hm', e, he, hd⟩
      · exact Or.inr ⟨hl.node_eq he hen, e, hen, hg⟩

theorem decided_foldl (hl : g.Owned) (hin : g.TailsInside) {finished : List NodeId}
    (hset : Settled g s.cyclic finished) (hnd : finished.Nodup)
    (hlt : ∀ n ∈ finished, (show Nat from n) < g.nodes.size) :
    Decided g s finished (finished.reverse.foldl
      (fun d n => (g.node n).edges.foldl (g.deriveEdge s n) d)
      ⟨Array.replicate g.nodes.size false, Array.replicate g.edges.size false⟩) := by
  induction finished with
  | nil => exact decided_nil
  | cons n before ih =>
    obtain ⟨hnb, hnd⟩ := List.nodup_cons.mp hnd
    rw [List.reverse_cons, List.foldl_append]
    simp only [List.foldl_cons, List.foldl_nil]
    exact (ih hset.2 hnd fun m hm => hlt m (List.mem_cons_of_mem n hm)).cons hl hin hset hnb
      (hlt n List.mem_cons_self)

end Hypergraph

end ParseForest
