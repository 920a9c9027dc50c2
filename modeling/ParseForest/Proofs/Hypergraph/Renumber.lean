import Mathlib.Data.List.Induction
import ParseForest.Hypergraph.Sorted
import ParseForest.Proofs.Hypergraph.Linked

/-!
# Renumbered graphs

`renumber` gives each node its position in a list and copies the edges of the listed nodes one
after another. The copies make a linked graph, and copy number `k` differs from its original in
the numbers of its nodes only.
-/

namespace ParseForest.Hypergraph

variable {V : Type} {g : Hypergraph V}

theorem foldl_positions (places : Array Nat) {nodes : List NodeId} (hnd : nodes.Nodup)
    (hlt : ∀ n ∈ nodes, (show Nat from n) < places.size) (start : Nat) :
    let after := (nodes.zipIdx start).foldl (fun places (n, i) => places.setIfInBounds n i) places
    (∀ n ∉ nodes, after.getD n 0 = places.getD n 0) ∧
      ∀ i n : Nat, nodes[i]? = some n → after.getD n 0 = start + i := by
  induction nodes generalizing places start with
  | nil => simp
  | cons m nodes ih =>
    obtain ⟨hm, hnd⟩ := List.nodup_cons.mp hnd
    obtain ⟨hother, hown⟩ := ih (places.setIfInBounds m start) hnd (fun n hn => by
      rw [Array.size_setIfInBounds]
      exact hlt n (List.mem_cons_of_mem m hn)) (start + 1)
    rw [List.zipIdx_cons, List.foldl_cons]
    refine ⟨fun n hn => ?_, fun i n hi => ?_⟩
    · rw [List.mem_cons, not_or] at hn
      rw [hother n hn.2, Array.getD_eq_getD_getElem?, Array.getD_eq_getD_getElem?,
        Array.getElem?_setIfInBounds_ne (Ne.symm hn.1)]
    · cases i with
      | zero =>
        rw [List.getElem?_cons_zero] at hi
        have hi : m = n := Option.some.inj hi
        subst hi
        have hsize : (show Nat from m) < places.size := hlt m List.mem_cons_self
        rw [hother m hm, Array.getD_eq_getD_getElem?,
          Array.getElem?_setIfInBounds_self_of_lt hsize]
        rfl
      | succ i =>
        rw [hown i n hi]
        omega

theorem getD_positions {size : Nat} {nodes : List NodeId} (hnd : nodes.Nodup)
    (hlt : ∀ n ∈ nodes, (show Nat from n) < size) {i n : Nat} (h : nodes[i]? = some n) :
    (positions size nodes).getD n 0 = i := by
  have hown := (foldl_positions (Array.replicate size 0) hnd
    (fun n hn => by rw [Array.size_replicate]; exact hlt n hn) 0).2 i n h
  rw [Nat.zero_add] at hown
  exact hown

def copies (shares : List (NodeId × List EdgeId)) : List (NodeId × EdgeId) :=
  shares.flatMap fun share => share.2.map fun e => (share.1, e)

theorem linked_repeat_addNode (n : Nat) :
    let h : Hypergraph V := Nat.repeat addNode n empty
    h.Linked ∧ h.nodes.size = n ∧ h.edges.size = 0 := by
  induction n with
  | zero => exact ⟨linked_empty, rfl, rfl⟩
  | succ n ih =>
    obtain ⟨hl, hn, he⟩ := ih
    refine ⟨hl.addNode fun e h => ?_, ?_, he⟩
    · rw [he] at h
      exact absurd h (Nat.not_lt_zero e)
    · exact (size_nodes_addNode _).trans (congrArg (· + 1) hn)

section

variable (g) (places : Array Nat)

def copyOf (k : Nat) (c : NodeId × EdgeId) : Edge V :=
  { g.edge c.2 with
    id := k
    head := some (places.getD c.1 0)
    tails := (g.edge c.2).tails.map fun t => places.getD t 0 }

theorem foldl_addCopy {n : Nat} (made : List (NodeId × EdgeId))
    (hmade : ∀ c ∈ made, places.getD c.1 0 < n) :
    let h := made.foldl (fun h c => h.addCopy places c.1 (g.edge c.2))
      (Nat.repeat addNode n empty)
    h.Linked ∧ h.nodes.size = n ∧ h.edges.size = made.length ∧
      ∀ k c, made[k]? = some c → h.edge k = g.copyOf places k c := by
  induction made using List.reverseRecOn with
  | nil =>
    obtain ⟨hl, hn, he⟩ := linked_repeat_addNode (V := V) n
    exact ⟨hl, hn, he, fun k c hk => by cases hk⟩
  | append_singleton made c ih =>
    obtain ⟨hl, hn, he, hedge⟩ := ih fun c hc => hmade c (List.mem_append_left _ hc)
    rw [List.foldl_append]
    simp only [List.foldl_cons, List.foldl_nil]
    generalize made.foldl (fun h c => h.addCopy places c.1 (g.edge c.2))
      (Nat.repeat addNode n empty) = h at hl hn he hedge
    have hc : places.getD c.1 0 < h.nodes.size := by
      rw [hn]
      exact hmade c (List.mem_append_right _ List.mem_cons_self)
    change (h.extend _ _ _ _ _).Linked ∧ (h.extend _ _ _ _ _).nodes.size = n ∧
      (h.extend _ _ _ _ _).edges.size = _ ∧ ∀ k c', _ → (h.extend _ _ _ _ _).edge k = _
    refine ⟨hl.extend hc _ _ _ _, by rw [size_nodes_extend, hn],
      by rw [size_edges_extend, he, List.length_append, List.length_singleton], ?_⟩
    intro k c' hk
    rw [edge_extend, he]
    split
    · rename_i heq
      subst heq
      rw [List.getElem?_concat_length] at hk
      rw [Option.some.inj hk]
      rfl
    · rename_i hne
      refine hedge k c' ?_
      rw [← hk]
      have hlt := (List.getElem?_eq_some_iff.mp hk).1
      rw [List.length_append, List.length_singleton] at hlt
      exact (List.getElem?_append_left (by omega)).symm

end

def placesOf (g : Hypergraph V) (shares : List (NodeId × List EdgeId)) : Array Nat :=
  positions g.nodes.size (shares.map (·.1))

theorem renumber_eq (shares : List (NodeId × List EdgeId)) (goal : NodeId) :
    g.renumber shares goal = ((copies shares).foldl
      (fun h c => h.addCopy (g.placesOf shares) c.1 (g.edge c.2))
      (Nat.repeat addNode shares.length empty)).withGoal
        (some ((g.placesOf shares).getD goal 0)) := by
  simp only [renumber, placesOf, copies, List.foldl_flatMap, List.foldl_map]

theorem renumber_spec {shares : List (NodeId × List EdgeId)}
    (hnd : (shares.map (·.1)).Nodup)
    (hlt : ∀ n ∈ shares.map (·.1), (show Nat from n) < g.nodes.size) (goal : NodeId) :
    let g' := g.renumber shares goal
    g'.Linked ∧ g'.nodes.size = shares.length ∧ g'.edges.size = (copies shares).length ∧
      ∀ k c, (copies shares)[k]? = some c → g'.edge k = g.copyOf (g.placesOf shares) k c := by
  have hplaces : ∀ c ∈ copies shares, (g.placesOf shares).getD c.1 0 < shares.length := by
    intro c hc
    obtain ⟨share, hshare, hc⟩ := List.mem_flatMap.mp hc
    obtain ⟨e, -, rfl⟩ := List.mem_map.mp hc
    obtain ⟨i, hi, heq⟩ := List.getElem_of_mem (List.mem_map.mpr ⟨share, hshare, rfl⟩ :
      share.1 ∈ shares.map (·.1))
    have hget : (shares.map (·.1))[i]? = some share.1 := by
      rw [List.getElem?_eq_getElem hi, heq]
    rw [placesOf, getD_positions hnd hlt hget]
    rw [List.length_map] at hi
    exact hi
  obtain ⟨hl, hn, he, hedge⟩ := foldl_addCopy g (g.placesOf shares) (copies shares) hplaces
  rw [renumber_eq]
  exact ⟨hl.withGoal _, hn, he, hedge⟩

end ParseForest.Hypergraph
