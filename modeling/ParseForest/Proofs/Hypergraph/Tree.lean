import Mathlib.Data.List.Forall2
import Mathlib.Data.Set.Basic
import ParseForest.Hypergraph

/-!
# Derivation trees of a hypergraph

A derivation of a node takes one of the edges that the node lists and a derivation of each tail of
that edge. The derivations of a graph are those of its goal.
-/

namespace ParseForest

variable {V : Type}

inductive Tree
  | node (edge : EdgeId) (below : List Tree)
  deriving Inhabited

namespace Tree

def relabel (f : EdgeId → EdgeId) : Tree → Tree
  | node e below => node (f e) (below.map (relabel f))

inductive All (P : EdgeId → Prop) : Tree → Prop
  | node {e : EdgeId} {below : List Tree} (edge : P e) (rest : ∀ x ∈ below, All P x) :
      All P (.node e below)

theorem All.imp {P Q : EdgeId → Prop} (hPQ : ∀ e, P e → Q e) {x : Tree} (h : x.All P) :
    x.All Q := by
  induction h with
  | node edge rest ih => exact All.node (hPQ _ edge) ih

end Tree

namespace Hypergraph

theorem exists_mem_zip {A B : Type} {as : List A} {bs : List B} (h : as.length = bs.length)
    {b : B} (hb : b ∈ bs) : ∃ a, (a, b) ∈ as.zip bs := by
  rw [← List.map_snd_zip (Nat.le_of_eq h.symm)] at hb
  obtain ⟨⟨a, b⟩, hp, rfl⟩ := List.mem_map.mp hb
  exact ⟨a, hp⟩

inductive Derives (g : Hypergraph V) : NodeId → Tree → Prop
  | node {n : Nat} {e : EdgeId} {below : List Tree} (listed : e ∈ (g.node n).edges)
    (length : (g.edge e).tails.length = below.length)
    (tails : ∀ p ∈ (g.edge e).tails.zip below, Derives g p.1 p.2) : Derives g n (.node e below)

def goalTrees (g : Hypergraph V) : Set Tree := {x | ∃ n, g.goal = some n ∧ g.Derives n x}

theorem derives_node_iff {g : Hypergraph V} {n : Nat} {e : EdgeId} {below : List Tree} :
    g.Derives n (.node e below) ↔
      e ∈ (g.node n).edges ∧ List.Forall₂ g.Derives (g.edge e).tails below := by
  constructor
  · rintro ⟨listed, length, tails⟩
    exact ⟨listed, List.forall₂_iff_zip.mpr ⟨length, fun hp => tails _ hp⟩⟩
  · rintro ⟨listed, hall⟩
    obtain ⟨length, tails⟩ := List.forall₂_iff_zip.mp hall
    exact ⟨listed, length, fun p hp => tails hp⟩

end Hypergraph

end ParseForest
