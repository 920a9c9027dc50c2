import Mathlib.Data.List.Perm.Subperm
import Mathlib.Data.Set.Card
import Mathlib.Logic.Relator
import ParseForest.Proofs.Hypergraph.WellFormed

/-!
# Isomorphic graphs

Two graphs are isomorphic when they differ in the numbers of their nodes and edges only. A matching
relates nodes and edges of two graphs: below matched nodes, every edge of either graph is matched
with one of the other that has the same contents and matched tails. Of graphs in which everything
is reached from the goal, a matching is an isomorphism, and sorting hands a matching on to such
graphs.
-/

namespace ParseForest.Hypergraph

variable {V : Type} {g g' : Hypergraph V}

def Isomorphic (g g' : Hypergraph V) : Prop :=
  ∃ nodeOf edgeOf, PartOf g' g nodeOf edgeOf ∧
    Set.BijOn nodeOf {n : Nat | n < g.nodes.size} {n : Nat | n < g'.nodes.size} ∧
    Set.BijOn edgeOf {e : Nat | e < g.edges.size} {e : Nat | e < g'.edges.size}

theorem partOf_refl (g : Hypergraph V) : PartOf g g id id := by
  refine ⟨?_, Set.injOn_id _, Set.injOn_id _, fun _ _ he => he, ?_, ?_, fun _ _ => rfl,
    fun _ _ => rfl, fun _ _ => rfl⟩
  all_goals simp

theorem isomorphic_refl (g : Hypergraph V) : g.Isomorphic g :=
  ⟨id, id, partOf_refl g, Set.bijOn_id _, Set.bijOn_id _⟩

theorem Isomorphic.size_eq (h : g.Isomorphic g') : g.nodes.size = g'.nodes.size := by
  obtain ⟨nodeOf, _, -, hnodes, -⟩ := h
  have hcard := hnodes.ncard_eq
  have hrange : ∀ k : Nat, {n : Nat | n < k} = ↑(Finset.range k) := fun k => by
    ext n
    simp
  rwa [hrange, hrange, Set.ncard_coe_finset, Set.ncard_coe_finset, Finset.card_range,
    Finset.card_range] at hcard

structure Matching (g g' : Hypergraph V) (N : NodeId → NodeId → Prop)
    (E : EdgeId → EdgeId → Prop) : Prop where
  nodes : Relator.BiUnique N
  edges : Relator.BiUnique E
  goal : ∀ n m, g.goal = some n → g'.goal = some m → N n m
  forth : ∀ {n m}, N n m → ∀ e ∈ (g.node n).edges, ∃ f ∈ (g'.node m).edges, E e f
  back : ∀ {n m}, N n m → ∀ f ∈ (g'.node m).edges, ∃ e ∈ (g.node n).edges, E e f
  tails : ∀ {e f}, E e f → List.Forall₂ N (g.edge e).tails (g'.edge f).tails
  same : ∀ {e f}, E e f → (g.edge e).rule = (g'.edge f).rule ∧
    (g.edge e).features = (g'.edge f).features ∧ (g.edge e).attributes = (g'.edge f).attributes

/-! ## Graphs that are reached from the goal -/

namespace WellFormed

variable {goal goal' : Nat}

theorem of_mem_edges (h : g.WellFormed goal) {n e : Nat} (he : e ∈ (g.node n).edges) :
    e < g.edges.size ∧ n < g.nodes.size ∧ (g.edge e).head = some n := by
  have hlt := h.inside n e he
  obtain ⟨head, hhead, heq, hcount⟩ := h.once e hlt
  have hn : n = head := by
    by_contra hne
    have hzero := hcount n
    rw [if_neg hne, List.count_eq_zero] at hzero
    exact hzero he
  exact ⟨hlt, hn ▸ hhead, hn ▸ heq⟩

theorem exists_node (h : g.WellFormed goal) {e : Nat} (he : e < g.edges.size) :
    ∃ n : Nat, n < g.nodes.size ∧ e ∈ (g.node n).edges := by
  obtain ⟨head, hhead, -, hcount⟩ := h.once e he
  have hone := hcount head
  rw [if_pos rfl] at hone
  exact ⟨head, hhead, List.one_le_count_iff.mp (Nat.le_of_eq hone.symm)⟩

theorem goal_lt (h : g.WellFormed goal) : goal < g.nodes.size := by
  have hlast := h.last
  omega

end WellFormed

namespace Matching

variable {N : NodeId → NodeId → Prop} {E : EdgeId → EdgeId → Prop} {goal goal' : Nat}

theorem symm (h : Matching g g' N E) : Matching g' g (Function.swap N) (Function.swap E) where
  nodes := ⟨fun _ _ _ hac hbc => h.nodes.2 hac hbc, fun _ _ _ hab hac => h.nodes.1 hab hac⟩
  edges := ⟨fun _ _ _ hac hbc => h.edges.2 hac hbc, fun _ _ _ hab hac => h.edges.1 hab hac⟩
  goal n m hn hm := h.goal m n hm hn
  forth := h.back
  back := h.forth
  tails he := (h.tails he).flip
  same he := ⟨(h.same he).1.symm, (h.same he).2.1.symm, (h.same he).2.2.symm⟩

theorem exists_node (h : Matching g g' N E) (hg : g.WellFormed goal) (hg' : g'.WellFormed goal')
    {n : Nat} (hn : n < g.nodes.size) : ∃ m : Nat, m < g'.nodes.size ∧ N n m := by
  induction hg.reached n hn with
  | refl => exact ⟨goal', hg'.goal_lt, h.goal _ _ hg.goal_eq hg'.goal_eq⟩
  | @tail b t _ hlink ih =>
    obtain ⟨e, hlink⟩ := hlink
    obtain ⟨he, ht⟩ := mem_links.mp hlink
    obtain ⟨m, hm, hbm⟩ := ih (hg.of_mem_edges he).2.1
    obtain ⟨f, hf, hef⟩ := h.forth hbm e he
    obtain ⟨i, hi, rfl⟩ := List.getElem_of_mem ht
    have hi' : i < (g'.edge f).tails.length := (h.tails hef).length_eq ▸ hi
    have hnext := (h.tails hef).get hi hi'
    refine ⟨_, Nat.lt_trans (hg'.below f m (hg'.of_mem_edges hf).2.2 _ (List.getElem_mem hi')) hm,
      hnext⟩

theorem exists_edge (h : Matching g g' N E) (hg : g.WellFormed goal) (hg' : g'.WellFormed goal')
    {e : Nat} (he : e < g.edges.size) : ∃ f : Nat, f < g'.edges.size ∧ E e f := by
  obtain ⟨n, hn, he⟩ := hg.exists_node he
  obtain ⟨m, -, hnm⟩ := h.exists_node hg hg' hn
  obtain ⟨f, hf, hef⟩ := h.forth hnm e he
  exact ⟨f, hg'.inside m f hf, hef⟩

theorem exists_renaming (h : Matching g g' N E) (hg : g.WellFormed goal)
    (hg' : g'.WellFormed goal') : ∃ nodeOf edgeOf, PartOf g' g nodeOf edgeOf ∧
      Set.BijOn nodeOf {n : Nat | n < g.nodes.size} {n : Nat | n < g'.nodes.size} ∧
      Set.BijOn edgeOf {e : Nat | e < g.edges.size} {e : Nat | e < g'.edges.size} ∧
      ∀ n : Nat, n < g.nodes.size → N n (nodeOf n) := by
  choose! nodeOf hnodeOf hN using fun (n : Nat) (hn : n < g.nodes.size) =>
    h.exists_node hg hg' hn
  choose! edgeOf hedgeOf hE using fun (e : Nat) (he : e < g.edges.size) =>
    h.exists_edge hg hg' he
  have hlisted : ∀ n e : Nat, e ∈ (g.node n).edges → edgeOf e ∈ (g'.node (nodeOf n)).edges := by
    intro n e he
    obtain ⟨hlt, hn, -⟩ := hg.of_mem_edges he
    obtain ⟨f, hf, hef⟩ := h.forth (hN n hn) e he
    rwa [h.edges.2 (hE e hlt) hef]
  have htails : ∀ e : Nat, e < g.edges.size →
      (g'.edge (edgeOf e)).tails = (g.edge e).tails.map nodeOf := by
    intro e he
    obtain ⟨n, hn, hmem⟩ := hg.exists_node he
    have hlt : ∀ t ∈ (g.edge e).tails, (show Nat from t) < g.nodes.size := fun t ht =>
      Nat.lt_trans (hg.below e n (hg.of_mem_edges hmem).2.2 t ht) hn
    have hall := List.forall₂_and_left (p := fun t : NodeId => (show Nat from t) < g.nodes.size)
      _ _ |>.mpr ⟨hlt, h.tails (hE e he)⟩
    rw [← List.forall₂_eq_eq_eq, List.forall₂_map_right_iff]
    exact (hall.imp fun t u htu => h.nodes.2 htu.2 (hN t htu.1)).flip
  refine ⟨nodeOf, edgeOf, ⟨?_, ?_, ?_, hlisted, fun e he => ?_, htails,
    fun e he => (h.same (hE e he)).1.symm, fun e he => (h.same (hE e he)).2.1.symm,
    fun e he => (h.same (hE e he)).2.2.symm⟩, ⟨fun n hn => hnodeOf n hn, ?_, fun m hm => ?_⟩,
    ⟨fun e he => hedgeOf e he, ?_, fun f hf => ?_⟩, hN⟩
  · rw [hg.goal_eq, hg'.goal_eq, Option.map_some]
    exact congrArg some (h.nodes.2 (h.goal _ _ hg.goal_eq hg'.goal_eq) (hN goal hg.goal_lt))
  · exact fun n hn m hm heq => h.nodes.1 (hN n hn) (heq ▸ hN m hm)
  · exact fun e he f hf heq => h.edges.1 (hE e he) (heq ▸ hE f hf)
  · obtain ⟨n, -, hmem⟩ := hg.exists_node he
    rw [(hg.of_mem_edges hmem).2.2, (hg'.of_mem_edges (hlisted n e hmem)).2.2, Option.map_some]
  · exact fun n hn m hm heq => h.nodes.1 (hN n hn) (heq ▸ hN m hm)
  · obtain ⟨n, hn, hnm⟩ := h.symm.exists_node hg' hg hm
    exact ⟨n, hn, h.nodes.2 (hN n hn) hnm⟩
  · exact fun e he f hf heq => h.edges.1 (hE e he) (heq ▸ hE f hf)
  · obtain ⟨e, he, hef⟩ := h.symm.exists_edge hg' hg hf
    exact ⟨e, he, h.edges.2 (hE e he) hef⟩

end Matching

/-! ## Sorted graphs -/

/-- Sorting finds no edge that closes a cycle and nothing without a derivation among what the goal
reaches, and leaves the nodes that the goal reaches with all of their edges. -/
structure KeepsReached (g : Hypergraph V) (goal : Nat) : Prop where
  acyclic : ∀ e, (g.searchFrom goal).isCyclic e = false
  derivable : ∀ n : Nat, g.Reaches goal n →
    (g.derivable (g.searchFrom goal)).hasNode n = true ∧
      ∀ e ∈ (g.node n).edges, (g.derivable (g.searchFrom goal)).hasEdge e = true
  left : ∃ nodeOf edgeOf, PartOf g g.sorted nodeOf edgeOf ∧
    Set.BijOn nodeOf {n : Nat | n < g.sorted.nodes.size} {n | g.Reaches goal n} ∧
    Set.BijOn edgeOf {e : Nat | e < g.sorted.edges.size}
      {e | ∃ n, g.Reaches goal n ∧ e ∈ (g.node n).edges}

namespace Descending

variable {goal : Nat} (h : g.Descending) (hl : g.Owned) (hin : g.TailsInside)
  (hlt : goal < g.nodes.size)
include h hl hin hlt

theorem hasEdge_of_mem_edges {n e : Nat} (hn : n ∈ (g.searchFrom goal).finished)
    (he : e ∈ (g.node n).edges) : (g.derivable (g.searchFrom goal)).hasNode n = true ∧
      (g.derivable (g.searchFrom goal)).hasEdge e = true := by
  have hcyclic : ∀ e, (g.searchFrom goal).isCyclic e = false :=
    not_isCyclic_of_descending hlt fun m l hlink => h.tails m l.1 (mem_links.mp hlink).1 l.2
      (mem_links.mp hlink).2
  have htree : ∀ t ∈ (g.edge e).tails, ∃ x, g.Derives t x := fun t ht =>
    h.exists_derives t (Nat.lt_trans (h.tails n e he t ht) (hl.owned n e he).2.1)
  choose! f hf using htree
  have hx : g.Derives n (.node e ((g.edge e).tails.map f)) := by
    refine derives_node_iff.mpr ⟨he, ?_⟩
    rw [List.forall₂_map_right_iff, List.forall₂_same]
    exact hf
  obtain ⟨hnode, hall⟩ := hasEdge_of_derives hl hin (searching_searchFrom hlt).settled
    (decided_derivable hl hin hlt) hn hx (all_tree hcyclic hx)
  obtain ⟨⟨m, hm⟩, -⟩ := hall
  exact ⟨hnode, (List.mem_filter.mp hm).2⟩

theorem mem_keptEdges {n e : Nat} (hn : n ∈ g.remaining goal) (he : e ∈ (g.node n).edges) :
    e ∈ g.keptEdges goal n :=
  List.mem_filter.mpr ⟨he, (h.hasEdge_of_mem_edges hl hin hlt (mem_remaining.mp hn).1 he).2⟩

theorem hasNode_goal : (g.derivable (g.searchFrom goal)).hasNode goal = true := by
  obtain ⟨e, he⟩ := h.derived goal hlt
  exact (h.hasEdge_of_mem_edges hl hin hlt (List.mem_reverse.mp (goal_mem_order hlt)) he).1

theorem size_sorted (hg : g.goal = some goal) {tails : List NodeId} (hnd : (goal :: tails).Nodup)
    (htails : ∀ t ∈ tails, ∃ e ∈ (g.node goal).edges, t ∈ (g.edge e).tails) :
    tails.length < g.sorted.nodes.size ∧ g.sorted.nodes.size ≤ g.nodes.size := by
  obtain ⟨_, _, hc, -⟩ := renumbered_sorted hl hin hg hlt (h.hasNode_goal hl hin hlt)
  have hgoal := goal_mem_remaining hl hin hlt
  rw [hc.size]
  constructor
  · refine (hnd.subperm fun n hn => ?_).length_le
    rcases List.mem_cons.mp hn with rfl | hn
    · exact hgoal
    · obtain ⟨e, he, ht⟩ := htails n hn
      exact tail_mem_remaining hl hin hlt goal hgoal e (h.mem_keptEdges hl hin hlt hgoal he) n ht
  · have hsub := (nodup_remaining hlt).subperm fun n hn =>
      List.mem_range.mpr (lt_of_mem_remaining hlt hn)
    simpa using hsub.length_le

theorem mem_remaining_of_reaches {n : Nat} (hn : g.Reaches goal n) : n ∈ g.remaining goal := by
  induction hn with
  | refl => exact goal_mem_remaining hl hin hlt
  | tail _ hlink ih =>
    obtain ⟨e, hlink⟩ := hlink
    obtain ⟨he, ht⟩ := mem_links.mp hlink
    exact tail_mem_remaining hl hin hlt _ ih e (h.mem_keptEdges hl hin hlt ih he) _ ht

theorem keepsReached (hg : g.goal = some goal) : g.KeepsReached goal where
  acyclic := not_isCyclic_of_descending hlt fun m l hlink => h.tails m l.1 (mem_links.mp hlink).1 l.2
    (mem_links.mp hlink).2
  derivable n hn := by
    have hmem := h.mem_remaining_of_reaches hl hin hlt hn
    have hedges := fun e (he : e ∈ (g.node n).edges) =>
      h.hasEdge_of_mem_edges hl hin hlt (mem_remaining.mp hmem).1 he
    obtain ⟨e, he⟩ := h.derived n (lt_of_mem_remaining hlt hmem)
    exact ⟨(hedges e he).1, fun e he => (hedges e he).2⟩
  left := by
    obtain ⟨place, back, hc, hgs⟩ := renumbered_sorted hl hin hg hlt (h.hasNode_goal hl hin hlt)
    have hpart := hc.partOf hl hg (goal_mem_remaining hl hin hlt) hgs
    have hlink : ∀ n t, g.KeptLink goal n t → g.Link n t := by
      rintro n t ⟨e, he, ht⟩
      exact ⟨e, mem_links.mpr ⟨(List.mem_filter.mp he).1, ht⟩⟩
    have hreaches : ∀ n ∈ g.remaining goal, g.Reaches goal n := fun n hn =>
      Relation.ReflTransGen.mono hlink _ _ (keptLink_of_mem_remaining hl hin hn)
    refine ⟨_, back, hpart, ⟨fun i hi => ?_, hpart.nodes, fun n hn => ?_⟩,
      ⟨fun e he => ?_, hpart.edges, ?_⟩⟩
    · obtain ⟨n, hn, -, rfl⟩ := hc.exists_node hi
      simp only [hc.getD_place hn]
      exact hreaches n hn
    · have hmem := h.mem_remaining_of_reaches hl hin hlt hn
      exact ⟨place n, hc.place_lt hmem, hc.getD_place hmem⟩
    · obtain ⟨n, hn, hlisted, -⟩ := hc.exists_owner he
      exact ⟨n, hreaches n hn, hc.own_sub n hn _ (hc.listed n hn e hlisted)⟩
    · rintro e ⟨n, hn, he⟩
      have hmem := h.mem_remaining_of_reaches hl hin hlt hn
      obtain ⟨k, hk, rfl⟩ := hc.copied n hmem e (h.mem_keptEdges hl hin hlt hmem he)
      exact ⟨k, ((hc.linked.listed _ k).mp hk).1, rfl⟩

end Descending

/-- Copies of matched graphs are matched, when all edges of the nodes that are left are copied. -/
theorem Matching.copied {N : NodeId → NodeId → Prop} {E : EdgeId → EdgeId → Prop}
    (h : Matching g g' N E) {c c' : Hypergraph V} {nodes nodes' : List NodeId}
    {own own' : NodeId → List EdgeId} {place place' : NodeId → NodeId}
    {back back' : EdgeId → EdgeId}
    (hc : Renumbered g c nodes own place back) (hc' : Renumbered g' c' nodes' own' place' back')
    (hown : ∀ n ∈ nodes, ∀ e ∈ (g.node n).edges, e ∈ own n)
    (hown' : ∀ n ∈ nodes', ∀ e ∈ (g'.node n).edges, e ∈ own' n)
    (hback : Set.InjOn back {e : Nat | e < c.edges.size})
    (hback' : Set.InjOn back' {e : Nat | e < c'.edges.size})
    (hgoal : ∀ n m : Nat, c.goal = some n → c'.goal = some m → ∃ goal ∈ nodes, ∃ goal' ∈ nodes',
      n = place goal ∧ m = place' goal' ∧ N goal goal') :
    Matching c c' (fun i j => ∃ n ∈ nodes, ∃ m ∈ nodes', i = place n ∧ j = place' m ∧ N n m)
      (fun e f => (show Nat from e) < c.edges.size ∧ (show Nat from f) < c'.edges.size ∧
        E (back e) (back' f)) where
  nodes := by
    constructor
    · rintro i i' j ⟨n, hn, m, hm, rfl, rfl, hnm⟩ ⟨n', hn', m', hm', rfl, heq, hnm'⟩
      have hmm : m = m' := by rw [← hc'.getD_place hm, heq, hc'.getD_place hm']
      rw [h.nodes.1 hnm (hmm ▸ hnm')]
    · rintro i j j' ⟨n, hn, m, hm, rfl, rfl, hnm⟩ ⟨n', hn', m', hm', heq, rfl, hnm'⟩
      have hnn : n = n' := by rw [← hc.getD_place hn, heq, hc.getD_place hn']
      rw [h.nodes.2 hnm (hnn ▸ hnm')]
  edges := by
    constructor
    · rintro e e' f ⟨he, hf, hef⟩ ⟨he', -, hef'⟩
      exact hback he he' (h.edges.1 hef hef')
    · rintro e f f' ⟨he, hf, hef⟩ ⟨-, hf', hef'⟩
      exact hback' hf hf' (h.edges.2 hef hef')
  goal n m hn hm := by
    obtain ⟨goal, hgoal, goal', hgoal', rfl, rfl, hN⟩ := hgoal n m hn hm
    exact ⟨goal, hgoal, goal', hgoal', rfl, rfl, hN⟩
  forth := by
    rintro i j ⟨n, hn, m, hm, rfl, rfl, hnm⟩ e he
    obtain ⟨f, hf, hef⟩ := h.forth hnm _ (hc.own_sub n hn _ (hc.listed n hn e he))
    obtain ⟨k, hk, rfl⟩ := hc'.copied m hm f (hown' m hm f hf)
    exact ⟨k, hk, ((hc.linked.listed _ e).mp he).1, ((hc'.linked.listed _ k).mp hk).1, hef⟩
  back := by
    rintro i j ⟨n, hn, m, hm, rfl, rfl, hnm⟩ f hf
    obtain ⟨e, he, hef⟩ := h.back hnm _ (hc'.own_sub m hm _ (hc'.listed m hm f hf))
    obtain ⟨k, hk, rfl⟩ := hc.copied n hn e (hown n hn e he)
    exact ⟨k, hk, ((hc.linked.listed _ k).mp hk).1, ((hc'.linked.listed _ f).mp hf).1, hef⟩
  tails := by
    rintro e f ⟨he, hf, hef⟩
    obtain ⟨n, hn, hlisted, -⟩ := hc.exists_owner he
    obtain ⟨m, hm, hlisted', -⟩ := hc'.exists_owner hf
    have hin := hc.closed n hn _ (hc.listed n hn e hlisted)
    have hin' := hc'.closed m hm _ (hc'.listed m hm f hlisted')
    rw [hc.tails n hn e hlisted, hc'.tails m hm f hlisted', List.forall₂_map_left_iff,
      List.forall₂_map_right_iff]
    obtain ⟨hlen, hzip⟩ := List.forall₂_iff_zip.mp (h.tails hef)
    refine List.forall₂_iff_zip.mpr ⟨hlen, fun {t u} htu => ?_⟩
    obtain ⟨ht, hu⟩ := List.of_mem_zip htu
    exact ⟨t, hin t ht, u, hin' u hu, rfl, rfl, hzip htu⟩
  same := by
    rintro e f ⟨he, hf, hef⟩
    obtain ⟨n, -, hlisted, -⟩ := hc.exists_owner he
    obtain ⟨m, -, hlisted', -⟩ := hc'.exists_owner hf
    obtain ⟨hrule, hfeatures, hattributes⟩ := hc.same _ e hlisted
    obtain ⟨hrule', hfeatures', hattributes'⟩ := hc'.same _ f hlisted'
    obtain ⟨h₁, h₂, h₃⟩ := h.same hef
    exact ⟨hrule.trans (h₁.trans hrule'.symm), hfeatures.trans (h₂.trans hfeatures'.symm),
      hattributes.trans (h₃.trans hattributes'.symm)⟩

def origin? (g : Hypergraph V) (i : Nat) : Option NodeId :=
  g.goal.bind fun goal => (g.remaining goal)[i]?

theorem Descending.exists_origin {goal : Nat} (h : g.Descending) (hl : g.Owned)
    (hin : g.TailsInside) (hg : g.goal = some goal) (hlt : goal < g.nodes.size) {i : Nat}
    (hi : i < g.sorted.nodes.size) : ∃ n : Nat, n < g.nodes.size ∧ g.origin? i = some n := by
  obtain ⟨_, _, hc, -⟩ := renumbered_sorted hl hin hg hlt (h.hasNode_goal hl hin hlt)
  rw [hc.size] at hi
  refine ⟨(g.remaining goal)[i], lt_of_mem_remaining hlt (List.getElem_mem hi), ?_⟩
  rw [origin?, hg, Option.bind_some, List.getElem?_eq_getElem hi]

theorem Descending.goal_of_origin {goal : Nat} (h : g.Descending) (hl : g.Owned)
    (hin : g.TailsInside) (hg : g.goal = some goal) (hlt : goal < g.nodes.size) {i : Nat}
    (hi : g.origin? i = some goal) : g.sorted.goal = some i := by
  obtain ⟨place, _, hc, hgoal⟩ := renumbered_sorted hl hin hg hlt (h.hasNode_goal hl hin hlt)
  rw [origin?, hg, Option.bind_some] at hi
  rw [hgoal, hc.place_eq i goal hi]

theorem Matching.exists_renaming_sorted {N : NodeId → NodeId → Prop} {E : EdgeId → EdgeId → Prop}
    (h : Matching g g' N E) {goal goal' : Nat} (hd : g.Descending) (hl : g.Owned)
    (hin : g.TailsInside) (hg : g.goal = some goal) (hlt : goal < g.nodes.size)
    (hd' : g'.Descending) (hl' : g'.Owned) (hin' : g'.TailsInside) (hg' : g'.goal = some goal')
    (hlt' : goal' < g'.nodes.size) : ∃ nodeOf edgeOf, PartOf g'.sorted g.sorted nodeOf edgeOf ∧
      Set.BijOn nodeOf {n : Nat | n < g.sorted.nodes.size} {n : Nat | n < g'.sorted.nodes.size} ∧
      Set.BijOn edgeOf {e : Nat | e < g.sorted.edges.size} {e : Nat | e < g'.sorted.edges.size} ∧
      ∀ i : Nat, i < g.sorted.nodes.size →
        ∃ n m, g.origin? i = some n ∧ g'.origin? (nodeOf i) = some m ∧ N n m := by
  have hnode := hd.hasNode_goal hl hin hlt
  have hnode' := hd'.hasNode_goal hl' hin' hlt'
  obtain ⟨⟨top, hwell⟩, -⟩ := wellFormed_sorted_of_hasNode hl hin hg hlt hnode
  obtain ⟨⟨top', hwell'⟩, -⟩ := wellFormed_sorted_of_hasNode hl' hin' hg' hlt' hnode'
  obtain ⟨place, back, hc, hgc⟩ := renumbered_sorted hl hin hg hlt hnode
  obtain ⟨place', back', hc', hgc'⟩ := renumbered_sorted hl' hin' hg' hlt' hnode'
  have hgoal := goal_mem_remaining hl hin hlt
  have hgoal' := goal_mem_remaining hl' hin' hlt'
  have hcopied := h.copied hc hc' (fun n hn e he => hd.mem_keptEdges hl hin hlt hn he)
    (fun n hn e he => hd'.mem_keptEdges hl' hin' hlt' hn he) (hc.partOf hl hg hgoal hgc).edges
    (hc'.partOf hl' hg' hgoal' hgc').edges fun n m hn hm => by
      rw [hgc] at hn
      rw [hgc'] at hm
      exact ⟨goal, hgoal, goal', hgoal', (Option.some.inj hn).symm, (Option.some.inj hm).symm,
        h.goal _ _ hg hg'⟩
  obtain ⟨nodeOf, edgeOf, hpart, hnodes, hedges, hN⟩ := hcopied.exists_renaming hwell hwell'
  refine ⟨nodeOf, edgeOf, hpart, hnodes, hedges, fun i hi => ?_⟩
  obtain ⟨n, hn, m, hm, hplace, hplace', hnm⟩ := hN i hi
  refine ⟨n, m, ?_, ?_, hnm⟩
  · rw [origin?, hg, Option.bind_some, hplace]
    exact hc.getElem?_place hn
  · rw [origin?, hg', Option.bind_some, hplace']
    exact hc'.getElem?_place hm

end ParseForest.Hypergraph
