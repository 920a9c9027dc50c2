import Mathlib.Data.Set.Function
import ParseForest.Proofs.Hypergraph.Kept
import ParseForest.Proofs.Hypergraph.Renumber

/-!
# The derivations of a sorted graph

Sorting a linked graph loses those derivations that use an edge which closes a cycle, and no
others: the derivations of the sorted graph are the derivations of the graph without such edges,
one for one, under new numbers. In a graph whose tails come before their heads no edge closes a
cycle, so there nothing is lost.
-/

namespace ParseForest.Hypergraph

variable {V : Type} {g g' : Hypergraph V}

/-- `g'` is a copy of some nodes of `g` and of the edges `own`, where `place` gives the number of
the copy of a node and `back` the original of an edge. -/
structure Copied (g g' : Hypergraph V) (nodes : List NodeId) (own : NodeId → List EdgeId)
    (place : NodeId → NodeId) (back : EdgeId → EdgeId) : Prop where
  listed : ∀ n ∈ nodes, ∀ k ∈ (g'.node (place n)).edges, back k ∈ own n
  copied : ∀ n ∈ nodes, ∀ e ∈ own n, ∃ k ∈ (g'.node (place n)).edges, back k = e
  once : ∀ n ∈ nodes, ∀ k ∈ (g'.node (place n)).edges, ∀ k' ∈ (g'.node (place n)).edges,
    back k = back k' → k = k'
  tails : ∀ n ∈ nodes, ∀ k ∈ (g'.node (place n)).edges,
    (g'.edge k).tails = (g.edge (back k)).tails.map place
  own_sub : ∀ n ∈ nodes, ∀ e ∈ own n, e ∈ (g.node n).edges
  closed : ∀ n ∈ nodes, ∀ e ∈ own n, ∀ t ∈ (g.edge e).tails, t ∈ nodes

theorem exists_of_forall₂ {α β γ δ : Type} {R : γ → δ → Prop} {f : α → γ} {h : δ → β}
    {ts : List α} {xs : List β}
    (hall : List.Forall₂ (fun t x => ∃ y, R (f t) y ∧ h y = x) ts xs) :
    ∃ ys, List.Forall₂ R (ts.map f) ys ∧ ys.map h = xs := by
  induction hall with
  | nil => exact ⟨[], List.Forall₂.nil, rfl⟩
  | cons hfirst _ ih =>
    obtain ⟨y, hy, rfl⟩ := hfirst
    obtain ⟨ys, hys, rfl⟩ := ih
    exact ⟨y :: ys, List.Forall₂.cons hy hys, rfl⟩

namespace Copied

variable {nodes : List NodeId} {own : NodeId → List EdgeId} {place : NodeId → NodeId}
  {back : EdgeId → EdgeId}

theorem derives_relabel (h : Copied g g' nodes own place back) {n : NodeId} {x : Tree}
    (hn : n ∈ nodes) (hx : g'.Derives (place n) x) :
    g.Derives n (x.relabel back) ∧ (x.relabel back).All fun e => ∃ m ∈ nodes, e ∈ own m := by
  generalize hp : place n = p at hx
  induction hx generalizing n with
  | @node p k below listed length tails ih =>
    subst hp
    have he := h.listed n hn k listed
    have htails := h.tails n hn k listed
    rw [Tree.relabel]
    have hbelow : ∀ q ∈ (g.edge (back k)).tails.zip below,
        g.Derives q.1 (q.2.relabel back) ∧
          (q.2.relabel back).All fun e => ∃ m ∈ nodes, e ∈ own m := by
      intro q hq
      have ht := h.closed n hn _ he q.1 (List.of_mem_zip hq).1
      refine ih (place q.1, q.2) ?_ ht rfl
      rw [htails, List.zip_map_left, List.mem_map]
      exact ⟨q, hq, rfl⟩
    rw [htails, List.length_map] at length
    refine ⟨Derives.node (h.own_sub n hn _ he) (by rw [length, List.length_map]) ?_,
      Tree.All.node ⟨n, hn, he⟩ ?_⟩
    · intro q hq
      rw [List.zip_map_right, List.mem_map] at hq
      obtain ⟨q, hq, rfl⟩ := hq
      exact (hbelow q hq).1
    · intro y hy
      obtain ⟨x, hx, rfl⟩ := List.mem_map.mp hy
      obtain ⟨i, hi, rfl⟩ := List.getElem_of_mem hx
      have hi' : i < ((g.edge (back k)).tails.zip below).length := by
        rw [List.length_zip, length, Nat.min_self]
        exact hi
      have hmem := List.getElem_mem hi'
      rw [List.getElem_zip] at hmem
      exact (hbelow _ hmem).2

theorem relabel_injOn (h : Copied g g' nodes own place back) {n : NodeId} {x y : Tree}
    (hn : n ∈ nodes) (hx : g'.Derives (place n) x) (hy : g'.Derives (place n) y)
    (heq : x.relabel back = y.relabel back) : x = y := by
  generalize hp : place n = p at hx hy
  induction hx generalizing n y with
  | @node p k below listed length tails ih =>
    subst hp
    obtain ⟨k', below'⟩ := y
    rw [Tree.relabel, Tree.relabel, Tree.node.injEq] at heq
    obtain ⟨hk, hbelow⟩ := heq
    obtain ⟨listed', length', tails'⟩ := hy
    have hk := h.once n hn k listed k' listed' hk
    subst hk
    have htails := h.tails n hn k listed
    have he := h.listed n hn k listed
    congr 1
    refine List.ext_getElem (length.symm.trans length') fun i hi hi' => ?_
    have hit : i < (g.edge (back k)).tails.length := by
      rw [← List.length_map (f := place), ← htails, length]
      exact hi
    have hik : i < (g'.edge k).tails.length := length ▸ hi
    have htail : (g'.edge k).tails[i] = place (g.edge (back k)).tails[i] := by
      simp only [htails, List.getElem_map]
    have hz : i < ((g'.edge k).tails.zip below).length := by
      rw [List.length_zip, length, Nat.min_self]
      exact hi
    have hz' : i < ((g'.edge k).tails.zip below').length := by
      rw [List.length_zip, length', Nat.min_self]
      exact hi'
    have hmem := List.getElem_mem hz
    have hmem' := List.getElem_mem hz'
    rw [List.getElem_zip] at hmem hmem'
    have hsub := tails' _ hmem'
    refine ih _ hmem (h.closed n hn _ he _ (List.getElem_mem hit)) ?_ htail.symm hsub
    have hget := congrArg (fun l => l[i]?) hbelow
    simp only [List.getElem?_map, List.getElem?_eq_getElem hi, List.getElem?_eq_getElem hi',
      Option.map_some, Option.some.injEq] at hget
    exact hget

theorem exists_relabel (h : Copied g g' nodes own place back)
    (hown : ∀ n m, ∀ e ∈ (g.node n).edges, e ∈ own m → e ∈ own n) {n : NodeId} {x : Tree}
    (hn : n ∈ nodes) (hx : g.Derives n x) (hall : x.All fun e => ∃ m, e ∈ own m) :
    ∃ y, g'.Derives (place n) y ∧ y.relabel back = x := by
  induction hx with
  | @node n e below listed length tails ih =>
    obtain ⟨⟨m, hem⟩, hrest⟩ := hall
    have he := hown n m e listed hem
    obtain ⟨k, hk, rfl⟩ := h.copied n hn e he
    have htails := h.tails n hn k hk
    have hsub : ∀ q ∈ (g.edge (back k)).tails.zip below,
        ∃ y, g'.Derives (place q.1) y ∧ y.relabel back = q.2 := by
      intro q hq
      obtain ⟨ht, hb⟩ := List.of_mem_zip hq
      exact ih q hq (h.closed n hn _ he q.1 ht) (hrest q.2 hb)
    have hlist : List.Forall₂ (fun t x => ∃ y, g'.Derives (place t) y ∧ y.relabel back = x)
        (g.edge (back k)).tails below :=
      List.forall₂_iff_zip.mpr ⟨length, fun hq => hsub _ hq⟩
    obtain ⟨ys, hys, rfl⟩ := exists_of_forall₂ hlist
    refine ⟨.node k ys, derives_node_iff.mpr ⟨hk, ?_⟩, by rw [Tree.relabel]⟩
    rw [htails]
    exact hys

end Copied

/-! ## The graph that sorting makes -/

section

variable {goal : Nat}

def ownEdges (g : Hypergraph V) (d : Derivable) (n : NodeId) : List EdgeId :=
  (g.node n).edges.filter d.hasEdge

def original (shares : List (NodeId × List EdgeId)) (k : EdgeId) : EdgeId :=
  ((copies shares)[k]?.map (·.2)).getD 0

theorem original_eq {shares : List (NodeId × List EdgeId)} {k : EdgeId} {c : NodeId × EdgeId}
    (h : (copies shares)[k]? = some c) : original shares k = c.2 := by
  rw [original, h]
  rfl

theorem mem_copies {shares : List (NodeId × List EdgeId)} {c : NodeId × EdgeId} :
    c ∈ copies shares ↔ ∃ es, (c.1, es) ∈ shares ∧ c.2 ∈ es := by
  simp only [copies, List.mem_flatMap, List.mem_map]
  constructor
  · rintro ⟨share, hs, e, he, rfl⟩
    exact ⟨share.2, hs, he⟩
  · rintro ⟨es, hs, he⟩
    exact ⟨(c.1, es), hs, c.2, he, rfl⟩

theorem nodup_copies (hl : g.Owned) (d : Derivable) {nodes : List NodeId} (hnd : nodes.Nodup) :
    ((copies (nodes.map fun n => (n, g.ownEdges d n))).map (·.2)).Nodup := by
  have heq : (copies (nodes.map fun n => (n, g.ownEdges d n))).map (·.2) =
      nodes.flatMap (g.ownEdges d) := by
    simp only [copies, List.flatMap_map, List.map_flatMap, List.map_map, Function.comp_def,
      List.map_id_fun', id]
  rw [heq, List.nodup_flatMap]
  refine ⟨fun n _ => (hl.nodup n).filter _, hnd.imp fun {n m} hne => ?_⟩
  -- no two nodes list the same edge
  exact List.disjoint_left.mpr fun e he he' =>
    hne (hl.node_eq (List.mem_filter.mp he).1 (List.mem_filter.mp he').1)

def SameEdges (g g' : Hypergraph V) (back : EdgeId → EdgeId) : Prop :=
  ∀ n : Nat, ∀ k ∈ (g'.node n).edges, (g'.edge k).rule = (g.edge (back k)).rule ∧
    (g'.edge k).features = (g.edge (back k)).features ∧
    (g'.edge k).attributes = (g.edge (back k)).attributes

theorem sameEdges_empty (back : EdgeId → EdgeId) : SameEdges g empty back := by
  intro n k hk
  cases hk

section

variable {d : Derivable} {nodes : List NodeId}

theorem map_fst_shares :
    (nodes.map fun n => (n, g.ownEdges d n)).map (·.1) = nodes := by
  simp only [List.map_map, Function.comp_def, List.map_id_fun', id]

theorem mem_copies_shares {c : NodeId × EdgeId} :
    c ∈ copies (nodes.map fun n => (n, g.ownEdges d n)) ↔
      c.1 ∈ nodes ∧ c.2 ∈ g.ownEdges d c.1 := by
  rw [mem_copies]
  constructor
  · rintro ⟨es, hes, hc⟩
    obtain ⟨n, hn, heq⟩ := List.mem_map.mp hes
    cases heq
    exact ⟨hn, hc⟩
  · rintro ⟨hn, hc⟩
    exact ⟨_, List.mem_map.mpr ⟨c.1, hn, rfl⟩, hc⟩

variable (hnd : nodes.Nodup) (hlt : ∀ n ∈ nodes, (show Nat from n) < g.nodes.size)
include hnd hlt

theorem place_of_getElem? {i n : Nat} (hi : nodes[i]? = some n) :
    (g.placesOf (nodes.map fun n => (n, g.ownEdges d n))).getD n 0 = i := by
  rw [placesOf, map_fst_shares]
  exact getD_positions hnd hlt hi

theorem place_inj {n m : NodeId} (hn : n ∈ nodes) (hm : m ∈ nodes)
    (heq : (g.placesOf (nodes.map fun n => (n, g.ownEdges d n))).getD n 0 =
      (g.placesOf (nodes.map fun n => (n, g.ownEdges d n))).getD m 0) : n = m := by
  obtain ⟨i, hi⟩ := List.getElem?_of_mem hn
  obtain ⟨j, hj⟩ := List.getElem?_of_mem hm
  rw [place_of_getElem? hnd hlt hi, place_of_getElem? hnd hlt hj] at heq
  rw [heq, hj] at hi
  exact (Option.some.inj hi).symm

theorem mem_edges_renumber_iff (goal : NodeId) {n : NodeId} (hn : n ∈ nodes) (k : Nat) :
    let shares := nodes.map fun n => (n, g.ownEdges d n)
    k ∈ ((g.renumber shares goal).node ((g.placesOf shares).getD n 0)).edges ↔
      ∃ e, (copies shares)[k]? = some (n, e) := by
  intro shares
  obtain ⟨hl, hnodes, hedges, hedge⟩ := renumber_spec (g := g)
    ((map_fst_shares (g := g) (d := d)).symm ▸ hnd : (shares.map (·.1)).Nodup)
    ((map_fst_shares (g := g) (d := d)).symm ▸ hlt) goal
  rw [hl.listed]
  constructor
  · rintro ⟨hk, -, hhead⟩
    rw [hedges] at hk
    have hget := List.getElem?_eq_getElem hk
    rw [hedge k _ hget] at hhead
    have hc := mem_copies_shares.mp (List.getElem_mem hk)
    have heq := place_inj hnd hlt hc.1 hn (Option.some.inj hhead)
    exact ⟨(copies shares)[k].2, by rw [hget, ← heq]⟩
  · rintro ⟨e, hk⟩
    obtain ⟨i, hi⟩ := List.getElem?_of_mem hn
    refine ⟨by rw [hedges]; exact (List.getElem?_eq_some_iff.mp hk).1, ?_, by rw [hedge k _ hk]; rfl⟩
    rw [place_of_getElem? hnd hlt hi, hnodes, List.length_map]
    exact (List.getElem?_eq_some_iff.mp hi).1

end

theorem copied_renumber (hl : g.Owned) {d : Derivable} {nodes : List NodeId}
    (hnd : nodes.Nodup) (hlt : ∀ n ∈ nodes, (show Nat from n) < g.nodes.size)
    (hclosed : ∀ n ∈ nodes, ∀ e ∈ g.ownEdges d n, ∀ t ∈ (g.edge e).tails, t ∈ nodes) :
    let shares := nodes.map fun n => (n, g.ownEdges d n)
    let g' := g.renumber shares goal
    ∃ back, Copied g g' nodes (g.ownEdges d) (fun n => (g.placesOf shares).getD n 0) back ∧
      SameEdges g g' back := by
  intro shares g'
  obtain ⟨hl', -, hedges, hedge⟩ := renumber_spec (g := g)
    ((map_fst_shares (g := g) (d := d)).symm ▸ hnd : (shares.map (·.1)).Nodup)
    ((map_fst_shares (g := g) (d := d)).symm ▸ hlt) goal
  have hlisted : ∀ n ∈ nodes, ∀ k : Nat, k ∈ (g'.node ((g.placesOf shares).getD n 0)).edges ↔
      ∃ e, (copies shares)[k]? = some (n, e) := fun n hn k =>
    mem_edges_renumber_iff hnd hlt goal hn k
  refine ⟨original shares, ?_, fun n k hk => ?_⟩
  · refine ⟨fun n hn k hk => ?_, fun n hn e he => ?_, fun n hn k hk k' hk' heq => ?_,
      fun n hn k hk => ?_, fun n _ e he => (List.mem_filter.mp he).1, hclosed⟩
    · obtain ⟨e, hk⟩ := (hlisted n hn k).mp hk
      rw [original_eq hk]
      exact (mem_copies_shares.mp (List.mem_of_getElem? hk)).2
    · have hc : (n, e) ∈ copies shares := mem_copies_shares.mpr ⟨hn, he⟩
      obtain ⟨k, hk⟩ := List.getElem?_of_mem hc
      exact ⟨k, (hlisted n hn k).mpr ⟨e, hk⟩, original_eq hk⟩
    · obtain ⟨e, hk⟩ := (hlisted n hn k).mp hk
      obtain ⟨e', hk'⟩ := (hlisted n hn k').mp hk'
      rw [original_eq hk, original_eq hk'] at heq
      simp only at heq
      subst heq
      have hlen := (List.getElem?_eq_some_iff.mp hk).1
      rw [← List.length_map (·.2)] at hlen
      refine (List.getElem?_inj hlen (nodup_copies hl d hnd)).mp ?_
      rw [List.getElem?_map, List.getElem?_map, hk, hk']
    · obtain ⟨e, hk⟩ := (hlisted n hn k).mp hk
      rw [original_eq hk, hedge k _ hk]
      rfl
  · have hlt := ((hl'.listed n k).mp hk).1
    rw [hedges] at hlt
    have hget := List.getElem?_eq_getElem hlt
    rw [hedge k _ hget, original_eq hget]
    exact ⟨rfl, rfl, rfl⟩

theorem hasEdge_of_derives (hl : g.Owned) (hin : g.TailsInside) {s : Search} {d : Derivable}
    (hset : Settled g s.cyclic s.finished) (hd : Decided g s s.finished d) {n : NodeId} {x : Tree}
    (hn : n ∈ s.finished) (hx : g.Derives n x) (hall : x.All fun e => s.isCyclic e = false) :
    d.hasNode n = true ∧ x.All fun e => ∃ m, e ∈ g.ownEdges d m := by
  induction hx with
  | @node n e below listed length tails ih =>
    obtain ⟨hc, hrest⟩ := hall
    have hsub : ∀ q ∈ (g.edge e).tails.zip below, d.hasNode q.1 = true ∧
        q.2.All fun e => ∃ m, e ∈ g.ownEdges d m := by
      intro q hq
      obtain ⟨ht, hb⟩ := List.of_mem_zip hq
      exact ih q hq (mem_before_of_mem hl hin hset hn listed hc ht) (hrest q.2 hb)
    have htails : ∀ t ∈ (g.edge e).tails, d.hasNode t = true := by
      intro t ht
      obtain ⟨i, hi, rfl⟩ := List.getElem_of_mem ht
      have hz : i < ((g.edge e).tails.zip below).length := by
        rw [List.length_zip, ← length, Nat.min_self]
        exact hi
      have hmem := List.getElem_mem hz
      rw [List.getElem_zip] at hmem
      exact (hsub _ hmem).1
    have hedge : d.hasEdge e = true := (hd.edge e).mpr ⟨n, hn, listed, hc, htails⟩
    refine ⟨(hd.node n).mpr ⟨hn, e, listed, hedge⟩, Tree.All.node ?_ fun y hy => ?_⟩
    · exact ⟨n, List.mem_filter.mpr ⟨listed, hedge⟩⟩
    · obtain ⟨i, hi, rfl⟩ := List.getElem_of_mem hy
      have hz : i < ((g.edge e).tails.zip below).length := by
        rw [List.length_zip, length, Nat.min_self]
        exact hi
      have hmem := List.getElem_mem hz
      rw [List.getElem_zip] at hmem
      exact (hsub _ hmem).2

def closesCycle (g : Hypergraph V) (e : EdgeId) : Prop :=
  ∃ goal, g.goal = some goal ∧ (g.searchFrom goal).isCyclic e = true

def remaining (g : Hypergraph V) (goal : NodeId) : List NodeId :=
  let s := g.searchFrom goal
  s.order.filter fun n => (g.reached s (g.derivable s) goal).getD n false

def keptEdges (g : Hypergraph V) (goal : NodeId) (n : NodeId) : List EdgeId :=
  g.ownEdges (g.derivable (g.searchFrom goal)) n

theorem mem_remaining {n : NodeId} :
    n ∈ g.remaining goal ↔ n ∈ (g.searchFrom goal).finished ∧
      (g.reached (g.searchFrom goal) (g.derivable (g.searchFrom goal)) goal).getD n false =
        true := by
  rw [remaining, List.mem_filter, Search.order, List.mem_reverse]

theorem nodup_remaining (hlt : goal < g.nodes.size) : (g.remaining goal).Nodup :=
  (nodup_order hlt).filter _

theorem lt_of_mem_remaining (hlt : goal < g.nodes.size) {n : NodeId}
    (hn : n ∈ g.remaining goal) : (show Nat from n) < g.nodes.size := by
  have hs := searching_searchFrom hlt
  obtain ⟨hmark, -⟩ :=
    Array.getElem?_eq_some_iff.mp ((hs.finished n).mpr (mem_remaining.mp hn).1)
  rw [hs.size] at hmark
  exact hmark

theorem isCyclic_of_mem_keptEdges (hl : g.Owned) (hin : g.TailsInside)
    (hlt : goal < g.nodes.size) {n : NodeId} {e : EdgeId} (he : e ∈ g.keptEdges goal n) :
    (g.searchFrom goal).isCyclic e = false := by
  obtain ⟨-, hd⟩ := List.mem_filter.mp he
  obtain ⟨m, -, -, hc, -⟩ := ((decided_derivable hl hin hlt).edge e).mp hd
  exact hc

theorem goal_mem_remaining (hl : g.Owned) (hin : g.TailsInside) (hlt : goal < g.nodes.size) :
    goal ∈ g.remaining goal :=
  mem_remaining.mpr ⟨List.mem_reverse.mp (goal_mem_order hlt), (reached_closed hl hin hlt
    fun e he => (((decided_derivable hl hin hlt).edge e).mp he).elim fun _ h => h.2.2.1).1⟩

theorem tail_mem_remaining (hl : g.Owned) (hin : g.TailsInside) (hlt : goal < g.nodes.size) :
    ∀ n ∈ g.remaining goal, ∀ e ∈ g.keptEdges goal n, ∀ t ∈ (g.edge e).tails,
      t ∈ g.remaining goal := by
  intro n hn e he t ht
  have hc := isCyclic_of_mem_keptEdges hl hin hlt he
  obtain ⟨hn, hr⟩ := mem_remaining.mp hn
  obtain ⟨he, hde⟩ := List.mem_filter.mp he
  have hclosed := (reached_closed (d := g.derivable (g.searchFrom goal)) hl hin hlt
    fun e he => (((decided_derivable hl hin hlt).edge e).mp he).elim fun _ h => h.2.2.1).2
  exact mem_remaining.mpr
    ⟨mem_before_of_mem hl hin (searching_searchFrom hlt).settled hn he hc ht,
      hclosed n hn hr e he hde t ht⟩

theorem sorted_eq_renumber (hl : g.Owned) (hg : g.goal = some goal) (hlt : goal < g.nodes.size)
    (hnode : (g.derivable (g.searchFrom goal)).hasNode goal = true) :
    g.sorted = g.renumber ((g.remaining goal).map fun n => (n, g.keptEdges goal n)) goal := by
  have hallot := allot_eq hl (g.derivable (g.searchFrom goal)).edges (nodup_remaining hlt)
  simp only [sorted, hg, if_pos hnode]
  exact congrArg (g.renumber · goal) hallot

/-- With a derivation of the goal, the sorted graph is a copy of nodes that include the goal. -/
theorem copied_sorted (hl : g.Owned) (hin : g.TailsInside) (hg : g.goal = some goal)
    (hlt : goal < g.nodes.size)
    (hnode : (g.derivable (g.searchFrom goal)).hasNode goal = true) :
    ∃ nodes place back,
      Copied g g.sorted nodes (g.ownEdges (g.derivable (g.searchFrom goal))) place back ∧
        goal ∈ nodes ∧ g.sorted.goal = some (place goal) ∧ SameEdges g g.sorted back := by
  obtain ⟨back, hcopy, hsame⟩ := @copied_renumber V g goal hl _ _ (nodup_remaining hlt)
    (fun n hn => lt_of_mem_remaining hlt hn) (tail_mem_remaining hl hin hlt)
  rw [sorted_eq_renumber hl hg hlt hnode]
  exact ⟨_, _, back, hcopy, goal_mem_remaining hl hin hlt, by rw [renumber_eq]; rfl, hsame⟩

theorem sorted_eq_empty_of_none (hg : g.goal = none) : g.sorted = empty := by
  rw [sorted, hg]

theorem sorted_eq_empty (hg : g.goal = some goal)
    (hnode : ¬(g.derivable (g.searchFrom goal)).hasNode goal = true) : g.sorted = empty := by
  simp only [sorted, hg, if_neg hnode]

theorem goalTrees_empty : (empty : Hypergraph V).goalTrees = ∅ := by
  refine Set.eq_empty_iff_forall_notMem.mpr ?_
  rintro x ⟨n, hn, -⟩
  cases hn

theorem mem_goalTrees (hg : g.goal = some goal) {x : Tree} :
    x ∈ g.goalTrees ↔ g.Derives goal x := by
  constructor
  · rintro ⟨n, hn, hx⟩
    rw [hg] at hn
    cases hn
    exact hx
  · exact fun hx => ⟨goal, hg, hx⟩

theorem bijOn_empty {f : Tree → Tree} {A : Set Tree} (hA : ∀ x, x ∉ A) :
    Set.BijOn f (empty : Hypergraph V).goalTrees A := by
  rw [goalTrees_empty, Set.eq_empty_iff_forall_notMem.mpr hA]
  exact Set.bijOn_empty f

/-- The derivations of the sorted graph are those of the graph without edges that close a cycle. -/
theorem sorted_bijOn (hl : g.Owned) (hin : g.TailsInside)
    (hgoal : ∀ goal : Nat, g.goal = some goal → goal < g.nodes.size) :
    ∃ back, Set.BijOn (Tree.relabel back) g.sorted.goalTrees
        {x | x ∈ g.goalTrees ∧ x.All fun e => ¬g.closesCycle e} ∧
      SameEdges g g.sorted back := by
  cases hg : g.goal with
  | none =>
    rw [sorted_eq_empty_of_none hg]
    refine ⟨id, bijOn_empty ?_, sameEdges_empty _⟩
    rintro x ⟨⟨n, hn, -⟩, -⟩
    rw [hg] at hn
    cases hn
  | some goal =>
    have hlt := hgoal goal hg
    have hs := searching_searchFrom hlt
    have hd := decided_derivable hl hin hlt
    have hcycle : ∀ e, ¬g.closesCycle e ↔ (g.searchFrom goal).isCyclic e = false := by
      intro e
      rw [← Bool.not_eq_true, not_iff_not, closesCycle, hg]
      simp
    -- nothing that such a derivation uses is dropped on the way to the sorted graph
    have hkept : ∀ x ∈ g.goalTrees, (x.All fun e => ¬g.closesCycle e) →
        (g.derivable (g.searchFrom goal)).hasNode goal = true ∧
          x.All fun e => ∃ m, e ∈ g.ownEdges (g.derivable (g.searchFrom goal)) m :=
      fun x hx hall => hasEdge_of_derives hl hin hs.settled hd
        (List.mem_reverse.mp (goal_mem_order hlt)) ((mem_goalTrees hg).mp hx)
        (hall.imp fun e => (hcycle e).mp)
    by_cases hnode : (g.derivable (g.searchFrom goal)).hasNode goal = true
    · obtain ⟨nodes, place, back, hcopy, hgn, hgs, hsame⟩ :=
        copied_sorted hl hin hg hlt hnode
      refine ⟨back, ⟨?_, ?_, ?_⟩, hsame⟩
      · intro x hx
        obtain ⟨hx, hall⟩ := hcopy.derives_relabel hgn ((mem_goalTrees hgs).mp hx)
        refine ⟨(mem_goalTrees hg).mpr hx, hall.imp fun e he => (hcycle e).mpr ?_⟩
        obtain ⟨m, -, he⟩ := he
        obtain ⟨-, -, -, hc, -⟩ := (hd.edge e).mp (List.mem_filter.mp he).2
        exact hc
      · intro x hx y hy heq
        exact hcopy.relabel_injOn hgn ((mem_goalTrees hgs).mp hx) ((mem_goalTrees hgs).mp hy) heq
      · rintro x ⟨hx, hall⟩
        obtain ⟨y, hy, heq⟩ := hcopy.exists_relabel
          (fun n m e he hm => List.mem_filter.mpr ⟨he, (List.mem_filter.mp hm).2⟩) hgn
          ((mem_goalTrees hg).mp hx) (hkept x hx hall).2
        exact ⟨y, (mem_goalTrees hgs).mpr hy, heq⟩
    · rw [sorted_eq_empty hg hnode]
      refine ⟨id, bijOn_empty ?_, sameEdges_empty _⟩
      rintro x ⟨hx, hall⟩
      exact hnode (hkept x hx hall).1

end

/-! ## Graphs whose tails come first -/

theorem all_tree {P : EdgeId → Prop} (hP : ∀ e, P e) {n : NodeId} {x : Tree}
    (hx : g.Derives n x) : x.All P := by
  induction hx with
  | @node n e below listed length tails ih =>
    refine Tree.All.node (hP e) fun y hy => ?_
    obtain ⟨t, ht⟩ := exists_mem_zip length hy
    exact ih _ ht

theorem TailsBelow.not_closesCycle (h : g.TailsBelow)
    (hgoal : ∀ goal : Nat, g.goal = some goal → goal < g.nodes.size) (e : EdgeId) :
    ¬g.closesCycle e := by
  rintro ⟨goal, hg, hc⟩
  rw [not_isCyclic_of_descending (hgoal goal hg) fun n l hl => ?_] at hc
  · cases hc
  · obtain ⟨he, ht⟩ := mem_links.mp hl
    exact h n l.1 he l.2 ht

theorem TailsBelow.sorted_bijOn (h : g.TailsBelow) (hl : g.Owned) (hin : g.TailsInside)
    (hgoal : ∀ goal : Nat, g.goal = some goal → goal < g.nodes.size) :
    ∃ back, Set.BijOn (Tree.relabel back) g.sorted.goalTrees g.goalTrees ∧
      SameEdges g g.sorted back := by
  obtain ⟨back, hbij, hsame⟩ := Hypergraph.sorted_bijOn hl hin hgoal
  refine ⟨back, ?_, hsame⟩
  have heq : {x | x ∈ g.goalTrees ∧ x.All fun e => ¬g.closesCycle e} = g.goalTrees := by
    ext x
    refine ⟨fun hx => hx.1, fun hx => ⟨hx, ?_⟩⟩
    obtain ⟨n, -, hx⟩ := hx
    exact all_tree (h.not_closesCycle hgoal) hx
  rw [← heq]
  exact hbij

structure Descending (g : Hypergraph V) : Prop where
  tails : g.TailsBelow
  derived : ∀ n : Nat, n < g.nodes.size → ∃ e, e ∈ (g.node n).edges

namespace Descending

theorem exists_derives (h : g.Descending) (n : Nat) (hn : n < g.nodes.size) :
    ∃ x, g.Derives n x := by
  induction n using Nat.strongRecOn with
  | _ n ih =>
    obtain ⟨e, he⟩ := h.derived n hn
    have hsub : ∀ t ∈ (g.edge e).tails, ∃ x, g.Derives t x := by
      intro t ht
      have hlt := h.tails n e he t ht
      exact ih t hlt (Nat.lt_trans hlt hn)
    choose! f hf using hsub
    refine ⟨.node e ((g.edge e).tails.map f), derives_node_iff.mpr ⟨he, ?_⟩⟩
    rw [List.forall₂_map_right_iff, List.forall₂_same]
    exact hf

theorem isValid_sorted (h : g.Descending) (hl : g.Owned) (hin : g.TailsInside)
    (hgoal : ∀ goal : Nat, g.goal = some goal → goal < g.nodes.size) :
    g.sorted.isValid = g.isValid := by
  cases hg : g.goal with
  | none => rw [sorted_eq_empty_of_none hg, isValid, isValid, hg]; rfl
  | some goal =>
    obtain ⟨back, hbij, -⟩ := h.tails.sorted_bijOn hl hin hgoal
    obtain ⟨x, hx⟩ := h.exists_derives goal (hgoal goal hg)
    obtain ⟨y, ⟨n, hn, -⟩, -⟩ := hbij.surjOn ((mem_goalTrees hg).mpr hx)
    rw [isValid, isValid, hn, hg]
    rfl

end Descending

end ParseForest.Hypergraph
