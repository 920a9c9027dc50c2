import Mathlib.Algebra.BigOperators.Group.Finset.Basic
import Mathlib.Algebra.Order.BigOperators.Group.Finset
import ParseForest.Proofs.Hypergraph.Cycles
import ParseForest.Proofs.Loop
import ParseForest.Proofs.Tables.Sorting

/-!
# The search as a loop over positions

The search is a loop without a bound over a stack of frames. A frame is a node that is under way
with two positions: that of an edge which the node lists, and that of a tail of this edge. A turn
reads what the positions of the frame on top say, with checked accesses. It moves the frame on by
one position, or takes it away at the end of its node, and puts a new frame above when it enters a
tail.

The links that a frame has still to follow are those from its positions on. So a turn takes the
search over links one link further, or stays there when it passes the end of an edge. The turns that
were taken are counted by the finished nodes and by the positions of the frames. No node is counted
twice, as the nodes on the stack are those that are under way; so the turns that the nodes of the
graph take together are a bound, and the loop leaves.
-/

namespace ParseForest

variable {V : Type}

namespace Hypergraph

def edgeTurns (g : Hypergraph V) (e : EdgeId) : Nat := (g.edge e).tails.length + 1

def nodeTurns (g : Hypergraph V) (n : NodeId) : Nat := ((g.node n).edges.map g.edgeTurns).sum + 1

end Hypergraph

namespace Search

open ParseForest.Hypergraph

structure Frame where
  node : NodeId
  edge : Nat
  tail : Nat

structure Progress where
  stack : List Frame
  found : Search

def Progress.start (g : Hypergraph V) (goal : NodeId) : Progress :=
  ⟨[⟨goal, 0, 0⟩], Search.enter ⟨Array.replicate g.nodes.size .unvisited, [], []⟩ goal⟩

def Progress.meet (passed : List Frame) (s : Search) (e : EdgeId) (t : NodeId) : Mark → Progress
  | .unvisited => ⟨⟨t, 0, 0⟩ :: passed, s.enter t⟩
  | .underway => ⟨passed, s.noteCyclic e⟩
  | .finished => ⟨passed, s⟩

def Frame.step? (g : Hypergraph V) (f : Frame) (rest : List Frame) (s : Search) :
    Option Progress := do
  let node ← g.nodes[f.node]?
  if f.edge = node.edges.length then
    some ⟨rest, s.leave f.node⟩
  else
    let e ← node.edges[f.edge]?
    let edge ← g.edges[e]?
    if f.tail = edge.tails.length then
      some ⟨⟨f.node, f.edge + 1, 0⟩ :: rest, s⟩
    else
      let t ← edge.tails[f.tail]?
      let mark ← s.marks[t]?
      some (.meet (⟨f.node, f.edge, f.tail + 1⟩ :: rest) s e t mark)

/-- A turn of the loop. It leaves when no frame is left, or when a turn on a frame fails. -/
def turn (g : Hypergraph V) (p : Progress) : Progress ⊕ Option Search :=
  match p.stack with
  | [] => .inr (some p.found)
  | f :: rest => (f.step? g rest p.found).elim (.inr none) .inl

variable {g : Hypergraph V} {goal : Nat}

theorem turn_of_nil {p : Progress} (h : p.stack = []) : turn g p = .inr (some p.found) := by
  simp only [turn, h]

theorem turn_of_step? {f : Frame} {rest : List Frame} {s : Search} {q : Progress}
    (h : f.step? g rest s = some q) : turn g ⟨f :: rest, s⟩ = .inl q := by
  simp only [turn, h, Option.elim_some]

/-! ## Frames -/

namespace Frame

def left (g : Hypergraph V) (f : Frame) : List (EdgeId × NodeId) :=
  (((g.node f.node).edges.drop f.edge).flatMap fun e =>
    (g.edge e).tails.map fun t => (e, t)).drop f.tail

def turns (g : Hypergraph V) (f : Frame) : Nat :=
  (((g.node f.node).edges.take f.edge).map g.edgeTurns).sum + f.tail

structure Placed (g : Hypergraph V) (f : Frame) : Prop where
  node_lt : f.node < g.nodes.size
  edge_le : f.edge ≤ (g.node f.node).edges.length
  tail_le : ∀ e, (g.node f.node).edges[f.edge]? = some e → f.tail ≤ (g.edge e).tails.length
  tail_end : f.edge = (g.node f.node).edges.length → f.tail = 0

theorem turns_start (n : NodeId) : turns g ⟨n, 0, 0⟩ = 0 := rfl

theorem Placed.of_le {n : NodeId} (hn : (show Nat from n) < g.nodes.size) {i : Nat}
    (hi : i ≤ (g.node n).edges.length) : Placed g ⟨n, i, 0⟩ :=
  ⟨hn, hi, fun _ _ => Nat.zero_le _, fun _ => rfl⟩

variable {f : Frame} {e : EdgeId} {t : NodeId}

theorem drop_edges (he : (g.node f.node).edges[f.edge]? = some e) :
    (g.node f.node).edges.drop f.edge = e :: (g.node f.node).edges.drop (f.edge + 1) := by
  obtain ⟨hlt, rfl⟩ := List.getElem?_eq_some_iff.mp he
  exact List.drop_eq_getElem_cons hlt

theorem take_edges (he : (g.node f.node).edges[f.edge]? = some e) :
    (g.node f.node).edges.take (f.edge + 1) = (g.node f.node).edges.take f.edge ++ [e] := by
  obtain ⟨hlt, rfl⟩ := List.getElem?_eq_some_iff.mp he
  exact (List.take_append_getElem hlt).symm

theorem left_of_end (h : f.edge = (g.node f.node).edges.length) : f.left g = [] := by
  simp [left, h]

theorem turns_of_end (hf : f.Placed g) (h : f.edge = (g.node f.node).edges.length) :
    g.nodeTurns f.node = f.turns g + 1 := by
  rw [turns, nodeTurns, hf.tail_end h, h, List.take_length, Nat.add_zero]

theorem left_passEdge (he : (g.node f.node).edges[f.edge]? = some e)
    (ht : f.tail = (g.edge e).tails.length) : left g ⟨f.node, f.edge + 1, 0⟩ = f.left g := by
  rw [left, left, drop_edges he, List.flatMap_cons, ht, List.drop_left' (by simp)]
  rfl

theorem turns_passEdge (he : (g.node f.node).edges[f.edge]? = some e)
    (ht : f.tail = (g.edge e).tails.length) :
    turns g ⟨f.node, f.edge + 1, 0⟩ = f.turns g + 1 := by
  rw [turns, turns, take_edges he, ht]
  simp [edgeTurns, Nat.add_assoc]

theorem left_passTail (he : (g.node f.node).edges[f.edge]? = some e)
    (ht : (g.edge e).tails[f.tail]? = some t) :
    f.left g = (e, t) :: left g ⟨f.node, f.edge, f.tail + 1⟩ := by
  obtain ⟨hlt, rfl⟩ := List.getElem?_eq_some_iff.mp ht
  have hlt' : f.tail < ((g.edge e).tails.map fun t => (e, t)).length := by simpa using hlt
  rw [left, left, drop_edges he, List.flatMap_cons, List.drop_append_of_le_length hlt'.le,
    List.drop_append_of_le_length hlt', List.drop_eq_getElem_cons hlt', List.getElem_map]
  rfl

theorem Placed.passEdge (hf : f.Placed g) (he : (g.node f.node).edges[f.edge]? = some e) :
    Placed g ⟨f.node, f.edge + 1, 0⟩ :=
  .of_le hf.node_lt (List.getElem?_eq_some_iff.mp he).1

theorem Placed.passTail (hf : f.Placed g) (he : (g.node f.node).edges[f.edge]? = some e)
    (ht : (g.edge e).tails[f.tail]? = some t) : Placed g ⟨f.node, f.edge, f.tail + 1⟩ := by
  refine ⟨hf.node_lt, hf.edge_le, fun e' he' => ?_, fun h => ?_⟩
  · obtain rfl : e = e' := Option.some.inj (he.symm.trans he')
    exact (List.getElem?_eq_some_iff.mp ht).1
  · exact absurd h (List.getElem?_eq_some_iff.mp he).1.ne

theorem Placed.cases (hf : f.Placed g) :
    f.edge = (g.node f.node).edges.length ∨
      ∃ e, (g.node f.node).edges[f.edge]? = some e ∧
        (f.tail = (g.edge e).tails.length ∨ ∃ t, (g.edge e).tails[f.tail]? = some t) := by
  rcases hf.edge_le.eq_or_lt with hend | hlt
  · exact .inl hend
  · have he := List.getElem?_eq_getElem hlt
    refine .inr ⟨_, he, (hf.tail_le _ he).eq_or_lt.imp_right fun ht => ?_⟩
    exact ⟨_, List.getElem?_eq_getElem ht⟩

theorem Placed.turns_le (hf : f.Placed g) : f.turns g ≤ g.nodeTurns f.node := by
  rcases hf.cases with hend | ⟨e, he, -⟩
  · rw [turns_of_end hf hend]
    exact Nat.le_succ _
  · have htail := hf.tail_le e he
    have hsum : ((g.node f.node).edges.map g.edgeTurns).sum =
        (((g.node f.node).edges.take f.edge).map g.edgeTurns).sum +
          (((g.node f.node).edges.drop f.edge).map g.edgeTurns).sum := by
      rw [← List.sum_append, ← List.map_append, List.take_append_drop]
    rw [drop_edges he, List.map_cons, List.sum_cons, edgeTurns] at hsum
    rw [turns, nodeTurns, hsum]
    omega

/-! ### Turns on a frame -/

variable (rest : List Frame) (s : Search)

theorem step?_of_end (hf : f.Placed g) (h : f.edge = (g.node f.node).edges.length) :
    f.step? g rest s = some ⟨rest, s.leave f.node⟩ := by
  rw [step?, node_of_lt hf.node_lt, Option.bind_eq_bind, Option.bind_some, if_pos h]

variable (hedges : ∀ n e : Nat, e ∈ (g.node n).edges → e < g.edges.size) (hf : f.Placed g)
  (he : (g.node f.node).edges[f.edge]? = some e)

include hedges hf he

theorem step?_of_edge_end (ht : f.tail = (g.edge e).tails.length) :
    f.step? g rest s = some ⟨⟨f.node, f.edge + 1, 0⟩ :: rest, s⟩ := by
  have hne := (List.getElem?_eq_some_iff.mp he).1.ne
  have hedge := edge_of_lt (hedges f.node e (List.mem_of_getElem? he))
  simp only [step?, node_of_lt hf.node_lt, he, hedge, Option.bind_eq_bind, Option.bind_some,
    if_neg hne, if_pos ht]

theorem step?_of_tail (ht : (g.edge e).tails[f.tail]? = some t) {m : Mark}
    (hm : s.marks[t]? = some m) :
    f.step? g rest s = some (.meet (⟨f.node, f.edge, f.tail + 1⟩ :: rest) s e t m) := by
  have hne := (List.getElem?_eq_some_iff.mp he).1.ne
  have hne' := (List.getElem?_eq_some_iff.mp ht).1.ne
  have hedge := edge_of_lt (hedges f.node e (List.mem_of_getElem? he))
  simp only [step?, node_of_lt hf.node_lt, he, hedge, ht, hm, Option.bind_eq_bind,
    Option.bind_some, if_neg hne, if_neg hne']

end Frame

/-! ## The loop -/

namespace Progress

def links (g : Hypergraph V) (p : Progress) : SearchStack :=
  p.stack.map fun f => (f.node, f.left g)

def nodes (p : Progress) : List NodeId := p.found.finished ++ p.stack.map Frame.node

def turns (g : Hypergraph V) (p : Progress) : Nat :=
  (p.found.finished.map g.nodeTurns).sum + (p.stack.map (Frame.turns g)).sum

def unspent (g : Hypergraph V) (p : Progress) : Nat :=
  (∑ n ∈ Finset.range g.nodes.size, g.nodeTurns n) - p.turns g

structure Underway (g : Hypergraph V) (goal : Nat) (p : Progress) : Prop where
  searching : Searching g goal (p.links g) p.found
  follow_eq : g.follow (p.links g) p.found = g.searchFrom goal
  placed : ∀ f ∈ p.stack, f.Placed g

theorem map_fst_links {p : Progress} : (p.links g).map (·.1) = p.stack.map Frame.node := by
  rw [links, List.map_map]
  rfl

theorem underway_start (hgoal : goal < g.nodes.size) : Underway g goal (.start g goal) := by
  refine ⟨searching_start hgoal, rfl, fun f hf => ?_⟩
  rw [List.mem_singleton.mp hf]
  exact .of_le hgoal (Nat.zero_le _)

theorem turns_start : turns g (.start g goal) = 0 := rfl

section

variable {f : Frame} {rest : List Frame} {s : Search} {e : EdgeId} {t : NodeId}

theorem turns_finish (hf : f.Placed g) (hend : f.edge = (g.node f.node).edges.length) :
    turns g ⟨rest, s.leave f.node⟩ = turns g ⟨f :: rest, s⟩ + 1 := by
  simp only [turns, Search.leave, List.map_cons, List.sum_cons, Frame.turns_of_end hf hend]
  omega

theorem turns_passEdge (he : (g.node f.node).edges[f.edge]? = some e)
    (ht : f.tail = (g.edge e).tails.length) :
    turns g ⟨⟨f.node, f.edge + 1, 0⟩ :: rest, s⟩ = turns g ⟨f :: rest, s⟩ + 1 := by
  simp only [turns, List.map_cons, List.sum_cons, Frame.turns_passEdge he ht]
  omega

theorem turns_meet (m : Mark) : turns g (.meet (⟨f.node, f.edge, f.tail + 1⟩ :: rest) s e t m) =
    turns g ⟨f :: rest, s⟩ + 1 := by
  have hpass : turns g ⟨⟨f.node, f.edge, f.tail + 1⟩ :: rest, s⟩ = turns g ⟨f :: rest, s⟩ + 1 := by
    simp only [turns, Frame.turns, List.map_cons, List.sum_cons]
    omega
  rw [← hpass]
  cases m with
  | unvisited =>
    simp only [turns, Progress.meet, Search.enter, List.map_cons, List.sum_cons,
      Frame.turns_start, Nat.zero_add]
  | underway => rfl
  | finished => rfl

end

namespace Underway

variable {f : Frame} {rest : List Frame} {s : Search} {e : EdgeId} {t : NodeId}

theorem finish (h : Underway g goal ⟨f :: rest, s⟩)
    (hend : f.edge = (g.node f.node).edges.length) : Underway g goal ⟨rest, s.leave f.node⟩ := by
  obtain ⟨hs, heq, hplaced⟩ := h
  simp only [links, List.map_cons, Frame.left_of_end hend] at hs heq
  rw [follow] at heq
  exact ⟨hs.leave, heq, fun f' hf' => hplaced f' (.tail f hf')⟩

theorem passEdge (h : Underway g goal ⟨f :: rest, s⟩)
    (he : (g.node f.node).edges[f.edge]? = some e) (ht : f.tail = (g.edge e).tails.length) :
    Underway g goal ⟨⟨f.node, f.edge + 1, 0⟩ :: rest, s⟩ := by
  obtain ⟨hs, heq, hplaced⟩ := h
  -- the links that are left stay the same
  have hlinks : links g ⟨⟨f.node, f.edge + 1, 0⟩ :: rest, s⟩ = links g ⟨f :: rest, s⟩ := by
    simp only [links, List.map_cons, Frame.left_passEdge he ht]
  refine ⟨hlinks ▸ hs, hlinks ▸ heq, List.forall_mem_cons.mpr ⟨?_, fun f' hf' => ?_⟩⟩
  · exact (hplaced f List.mem_cons_self).passEdge he
  · exact hplaced f' (.tail f hf')

theorem meet (h : Underway g goal ⟨f :: rest, s⟩)
    (he : (g.node f.node).edges[f.edge]? = some e) (ht : (g.edge e).tails[f.tail]? = some t)
    (hlt : t < g.nodes.size) {m : Mark} (hm : s.marks[t]? = some m) :
    Underway g goal (.meet (⟨f.node, f.edge, f.tail + 1⟩ :: rest) s e t m) := by
  obtain ⟨hs, heq, hplaced⟩ := h
  have hpassed : ∀ f' ∈ ⟨f.node, f.edge, f.tail + 1⟩ :: rest, Frame.Placed g f' :=
    List.forall_mem_cons.mpr
      ⟨(hplaced f List.mem_cons_self).passTail he ht, fun f' hf' => hplaced f' (.tail f hf')⟩
  simp only [links, List.map_cons, Frame.left_passTail he ht] at hs heq
  rw [follow_link, hm] at heq
  cases m with
  | unvisited =>
    have hentered := List.forall_mem_cons.mpr ⟨Frame.Placed.of_le hlt (Nat.zero_le _), hpassed⟩
    exact ⟨hs.enter hm, heq, hentered⟩
  | underway => exact ⟨hs.noteCyclic hm, heq, hpassed⟩
  | finished => exact ⟨hs.pass (.inl hm), heq, hpassed⟩

section

variable (hedges : ∀ n e : Nat, e ∈ (g.node n).edges → e < g.edges.size) (hin : g.TailsInside)

include hedges hin

theorem step {p : Progress} (h : Underway g goal p) :
    p.stack = [] ∨ ∃ q, turn g p = .inl q ∧ Underway g goal q ∧ q.turns g = p.turns g + 1 := by
  obtain ⟨stack, s⟩ := p
  cases stack with
  | nil => exact .inl rfl
  | cons f rest =>
    right
    have hf := h.placed f List.mem_cons_self
    rcases hf.cases with hend | ⟨e, he, ht | ⟨t, ht⟩⟩
    · exact ⟨_, turn_of_step? (Frame.step?_of_end rest s hf hend), h.finish hend,
        turns_finish hf hend⟩
    · exact ⟨_, turn_of_step? (Frame.step?_of_edge_end rest s hedges hf he ht), h.passEdge he ht,
        turns_passEdge he ht⟩
    · have hlt := hin e (hedges _ e (List.mem_of_getElem? he)) t (List.mem_of_getElem? ht)
      have hm : s.marks[t]? = some _ := Array.getElem?_eq_getElem (h.searching.size ▸ hlt)
      exact ⟨_, turn_of_step? (Frame.step?_of_tail rest s hedges hf he ht hm),
        h.meet he ht hlt hm, turns_meet _⟩

theorem next {p q : Progress} (h : Underway g goal p) (hturn : turn g p = .inl q) :
    Underway g goal q ∧ q.turns g = p.turns g + 1 := by
  rcases h.step hedges hin with hstack | ⟨q', hq, hkept⟩
  · rw [turn_of_nil hstack] at hturn
    cases hturn
  · cases Sum.inl.inj (hq.symm.trans hturn)
    exact hkept

theorem last {p : Progress} {r : Option Search} (h : Underway g goal p)
    (hturn : turn g p = .inr r) : r = some (g.searchFrom goal) ∧
      p.turns g = ((g.searchFrom goal).order.map g.nodeTurns).sum := by
  rcases h.step hedges hin with hstack | ⟨q, hq, -⟩
  · have hfound := h.follow_eq
    rw [links, hstack, List.map_nil, follow] at hfound
    rw [turn_of_nil hstack, hfound] at hturn
    refine ⟨(Sum.inr.inj hturn).symm, ?_⟩
    rw [turns, hstack, hfound, order, List.map_reverse, List.sum_reverse]
    rfl
  · rw [hq] at hturn
    cases hturn

theorem eq_of_leaves {p : Progress} (h : Underway g goal p) {n : Nat} {r : Option Search}
    (hrun : Leaves (turn g) n p r) : r = some (g.searchFrom goal) ∧
      n + p.turns g = ((g.searchFrom goal).order.map g.nodeTurns).sum + 1 := by
  induction hrun with
  | last hturn =>
    obtain ⟨hr, hturns⟩ := h.last hedges hin hturn
    exact ⟨hr, by omega⟩
  | next hturn _ ih =>
    obtain ⟨hkept, hone⟩ := h.next hedges hin hturn
    obtain ⟨hr, hn⟩ := ih hkept
    exact ⟨hr, by omega⟩

end

theorem nodup_nodes {p : Progress} (h : Underway g goal p) : p.nodes.Nodup := by
  have hdistinct := h.searching.distinct
  rw [map_fst_links] at hdistinct
  refine List.nodup_append.mpr ⟨h.searching.once, hdistinct, fun n hn m hm heq => ?_⟩
  rw [← map_fst_links (g := g), ← h.searching.underway, ← heq, (h.searching.finished n).mpr hn] at hm
  cases hm

theorem lt_of_mem_nodes {p : Progress} (h : Underway g goal p) {n : NodeId} (hn : n ∈ p.nodes) :
    (show Nat from n) < g.nodes.size := by
  rw [← h.searching.size]
  rcases List.mem_append.mp hn with hn | hn
  · exact (Array.getElem?_eq_some_iff.mp ((h.searching.finished n).mpr hn)).1
  · rw [← map_fst_links (g := g), ← h.searching.underway] at hn
    exact (Array.getElem?_eq_some_iff.mp hn).1

theorem turns_le {p : Progress} (h : Underway g goal p) :
    p.turns g ≤ ∑ n ∈ Finset.range g.nodes.size, g.nodeTurns n := by
  have hinside : p.nodes.toFinset ⊆ Finset.range g.nodes.size := fun n hn =>
    Finset.mem_range.mpr (h.lt_of_mem_nodes (List.mem_toFinset.mp hn))
  calc p.turns g
      ≤ (p.found.finished.map g.nodeTurns).sum + (p.stack.map fun f => g.nodeTurns f.node).sum :=
        Nat.add_le_add_left (List.sum_le_sum fun f hf => (h.placed f hf).turns_le) _
    _ = (p.nodes.map g.nodeTurns).sum := by
        rw [nodes, List.map_append, List.sum_append, List.map_map]
        rfl
    _ = ∑ n ∈ p.nodes.toFinset, g.nodeTurns n := (List.sum_toFinset _ h.nodup_nodes).symm
    _ ≤ ∑ n ∈ Finset.range g.nodes.size, g.nodeTurns n := Finset.sum_le_sum_of_subset hinside

theorem unspent_lt {p q : Progress} (hq : Underway g goal q) (hone : q.turns g = p.turns g + 1) :
    q.unspent g < p.unspent g := by
  have hle := hq.turns_le
  rw [unspent, unspent]
  omega

end Underway

theorem leaves_start (hedges : ∀ n e : Nat, e ∈ (g.node n).edges → e < g.edges.size)
    (hin : g.TailsInside) (hgoal : goal < g.nodes.size) :
    Leaves (turn g) (((g.searchFrom goal).order.map g.nodeTurns).sum + 1) (.start g goal)
      (some (g.searchFrom goal)) := by
  have hstart := underway_start hgoal
  obtain ⟨n, r, hrun, -⟩ := exists_leaves (turn g) (fun p q h hturn =>
    (h.next hedges hin hturn).imp_right (h.next hedges hin hturn).1.unspent_lt) hstart
  obtain ⟨rfl, hn⟩ := hstart.eq_of_leaves hedges hin hrun
  rw [turns_start, Nat.add_zero] at hn
  exact hn ▸ hrun

end Progress

/-- In a graph whose numbers are in range, with cycles or without, the loop leaves with the search
from the goal, after a turn for each position at the nodes that the goal leads to and the one that
leaves. It has finished these nodes, each of them once, and no others. Where an edge of such a node
was not noted as closing a cycle, all of its tails were finished before the node; and an edge that
was noted lies on a cycle. -/
theorem turn_leaves_in_order (hedges : ∀ n e : Nat, e ∈ (g.node n).edges → e < g.edges.size)
    (hin : g.TailsInside) (hgoal : goal < g.nodes.size) :
    (∀ n last, Leaves (turn g) n (.start g goal) last ↔
      n = ((g.searchFrom goal).order.map g.nodeTurns).sum + 1 ∧
        last = some (g.searchFrom goal)) ∧
      (g.searchFrom goal).order.Nodup ∧
      (∀ n : Nat, n ∈ (g.searchFrom goal).order ↔ g.Reaches goal n) ∧
      (∀ n ∈ (g.searchFrom goal).order, ∀ e ∈ (g.node n).edges,
        (g.searchFrom goal).isCyclic e = false → ∀ t ∈ (g.edge e).tails,
          (g.searchFrom goal).order.idxOf t < (g.searchFrom goal).order.idxOf n) ∧
      ∀ e, (g.searchFrom goal).isCyclic e = true → g.OnCycle e := by
  have htails := hin.link_lt hedges
  refine ⟨fun n last => (Progress.leaves_start hedges hin hgoal).iff, nodup_order hgoal,
    fun n => mem_order_iff hgoal htails, fun n hn e he hc t ht => ?_, fun e he => ?_⟩
  · obtain ⟨before, after, horder, htb⟩ :=
      exists_before hgoal htails hn (mem_links.mpr ⟨he, ht⟩) hc
    have hnodup := nodup_order hgoal
    rw [horder] at hnodup ⊢
    have hnb : n ∉ before := fun hmem =>
      (List.nodup_append.mp hnodup).2.2 n hmem n List.mem_cons_self rfl
    rw [List.idxOf_append_of_mem htb, List.idxOf_append_of_notMem hnb, List.idxOf_cons_self,
      Nat.add_zero]
    exact List.idxOf_lt_length_of_mem htb
  · rw [isCyclic, List.contains_iff_mem] at he
    exact (searching_searchFrom hgoal).cyclic e he

def knotted : Hypergraph Nat :=
  let nodes := empty.addNode.addNode.addNode.addNode
  let first := (nodes.extend 0 [] none NameMap.empty NameMap.empty).extend 0 [1] none NameMap.empty
    NameMap.empty
  let second := first.extend 1 [0] none NameMap.empty NameMap.empty
  let top := (second.extend 2 [0, 1, 0] none NameMap.empty NameMap.empty).connect 3 1
  (top.extend 3 [3] none NameMap.empty NameMap.empty).withGoal (some 2)

theorem turn_leaves_in_order_of_knotted :
    ((∀ n e : Nat, e ∈ (knotted.node n).edges → e < knotted.edges.size) ∧ knotted.TailsInside ∧
      2 < knotted.nodes.size) ∧
      Leaves (turn knotted) 17 (.start knotted 2) (some (knotted.searchFrom 2)) ∧
      (knotted.searchFrom 2).order = [1, 0, 2] ∧ ¬knotted.Reaches 2 3 ∧
      (knotted.searchFrom 2).isCyclic 1 = false ∧
      (knotted.searchFrom 2).order.idxOf 1 < (knotted.searchFrom 2).order.idxOf 0 ∧
      knotted.OnCycle 2 := by
  have hedges : ∀ n e : Nat, e ∈ (knotted.node n).edges → e < knotted.edges.size := by
    intro n e he
    have hall : ∀ n < 4, ∀ e ∈ (knotted.node n).edges, (show Nat from e) < 5 := by decide
    by_cases hn : n < 4
    · exact hall n hn e he
    · rw [node_eq_of_le (g := knotted) (Nat.not_lt.mp hn)] at he
      cases he
  have hin : knotted.TailsInside := by
    have hall : ∀ e < 5, ∀ t ∈ (knotted.edge e).tails, t < 4 := by decide
    exact hall
  have hgoal : 2 < knotted.nodes.size := by decide
  have horder : (knotted.searchFrom 2).order = [1, 0, 2] := by cbv
  have hfree : (knotted.searchFrom 2).isCyclic 1 = false := by cbv
  have hback : (knotted.searchFrom 2).isCyclic 2 = true := by cbv
  obtain ⟨hleaves, -, hreached, hbefore, hcycle⟩ := turn_leaves_in_order hedges hin hgoal
  refine ⟨⟨hedges, hin, hgoal⟩, (hleaves _ _).mpr ⟨?_, rfl⟩, horder, ?_, hfree, ?_, hcycle 2 hback⟩
  · rw [horder]
    decide
  · rw [← hreached, horder]
    decide
  · exact hbefore 0 (by rw [horder]; decide) 1 (by decide) hfree 1 (by decide)

end Search

end ParseForest
