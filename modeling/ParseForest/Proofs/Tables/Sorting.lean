import ParseForest.Proofs.Hypergraph.Merging
import ParseForest.Proofs.Hypergraph.WellFormed
import ParseForest.Proofs.Tables.Access

/-!
# Sorting with tables

Sorting keeps marks of nodes and of edges in tables as long as the graph has nodes and edges. Here
it is done with checked accesses: `sortedAt?` fails where the search from the goal meets a number
that is no node or no edge. In a graph whose nodes list edges and whose edges have nodes as tails
it never does, and gives the sorted graph.
-/

namespace ParseForest.Hypergraph

variable {V : Type}

def connect? (g : Hypergraph V) (e : EdgeId) (head : NodeId) : Option (Hypergraph V) :=
  if g.canConnect e head then some (g.connect e head) else none

theorem connect?_eq_some {g : Hypergraph V} {e head : Nat} (he : e < g.edges.size)
    (hhead : head < g.nodes.size) : g.connect? e head = some (g.connect e head) :=
  if_pos (by simp [canConnect, hasEdge, hasNode, he, hhead])

/-! ## The search -/

def linksAt? (g : Hypergraph V) (n : NodeId) : Option (List (EdgeId × NodeId)) := do
  let node ← g.nodes[n]?
  gather (fun e => do
    let edge ← g.edges[e]?
    return edge.tails.map fun t => (e, t)) node.edges

def followAt? (g : Hypergraph V) (stack : SearchStack) (s : Search) : Option Search :=
  match stack with
  | [] => some s
  | (n, []) :: rest => if n < s.marks.size then g.followAt? rest (s.leave n) else none
  | (n, (e, t) :: links) :: rest =>
    match _h : s.marks[t]? with
    | none => none
    | some .unvisited =>
      match g.linksAt? t with
      | none => none
      | some below => g.followAt? ((t, below) :: (n, links) :: rest) (s.enter t)
    | some .underway =>
      if e < g.edges.size then g.followAt? ((n, links) :: rest) (s.noteCyclic e) else none
    | some .finished => g.followAt? ((n, links) :: rest) s
termination_by (s.unvisited, stack.weight)
decreasing_by
  · rcases Nat.lt_or_eq_of_le (s.unvisited_leave_le n) with h | h
    · exact Prod.Lex.left _ _ h
    · rw [h]
      exact Prod.Lex.right _ (by simp [SearchStack.weight])
  · exact Prod.Lex.left _ _ (s.unvisited_enter_lt ‹_›)
  all_goals exact Prod.Lex.right _ (by simp [SearchStack.weight])

def searchFromAt? (g : Hypergraph V) (n : NodeId) : Option Search := do
  let marks ← setAt? (Array.replicate g.nodes.size Mark.unvisited) n .underway
  let links ← g.linksAt? n
  g.followAt? [(n, links)] ⟨marks, [], []⟩

/-! ## What is kept -/

def deriveEdgeAt? (g : Hypergraph V) (s : Search) (n : NodeId) (d : Derivable) (e : EdgeId) :
    Option Derivable := do
  let edge ← g.edges[e]?
  let below ← edge.tails.mapM fun t => d.nodes[t]?
  if !s.isCyclic e && below.all id then
    let nodes ← setAt? d.nodes n true
    let edges ← setAt? d.edges e true
    return ⟨nodes, edges⟩
  else return d

def derivableAt? (g : Hypergraph V) (s : Search) : Option Derivable :=
  s.order.foldlM (fun d n => do
    let node ← g.nodes[n]?
    node.edges.foldlM (g.deriveEdgeAt? s n) d)
    ⟨Array.replicate g.nodes.size false, Array.replicate g.edges.size false⟩

def reachTailsAt? (g : Hypergraph V) (d : Derivable) (reached : Array Bool) (n : NodeId) :
    Option (Array Bool) := do
  let here ← reached[n]?
  if here then
    let node ← g.nodes[n]?
    node.edges.foldlM (fun r e => do
      let kept ← d.edges[e]?
      if kept then
        let edge ← g.edges[e]?
        edge.tails.foldlM (fun r t => setAt? r t true) r
      else return r) reached
  else return reached

def reachedAt? (g : Hypergraph V) (s : Search) (d : Derivable) (goal : NodeId) :
    Option (Array Bool) := do
  let start ← setAt? (Array.replicate g.nodes.size false) goal true
  s.finished.foldlM (g.reachTailsAt? d) start

/-! ## Renumbering -/

def takeEdgeAt? (st : List EdgeId × Array Bool) (e : EdgeId) :
    Option (List EdgeId × Array Bool) := do
  let free ← st.2[e]?
  if free then
    let left ← setAt? st.2 e false
    return (e :: st.1, left)
  else return st

def allotAt? (g : Hypergraph V) (free : Array Bool) (nodes : List NodeId) :
    Option (List (NodeId × List EdgeId)) := do
  let (shares, _) ← nodes.foldlM (fun (shares, free) n => do
    let node ← g.nodes[n]?
    let (own, free) ← node.edges.foldlM takeEdgeAt? ([], free)
    return (shares.push (n, own.reverse), free)) (#[], free)
  return shares.toList

def positionsAt? (size : Nat) (nodes : List NodeId) : Option (Array Nat) :=
  nodes.zipIdx.foldlM (fun places (n, i) => setAt? places n i) (Array.replicate size 0)

def addCopyAt? (h : Hypergraph V) (places : Array Nat) (n : NodeId) (edge : Edge V) :
    Option (Hypergraph V) := do
  let tails ← edge.tails.mapM fun t => places[t]?
  let head ← places[n]?
  (h.addEdge tails edge.rule edge.features edge.attributes).connect? h.edges.size head

def renumberAt? (g : Hypergraph V) (shares : List (NodeId × List EdgeId)) (goal : NodeId) :
    Option (Hypergraph V) := do
  let places ← positionsAt? g.nodes.size (shares.map (·.1))
  let copied ← shares.foldlM (fun h share => share.2.foldlM (fun h e => do
    let edge ← g.edges[e]?
    h.addCopyAt? places share.1 edge) h) (Nat.repeat addNode shares.length empty)
  let goal ← places[goal]?
  return copied.withGoal (some goal)

def keptAt? (g : Hypergraph V) (s : Search) (d : Derivable) (goal : NodeId) :
    Option (Hypergraph V) := do
  let reached ← g.reachedAt? s d goal
  let nodes ← gather (fun n => do
    let here ← reached[n]?
    return if here then [n] else []) s.order
  let shares ← g.allotAt? d.edges nodes
  g.renumberAt? shares goal

def sortedAt? (g : Hypergraph V) : Option (Hypergraph V) :=
  match g.goal with
  | none => some empty
  | some goal => do
    let s ← g.searchFromAt? goal
    let d ← g.derivableAt? s
    let derived ← d.nodes[goal]?
    if derived then g.keptAt? s d goal else return empty

/-! ## No access fails -/

theorem node_of_lt {g : Hypergraph V} {n : Nat} (h : n < g.nodes.size) :
    g.nodes[n]? = some (g.node n) := getElem?_eq_some_getD h _

theorem edge_of_lt {g : Hypergraph V} {e : Nat} (h : e < g.edges.size) :
    g.edges[e]? = some (g.edge e) := getElem?_eq_some_getD h _

section Search

variable {g : Hypergraph V} (hl : g.Owned)

include hl

theorem linksAt?_eq {n : Nat} (hn : n < g.nodes.size) : g.linksAt? n = some (g.links n) := by
  rw [linksAt?, node_of_lt hn]
  exact gather_eq_some fun e he => by rw [edge_of_lt (hl.owned n e he).1]; rfl

variable (hin : g.TailsInside)

include hin

def Ready (g : Hypergraph V) (stack : SearchStack) : Prop :=
  ∀ f ∈ stack, (f.1 : Nat) < g.nodes.size ∧
    ∀ l ∈ f.2, (l.1 : Nat) < g.edges.size ∧ (l.2 : Nat) < g.nodes.size

theorem ready_links {n : Nat} (hn : n < g.nodes.size) : Ready g [(n, g.links n)] := by
  intro f hf
  rw [List.mem_singleton.mp hf]
  refine ⟨hn, fun l hlink => ?_⟩
  obtain ⟨he, ht⟩ := mem_links.mp hlink
  have hlt := (hl.owned n l.1 he).1
  exact ⟨hlt, hin l.1 hlt l.2 ht⟩

omit hl hin in
theorem Ready.pass {n : NodeId} {l : EdgeId × NodeId} {links : List (EdgeId × NodeId)}
    {rest : SearchStack} (h : Ready g ((n, l :: links) :: rest)) :
    Ready g ((n, links) :: rest) := by
  intro f hf
  rcases List.mem_cons.mp hf with rfl | hf
  · have hn := h _ List.mem_cons_self
    exact ⟨hn.1, fun l' hl' => hn.2 l' (List.mem_cons_of_mem _ hl')⟩
  · exact h f (List.mem_cons_of_mem _ hf)

theorem followAt?_eq (stack : SearchStack) (s : Search) (h : Ready g stack)
    (hsize : s.marks.size = g.nodes.size) : g.followAt? stack s = some (g.follow stack s) := by
  fun_induction follow g stack s with
  | case1 s => rw [followAt?]
  | case2 s n rest ih =>
    have hn := (h _ List.mem_cons_self).1
    rw [followAt?, if_pos (by rw [hsize]; exact hn)]
    exact ih (fun f hf => h f (List.mem_cons_of_mem _ hf)) (by simpa [Search.leave] using hsize)
  | case3 s n e t links rest ht ih =>
    have htail : (t : Nat) < g.nodes.size := ((h _ List.mem_cons_self).2 _ List.mem_cons_self).2
    have hready : Ready g ((t, g.links t) :: (n, links) :: rest) := by
      intro f hf
      rcases List.mem_cons.mp hf with rfl | hf
      · exact ready_links hl hin htail _ List.mem_cons_self
      · exact h.pass f hf
    rw [followAt?]
    split <;> rename_i ht' <;> rw [ht] at ht' <;> cases ht'
    rw [linksAt?_eq hl htail]
    exact ih hready (by simpa [Search.enter] using hsize)
  | case4 s n e t links rest ht ih =>
    have hedge : (e : Nat) < g.edges.size := ((h _ List.mem_cons_self).2 _ List.mem_cons_self).1
    rw [followAt?]
    split <;> rename_i ht' <;> rw [ht] at ht' <;> cases ht'
    rw [if_pos hedge]
    exact ih h.pass hsize
  | case5 s n e t links rest ht ih =>
    rw [followAt?]
    split <;> rename_i ht' <;> rw [ht] at ht' <;> cases ht'
    exact ih h.pass hsize
  | case6 s n e t links rest ht ih =>
    have htail : (t : Nat) < g.nodes.size := ((h _ List.mem_cons_self).2 _ List.mem_cons_self).2
    rw [Array.getElem?_eq_none_iff, hsize] at ht
    exact absurd htail (Nat.not_lt.mpr ht)

theorem searchFromAt?_eq {n : Nat} (hn : n < g.nodes.size) :
    g.searchFromAt? n = some (g.searchFrom n) := by
  rw [searchFromAt?, setAt?_eq_some (by simpa using hn), linksAt?_eq hl hn]
  exact followAt?_eq hl hin _ _ (ready_links hl hin hn) (by simp)

/-! ### Kept nodes and edges -/

omit hl hin in
def Sized (g : Hypergraph V) (d : Derivable) : Prop :=
  d.nodes.size = g.nodes.size ∧ d.edges.size = g.edges.size

theorem deriveEdgeAt?_eq {s : Search} {n e : Nat} (hn : n < g.nodes.size)
    (he : e ∈ (g.node n).edges) {d : Derivable} (hd : Sized g d) :
    g.deriveEdgeAt? s n d e = some (g.deriveEdge s n d e) ∧ Sized g (g.deriveEdge s n d e) := by
  have hlt := (hl.owned n e he).1
  have hbelow : (g.edge e).tails.mapM (fun t => d.nodes[t]?) =
      some ((g.edge e).tails.map d.hasNode) :=
    mapM_eq_some fun t ht => getElem?_eq_some_getD (by rw [hd.1]; exact hin e hlt t ht) _
  unfold deriveEdgeAt? deriveEdge
  rw [edge_of_lt hlt]
  simp only [Option.bind_eq_bind, Option.bind_some, hbelow, List.all_map, Function.id_comp]
  split
  · rw [setAt?_eq_some (by rw [hd.1]; exact hn), setAt?_eq_some (by rw [hd.2]; exact hlt)]
    exact ⟨rfl, by simpa [Sized, Derivable.note] using hd⟩
  · exact ⟨rfl, hd⟩

theorem derivableAt?_eq {s : Search} (hs : ∀ n ∈ s.order, (n : Nat) < g.nodes.size) :
    g.derivableAt? s = some (g.derivable s) ∧ Sized g (g.derivable s) := by
  refine foldlM_eq_some (I := Sized g) (fun d n hn hd => ?_) (by simp [Sized])
  rw [node_of_lt (hs n hn)]
  exact foldlM_eq_some (fun d e he hd => deriveEdgeAt?_eq hl hin (hs n hn) he hd) hd

theorem reachTailsAt?_eq {d : Derivable} (hd : Sized g d) {n : Nat} (hn : n < g.nodes.size)
    {reached : Array Bool} (hr : reached.size = g.nodes.size) :
    g.reachTailsAt? d reached n = some (g.reachTails d reached n) ∧
      (g.reachTails d reached n).size = g.nodes.size := by
  unfold reachTailsAt? reachTails
  rw [getElem?_eq_some_getD (by rw [hr]; exact hn) false]
  simp only [Option.bind_eq_bind, Option.bind_some]
  split
  · rw [node_of_lt hn, List.foldl_filter]
    refine foldlM_eq_some (I := fun r : Array Bool => r.size = g.nodes.size)
      (fun r e he hr => ?_) hr
    have hlt := (hl.owned n e he).1
    rw [getElem?_eq_some_getD (by rw [hd.2]; exact hlt) false]
    simp only [Option.bind_some, Derivable.hasEdge]
    by_cases hkept : d.edges.getD e false = true
    · simp only [hkept, if_true, edge_of_lt hlt]
      refine foldlM_eq_some (I := fun r : Array Bool => r.size = g.nodes.size)
        (fun r t ht hr => ⟨setAt?_eq_some ?_ _, by simpa using hr⟩) hr
      rw [hr]
      exact hin e hlt t ht
    · simp only [hkept]
      exact ⟨rfl, hr⟩
  · exact ⟨rfl, hr⟩

theorem reachedAt?_eq {s : Search} (hs : ∀ n ∈ s.finished, (n : Nat) < g.nodes.size)
    {d : Derivable} (hd : Sized g d) {goal : Nat} (hgoal : goal < g.nodes.size) :
    g.reachedAt? s d goal = some (g.reached s d goal) ∧
      (g.reached s d goal).size = g.nodes.size := by
  rw [reachedAt?, setAt?_eq_some (by simpa using hgoal)]
  exact foldlM_eq_some (I := fun r : Array Bool => r.size = g.nodes.size)
    (fun r n hn hr => reachTailsAt?_eq hl hin hd (hs n hn) hr) (by simp)

omit hin in
theorem allotAt?_eq {free : Array Bool} (hfree : free.size = g.edges.size) {nodes : List NodeId}
    (hnodes : ∀ n ∈ nodes, (n : Nat) < g.nodes.size) :
    g.allotAt? free nodes = some (g.allot free nodes) := by
  have htake (n : Nat) (st : List EdgeId × Array Bool) (e : Nat) (he : e ∈ (g.node n).edges)
      (hst : st.2.size = g.edges.size) :
      takeEdgeAt? st e = some (takeEdge st e) ∧ (takeEdge st e).2.size = g.edges.size := by
    obtain ⟨own, free⟩ := st
    have hlt : e < free.size := by rw [hst]; exact (hl.owned n e he).1
    simp only [takeEdgeAt?, takeEdge, getElem?_eq_some_getD hlt false, Option.bind_eq_bind,
      Option.bind_some]
    by_cases hfree : free.getD e false = true
    · simp only [hfree, if_true, setAt?_eq_some hlt]
      exact ⟨rfl, by simpa using hst⟩
    · simp only [hfree]
      exact ⟨rfl, hst⟩
  have hloop := foldlM_eq_some (s := ((#[] : Array (NodeId × List EdgeId)), free))
    (I := fun st => st.2.size = g.edges.size) (g := g.allotNode)
    (f := fun (shares, free) n => do
      let node ← g.nodes[n]?
      let (own, free) ← node.edges.foldlM takeEdgeAt? ([], free)
      return (shares.push (n, own.reverse), free))
    (fun st n (hn : n ∈ nodes) hst => by
      obtain ⟨htaken, hkept⟩ := foldlM_eq_some (s := (([] : List EdgeId), st.2))
        (I := fun st => st.2.size = g.edges.size) (fun st e he hst => htake n st e he hst) hst
      simp only [node_of_lt (hnodes n hn), Option.bind_eq_bind, Option.bind_some, htaken]
      exact ⟨rfl, hkept⟩) hfree
  rw [allotAt?, hloop.1]
  rfl

end Search

/-! ### Copies -/

section Copies

variable {g : Hypergraph V} {shares : List (NodeId × List EdgeId)}
  (hnodup : (shares.map (·.1)).Nodup)
  (hnodes : ∀ n ∈ shares.map (·.1), (n : Nat) < g.nodes.size)

theorem positionsAt?_eq {size : Nat} {nodes : List NodeId}
    (h : ∀ n ∈ nodes, (n : Nat) < size) :
    positionsAt? size nodes = some (positions size nodes) ∧ (positions size nodes).size = size := by
  refine foldlM_eq_some (I := fun places : Array Nat => places.size = size)
    (fun places n hn hp => ?_) (by simp)
  have hlt : (n.1 : Nat) < places.size := by
    rw [hp]
    exact h n.1 (List.fst_mem_of_mem_zipIdx hn)
  exact ⟨setAt?_eq_some hlt _, by simpa using hp⟩

include hnodup hnodes in
theorem place_lt_length {n : NodeId} (hn : n ∈ shares.map (·.1)) :
    (g.placesOf shares).getD n 0 < shares.length := by
  obtain ⟨i, hi⟩ := List.getElem?_of_mem hn
  rw [placesOf, getD_positions hnodup hnodes hi]
  have hlt := (List.getElem?_eq_some_iff.mp hi).1
  rwa [List.length_map] at hlt

include hnodup hnodes in
theorem renumberAt?_eq (hedges : ∀ share ∈ shares, ∀ e ∈ share.2, (e : Nat) < g.edges.size)
    (hin : g.TailsInside) {goal : Nat} (hgoal : goal < g.nodes.size) :
    g.renumberAt? shares goal = some (g.renumber shares goal) := by
  obtain ⟨hpositions, hsize⟩ := positionsAt?_eq hnodes
  have hcopy (share : NodeId × List EdgeId) (hshare : share ∈ shares) (h : Hypergraph V)
      (e : Nat) (he : e ∈ share.2) (hh : h.nodes.size = shares.length) :
      (do
        let edge ← g.edges[e]?
        h.addCopyAt? (g.placesOf shares) share.1 edge) =
        some (h.addCopy (g.placesOf shares) share.1 (g.edge e)) ∧
          (h.addCopy (g.placesOf shares) share.1 (g.edge e)).nodes.size = shares.length := by
    have hlt := hedges share hshare e he
    have hmem : share.1 ∈ shares.map (·.1) := List.mem_map_of_mem hshare
    have htails : (g.edge e).tails.mapM (fun t => (g.placesOf shares)[t]?) =
        some ((g.edge e).tails.map fun t => (g.placesOf shares).getD t 0) :=
      mapM_eq_some fun t ht => getElem?_eq_some_getD (by
        rw [placesOf, hsize]
        exact hin e hlt t ht) 0
    have hhead : (g.placesOf shares)[share.1]? = some ((g.placesOf shares).getD share.1 0) :=
      getElem?_eq_some_getD (by rw [placesOf, hsize]; exact hnodes _ hmem) 0
    rw [edge_of_lt hlt]
    simp only [Option.bind_eq_bind, Option.bind_some, addCopyAt?, htails, hhead]
    rw [connect?_eq_some (by simp)
      (by rw [nodes_addEdge, hh]; exact place_lt_length hnodup hnodes hmem)]
    exact ⟨rfl, by simpa [addCopy] using hh⟩
  have hloop := foldlM_eq_some (s := Nat.repeat addNode shares.length empty)
    (I := fun h => h.nodes.size = shares.length)
    (fun h share (hshare : share ∈ shares) hh => foldlM_eq_some
      (fun h e he hh => hcopy share hshare h e he hh) hh) (linked_repeat_addNode shares.length).2.1
  have hplace : (g.placesOf shares)[goal]? = some ((g.placesOf shares).getD goal 0) :=
    getElem?_eq_some_getD (by rw [placesOf, hsize]; exact hgoal) 0
  unfold renumberAt?
  rw [hpositions]
  simp only [Option.bind_eq_bind, Option.bind_some]
  rw [show positions g.nodes.size (shares.map (·.1)) = g.placesOf shares from rfl, hplace]
  simp only [Option.bind_eq_bind] at hloop
  rw [hloop.1]
  rfl

end Copies

section Sorted

variable {g : Hypergraph V} (hl : g.Owned) (hin : g.TailsInside)

include hl hin

theorem keptAt?_eq {goal : Nat} (hgoal : goal < g.nodes.size) {d : Derivable} (hd : Sized g d) :
    g.keptAt? (g.searchFrom goal) d goal =
      some (g.renumber (g.allot d.edges ((g.searchFrom goal).order.filter fun n =>
        (g.reached (g.searchFrom goal) d goal).getD n false)) goal) := by
  have hfinished : ∀ n ∈ (g.searchFrom goal).finished, (n : Nat) < g.nodes.size := fun n hn =>
    have hs := searching_searchFrom hgoal
    hs.size ▸ (Array.getElem?_eq_some_iff.mp ((hs.finished n).mpr hn)).1
  have horder : ∀ n ∈ (g.searchFrom goal).order, (n : Nat) < g.nodes.size := fun n hn =>
    hfinished n (List.mem_reverse.mp hn)
  obtain ⟨hreached, hsize⟩ := reachedAt?_eq hl hin hfinished hd hgoal
  have hnodes : gather (fun n => do
      let here ← (g.reached (g.searchFrom goal) d goal)[n]?
      return if here then [n] else []) (g.searchFrom goal).order =
      some ((g.searchFrom goal).order.filter fun n =>
        (g.reached (g.searchFrom goal) d goal).getD n false) :=
    gather_eq_filter fun n hn => by
      rw [getElem?_eq_some_getD (by rw [hsize]; exact horder n hn) false]
      rfl
  have hnd := nodup_order hgoal
  generalize hkept : (g.searchFrom goal).order.filter (fun n =>
    (g.reached (g.searchFrom goal) d goal).getD n false) = nodes at *
  have hnodup : nodes.Nodup := hkept ▸ hnd.filter _
  have hlt : ∀ n ∈ nodes, (n : Nat) < g.nodes.size := fun n hn =>
    horder n (List.mem_of_mem_filter (hkept ▸ hn))
  have hshares : (nodes.map fun n => (n, (g.node n).edges.filter fun e =>
      d.edges.getD e false)).map (·.1) = nodes := by
    rw [List.map_map]
    exact List.map_id nodes
  unfold keptAt?
  rw [hreached]
  simp only [Option.bind_eq_bind, Option.bind_some] at hnodes ⊢
  rw [hnodes, Option.bind_some, allotAt?_eq hl hd.2 hlt, Option.bind_some, allot_eq hl _ hnodup]
  refine renumberAt?_eq (by rw [hshares]; exact hnodup) (by rw [hshares]; exact hlt)
    (fun share hshare e he => ?_) hin hgoal
  obtain ⟨n, -, rfl⟩ := List.mem_map.mp hshare
  exact (hl.owned n e (List.mem_of_mem_filter he)).1

omit hl hin in
theorem sortedAt?_of_none (h : g.goal = none) : g.sortedAt? = some g.sorted := by
  rw [sortedAt?, sorted, h]

theorem sortedAt?_eq (hgoal : ∀ goal : Nat, g.goal = some goal → goal < g.nodes.size) :
    g.sortedAt? = some g.sorted := by
  unfold sortedAt? sorted
  cases hg : g.goal with
  | none => rfl
  | some goal =>
    have hlt := hgoal goal hg
    have hs := searching_searchFrom hlt
    obtain ⟨hderivable, hfits⟩ := derivableAt?_eq hl hin (s := g.searchFrom goal) fun n hn =>
      hs.size ▸ (Array.getElem?_eq_some_iff.mp
        ((hs.finished n).mpr (List.mem_reverse.mp hn))).1
    simp only [searchFromAt?_eq hl hin hlt, Option.bind_eq_bind, Option.bind_some, hderivable,
      getElem?_eq_some_getD (hfits.1.symm ▸ hlt) false]
    change (if (g.derivable (g.searchFrom goal)).hasNode goal then _ else _) = _
    by_cases hnode : (g.derivable (g.searchFrom goal)).hasNode goal = true
    · rw [if_pos hnode, if_pos hnode]
      exact keptAt?_eq hl hin hlt hfits
    · rw [if_neg hnode, if_neg hnode]
      rfl

end Sorted

end ParseForest.Hypergraph
