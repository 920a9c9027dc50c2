import ParseForest.Proofs.Hypergraph.Merging
import ParseForest.Proofs.Tables.Sorting

/-!
# Undoing binarization with tables

While edges are merged, a flag is kept for each edge that says whether it has been replaced, and
another one for each node whose label binarization made. An edge that is added gets a flag of its
own, so there are as many flags as edges at any time. Here all accesses are checked, to the flags
and to the graph that grows. Tails of merged edges are tails of edges that were there before. So in
a linked graph whose tails are nodes no access fails.
-/

namespace ParseForest

theorem anyM_eq_some {α : Type} {f : α → Option Bool} {p : α → Bool} {as : List α}
    (h : ∀ a ∈ as, f a = some (p a)) : as.anyM f = some (as.any p) := by
  induction as with
  | nil => rfl
  | cons a as ih =>
    have hrest := ih fun a' ha' => h a' (List.mem_cons_of_mem a ha')
    cases hp : p a <;> simp [List.anyM, h a List.mem_cons_self, hp, hrest]

theorem forall_of_mapM {α β : Type} {f : α → Option β} {P : β → Prop}
    (h : ∀ a b, f a = some b → P b) {as : List α} {bs : List β} (hbs : as.mapM f = some bs) :
    ∀ b ∈ bs, P b := by
  induction as generalizing bs with
  | nil =>
    cases hbs
    simp
  | cons a as ih =>
    simp only [List.mapM_cons, Option.bind_eq_bind, Option.bind_eq_some_iff] at hbs
    obtain ⟨b, hb, rest, hrest, heq⟩ := hbs
    cases heq
    exact List.forall_mem_cons.mpr ⟨h a b hb, ih hrest⟩

variable {V : Type}

namespace Hypergraph

def isBinarizedNodeAt? (g : Hypergraph V) (n : Node) : Option Bool :=
  match n.edges with
  | [] => some false
  | e :: _ => do
    let edge ← g.edges[e]?
    return edge.rule.any fun rule => rule.lhs.isBinarized

def binarizedNodesAt? (g : Hypergraph V) : Option (Array Bool) := do
  let flags ← g.nodes.toList.mapM g.isBinarizedNodeAt?
  return flags.toArray

def inlinedAt? (g : Hypergraph V) (edge : Edge V) (choice : List (Option EdgeId)) :
    Symbol × Option Nat → Option (Option (List Symbol × List NodeId))
  | (s, none) => some (some ([s], []))
  | (s, some position) =>
    match choice[position]? with
    | none => some none
    | some none => some ((edge.tails[position]?).map fun t => ([s.unindexed], [t]))
    | some (some e) => do
      let inner ← g.edges[e]?
      return inner.rule.bind fun rule =>
        (rule.tailPositions.mapM fun q => inner.tails[q]?).map fun tails =>
          (rule.rhs.map Symbol.unindexed, tails)

def partsAt? (g : Hypergraph V) (edge : Edge V) (choice : List (Option EdgeId)) :
    List (Symbol × Option Nat) → Option (Option (List (List Symbol × List NodeId)))
  | [] => some (some [])
  | symbol :: rest => do
    match ← g.inlinedAt? edge choice symbol with
    | none => return none
    | some part =>
      let parts ← g.partsAt? edge choice rest
      return parts.map (part :: ·)

variable [Scalar V]

namespace Rewriting

def mergeAt? (n : NodeId) (edge : Edge V) (rule : Rule) (r : Rewriting V)
    (choice : List (Option EdgeId)) : Option (Rewriting V) := do
  let stale ← (choice.filterMap id).anyM fun e => r.replaced[e]?
  if stale then return r
  else
    match ← r.graph.partsAt? edge choice rule.placed with
    | none => return r
    | some parts =>
      let features ← (chosenEdges rule choice).foldlM (fun f e => do
        let inner ← r.graph.edges[e]?
        return FeatureVector.plus f inner.features) edge.features
      let graph := r.graph.addEdge (parts.flatMap (·.2)) (some ⟨rule.lhs, parts.flatMap (·.1)⟩)
        features edge.attributes
      let graph ← graph.connect? r.graph.edges.size n
      return ⟨graph, r.replaced.push false⟩

omit [Scalar V] in
def choicesAt? (r : Rewriting V) (flags : Array Bool) (t : NodeId) :
    Option (List (Option EdgeId)) := do
  let binarized ← flags[t]?
  if binarized then
    let node ← r.graph.nodes[t]?
    return node.edges.map some
  else return [none]

def replaceEdgeAt? (flags : Array Bool) (n : NodeId) (r : Rewriting V) (e : EdgeId) :
    Option (Rewriting V) := do
  let edge ← r.graph.edges[e]?
  let above ← edge.tails.anyM fun t => flags[t]?
  if above then
    match edge.rule with
    | none => return r
    | some rule =>
      let replaced ← setAt? r.replaced e true
      let choices ← edge.tails.mapM (r.choicesAt? flags)
      (selections choices).foldlM (mergeAt? n edge rule) { r with replaced }
  else return r

def rewriteNodeAt? (flags : Array Bool) (r : Rewriting V) (n : NodeId) : Option (Rewriting V) := do
  let node ← r.graph.nodes[n]?
  node.edges.foldlM (replaceEdgeAt? flags n) r

omit [Scalar V] in
def resultAt? (r : Rewriting V) : Option (Hypergraph V) := do
  let nodes ← r.graph.nodes.toList.mapM fun node => do
    let edges ← gather (fun e => do
      let gone ← r.replaced[e]?
      return if gone then [] else [e]) node.edges
    return { node with edges }
  return { r.graph with nodes := nodes.toArray }

end Rewriting

def unbinarizedAt? (g : Hypergraph V) : Option (Hypergraph V) :=
  if g.isValid then do
    let flags ← g.binarizedNodesAt?
    let r ← (List.range g.nodes.size).foldlM (Rewriting.rewriteNodeAt? flags)
      ⟨g, Array.replicate g.edges.size false⟩
    let graph ← r.resultAt?
    graph.sortedAt?
  else some empty

/-! ## No access fails -/

section

variable {g : Hypergraph V} {edge : Edge V} {choice : List (Option EdgeId)}

omit [Scalar V] in
theorem binarizedNodesAt?_eq (hlinked : g.Linked) :
    g.binarizedNodesAt? = some g.binarizedNodes := by
  have hnodes : g.nodes.toList.mapM g.isBinarizedNodeAt? =
      some (g.nodes.toList.map g.isBinarizedNode) := by
    refine mapM_eq_some fun node hnode => ?_
    obtain ⟨n, hn⟩ := List.getElem?_of_mem hnode
    have hget : g.node n = node := by
      rw [Array.getElem?_toList] at hn
      simp [Hypergraph.node, hn]
    unfold isBinarizedNodeAt? isBinarizedNode
    cases hedges : node.edges with
    | nil => rfl
    | cons e rest =>
      have he : e ∈ (g.node n).edges := by simp [hget, hedges]
      simp only
      rw [edge_of_lt ((hlinked.listed n e).mp he).1]
      rfl
  rw [binarizedNodesAt?, hnodes, binarizedNodes]
  change some (List.map _ _).toArray = _
  rw [← Array.toList_map, Array.toArray_toList]

def Offered (g : Hypergraph V) (choice : List (Option EdgeId)) : Prop :=
  ∀ e : Nat, some e ∈ choice → e < g.edges.size

omit [Scalar V] in
theorem inlinedAt?_eq (h : g.Offered choice) (symbol : Symbol × Option Nat) :
    g.inlinedAt? edge choice symbol = some (g.inlined? edge choice symbol) := by
  obtain ⟨s, position⟩ := symbol
  cases position with
  | none => rfl
  | some position =>
    cases hget : choice[position]? with
    | none => simp [inlinedAt?, inlined?, hget]
    | some c =>
      cases c with
      | none => simp [inlinedAt?, inlined?, hget]
      | some e =>
        have he := edge_of_lt (h e (List.mem_of_getElem? hget))
        simp [inlinedAt?, inlined?, hget, he]

omit [Scalar V] in
theorem partsAt?_eq (h : g.Offered choice) (symbols : List (Symbol × Option Nat)) :
    g.partsAt? edge choice symbols = some (symbols.mapM (g.inlined? edge choice)) := by
  induction symbols with
  | nil => rfl
  | cons symbol rest ih =>
    rw [partsAt?, inlinedAt?_eq h, ih, List.mapM_cons]
    cases g.inlined? edge choice symbol with
    | none => rfl
    | some part =>
      cases rest.mapM (g.inlined? edge choice) <;> rfl

omit [Scalar V] in
theorem tails_of_inlined (hin : g.TailsInside) (h : g.Offered choice)
    (hedge : ∀ t ∈ edge.tails, t < g.nodes.size) {symbol : Symbol × Option Nat}
    {part : List Symbol × List NodeId} (hpart : g.inlined? edge choice symbol = some part) :
    ∀ t ∈ part.2, t < g.nodes.size := by
  obtain ⟨s, position⟩ := symbol
  cases position with
  | none =>
    cases hpart
    simp
  | some position =>
    cases hget : choice[position]? with
    | none => simp [inlined?, hget] at hpart
    | some c =>
      cases c with
      | none =>
        simp only [inlined?, hget, Option.map_eq_some_iff] at hpart
        obtain ⟨t, ht, rfl⟩ := hpart
        simpa using hedge t (List.mem_of_getElem? ht)
      | some e =>
        simp only [inlined?, hget, Option.bind_eq_some_iff, Option.map_eq_some_iff] at hpart
        obtain ⟨inner, -, tails, htails, rfl⟩ := hpart
        have he := h e (List.mem_of_getElem? hget)
        exact forall_of_mapM (fun q t ht => hin e he t (List.mem_of_getElem? ht)) htails

end

theorem mem_of_mem_chosenEdges {rule : Rule} {choice : List (Option EdgeId)} {e : EdgeId}
    (he : e ∈ chosenEdges rule choice) : some e ∈ choice := by
  obtain ⟨position, -, hget⟩ := List.mem_filterMap.mp he
  exact List.mem_of_getElem? (Option.join_eq_some_iff.mp hget)

theorem plusFeatures?_eq {g : Hypergraph V} {rule : Rule} {choice : List (Option EdgeId)}
    (h : g.Offered choice) (f : FeatureVector V) :
    (chosenEdges rule choice).foldlM (fun f e => do
      let inner ← g.edges[e]?
      return FeatureVector.plus f inner.features) f =
        some ((chosenEdges rule choice).foldl
          (fun f e => FeatureVector.plus f (g.edge e).features) f) := by
  refine (foldlM_eq_some (I := fun _ => True) (fun f e he _ => ⟨?_, trivial⟩) trivial).1
  rw [edge_of_lt (h e (mem_of_mem_chosenEdges he))]
  rfl

theorem addMerged_of_parts {g : Hypergraph V} {n : NodeId} {edge : Edge V} {rule : Rule}
    {choice : List (Option EdgeId)} {parts : List (List Symbol × List NodeId)}
    (h : rule.placed.mapM (g.inlined? edge choice) = some parts) :
    addMerged n edge rule g choice = g.extend n (parts.flatMap (·.2))
      (some ⟨rule.lhs, parts.flatMap (·.1)⟩) ((chosenEdges rule choice).foldl
        (fun f e => FeatureVector.plus f (g.edge e).features) edge.features) edge.attributes := by
  simp [addMerged, h, extend]

theorem getD_push_false (a : Array Bool) (i : Nat) :
    (a.push false).getD i false = a.getD i false := by
  simp only [Array.getD_eq_getD_getElem?, Array.getElem?_push]
  split
  · simp [*]
  · rfl

omit [Scalar V] in
theorem Linked.offered {r : Rewriting V} (h : r.graph.Linked) {binarized : NodeId → Bool}
    {edge : Edge V} {choice : List (Option EdgeId)}
    (hchoice : choice ∈ selections (r.choices binarized edge)) : r.graph.Offered choice := by
  intro e he
  obtain ⟨c, hc, hmem⟩ := exists_mem_of_mem_selections hchoice _ he
  obtain ⟨t, -, rfl⟩ := List.mem_map.mp hc
  split at hmem
  · obtain ⟨k, hk, heq⟩ := List.mem_map.mp hmem
    cases heq
    exact ((h.listed t e).mp hk).1
  · simp at hmem

namespace Rewriting

/-- With the flags of the added edges, `r'` is `r` on the way to node `n`: no node from there on
lists an added edge. -/
structure Mirrors (g : Hypergraph V) (n : Nat) (r' r : Rewriting V) : Prop where
  graph : r'.graph = r.graph
  linked : r.graph.Linked
  inside : r.graph.TailsInside
  nodes : r.graph.nodes.size = g.nodes.size
  goal : r.graph.goal = g.goal
  edges : g.edges.size ≤ r.graph.edges.size
  old : r.replaced.size = g.edges.size
  full : r'.replaced.size = r.graph.edges.size
  same : ∀ e, r'.isReplaced e = r.isReplaced e
  late : ∀ m : Nat, n ≤ m → ∀ e ∈ (r.graph.node m).edges, e < g.edges.size

def mergeFresh (n : NodeId) (edge : Edge V) (rule : Rule) (r : Rewriting V)
    (choice : List (Option EdgeId)) : Rewriting V :=
  if choice.any fun c => c.any r.isReplaced then r
  else { r with graph := addMerged n edge rule r.graph choice }

variable {g : Hypergraph V} {n : Nat} {r' r : Rewriting V}

omit [Scalar V] in
theorem Mirrors.anyM_replaced (h : Mirrors g n r' r) {choice : List (Option EdgeId)}
    (hchoice : r.graph.Offered choice) :
    (choice.filterMap id).anyM (fun e => r'.replaced[e]?) =
      some (choice.any fun c => c.any r.isReplaced) := by
  rw [anyM_eq_some (p := r.isReplaced) fun e he => ?_]
  · rw [List.any_filterMap]
    rfl
  · have hlt := hchoice e (by simpa using he)
    rw [getElem?_eq_some_getD (h.full.symm ▸ hlt) false, ← h.same, isReplaced]

omit [Scalar V] in
theorem Mirrors.extend (h : Mirrors g (n + 1) r' r) (hn : n < r.graph.nodes.size)
    {tails : List NodeId} (htails : ∀ t ∈ tails, t < r.graph.nodes.size) (rule : Option Rule)
    (features : FeatureVector V) (attributes : AttributeVector V) :
    Mirrors g (n + 1)
      ⟨r.graph.extend n tails rule features attributes, r'.replaced.push false⟩
      { r with graph := r.graph.extend n tails rule features attributes } where
  graph := rfl
  linked := h.linked.extend hn _ _ _ _
  inside := h.inside.extend n htails _ _ _
  nodes := by simpa using h.nodes
  goal := by simpa using h.goal
  edges := by
    have := h.edges
    simp only [size_edges_extend]
    omega
  old := h.old
  full := by simpa using h.full
  same e := (getD_push_false _ _).trans (h.same e)
  late m hm e he := by
    rw [node_extend, if_neg (by omega)] at he
    exact h.late m hm e he

theorem Mirrors.merge (h : Mirrors g (n + 1) r' r) (hn : n < g.nodes.size) {edge : Edge V}
    (hedge : ∀ t ∈ edge.tails, t < g.nodes.size) (rule : Rule)
    {choice : List (Option EdgeId)} (hchoice : r.graph.Offered choice) :
    Yields (mergeAt? n edge rule r' choice)
      (Mirrors g (n + 1) · (mergeFresh n edge rule r choice)) := by
  unfold mergeAt? mergeFresh
  rw [h.anyM_replaced hchoice, Option.bind_eq_bind, Option.bind_some]
  split
  · exact yields_some h
  · simp only [h.graph, partsAt?_eq hchoice, Option.bind_eq_bind, Option.bind_some]
    cases hparts : rule.placed.mapM (r.graph.inlined? edge choice) with
    | none =>
      have hadded : addMerged n edge rule r.graph choice = r.graph := by simp [addMerged, hparts]
      rw [hadded]
      exact yields_some h
    | some parts =>
      have htails : ∀ t ∈ parts.flatMap (·.2), t < r.graph.nodes.size := by
        intro t ht
        obtain ⟨part, hpart, ht⟩ := List.mem_flatMap.mp ht
        exact forall_of_mapM (P := fun part => ∀ t ∈ part.2, t < r.graph.nodes.size)
          (fun symbol part => tails_of_inlined h.inside hchoice (h.nodes.symm ▸ hedge)) hparts part
            hpart t ht
      have hn' : n < r.graph.nodes.size := h.nodes.symm ▸ hn
      refine Yields.bind (.of_eq_some (plusFeatures?_eq hchoice _) rfl) fun features heq => ?_
      subst heq
      refine Yields.bind (.of_eq_some (connect?_eq_some (by simp) (by simpa using hn')) rfl)
        fun graph heq => ?_
      subst heq
      rw [addMerged_of_parts hparts]
      exact yields_some (h.extend hn' htails _ _ _)

theorem size_edges_le_mergeFresh (n : NodeId) (edge : Edge V) (rule : Rule) (r : Rewriting V)
    (choice : List (Option EdgeId)) :
    r.graph.edges.size ≤ (mergeFresh n edge rule r choice).graph.edges.size := by
  unfold mergeFresh
  split
  · exact Nat.le_refl _
  · cases hparts : rule.placed.mapM (r.graph.inlined? edge choice) with
    | none => simp [addMerged, hparts]
    | some parts => simp [addMerged_of_parts hparts]

theorem Mirrors.merges (h : Mirrors g (n + 1) r' r) (hn : n < g.nodes.size) {edge : Edge V}
    (hedge : ∀ t ∈ edge.tails, t < g.nodes.size) (rule : Rule)
    {choices : List (List (Option EdgeId))} (hchoices : ∀ choice ∈ choices, r.graph.Offered choice) :
    Yields (choices.foldlM (mergeAt? n edge rule) r')
      (Mirrors g (n + 1) · (choices.foldl (mergeFresh n edge rule) r)) := by
  let R (x y : Rewriting V) : Prop :=
    Mirrors g (n + 1) x y ∧ r.graph.edges.size ≤ y.graph.edges.size
  have hstep (x y : Rewriting V) (choice : List (Option EdgeId)) (hmem : choice ∈ choices)
      (hxy : R x y) : Yields (mergeAt? n edge rule x choice)
        (R · (mergeFresh n edge rule y choice)) := by
    have hoffered : y.graph.Offered choice := fun e he =>
      Nat.lt_of_lt_of_le (hchoices choice hmem e he) hxy.2
    exact (hxy.1.merge hn hedge rule hoffered).mono fun z hz =>
      ⟨hz, hxy.2.trans (size_edges_le_mergeFresh ..)⟩
  exact (yields_foldlM_same (R := R) hstep ⟨h, Nat.le_refl _⟩).mono fun x hx => hx.1

def fresh (r : Rewriting V) (choices : List (List (Option EdgeId))) : List (List (Option EdgeId)) :=
  choices.filter fun choice => !choice.any fun c => c.any r.isReplaced

theorem foldl_mergeFresh (n : NodeId) (edge : Edge V) (rule : Rule) (r : Rewriting V)
    (choices : List (List (Option EdgeId))) : choices.foldl (mergeFresh n edge rule) r =
      { r with graph := (r.fresh choices).foldl (addMerged n edge rule) r.graph } := by
  have key (graph : Hypergraph V) : choices.foldl (mergeFresh n edge rule) { r with graph } =
      { r with graph := (r.fresh choices).foldl (addMerged n edge rule) graph } := by
    induction choices generalizing graph with
    | nil => rfl
    | cons choice choices ih =>
      have hsame : isReplaced { r with graph } = r.isReplaced := rfl
      rw [List.foldl_cons, mergeFresh, hsame, fresh, List.filter_cons]
      cases choice.any fun c => c.any r.isReplaced with
      | true => simpa [fresh] using ih graph
      | false => simpa [fresh] using ih (addMerged n edge rule graph choice)
  exact key r.graph

omit [Scalar V] in
theorem Mirrors.choices (h : Mirrors g n r' r) {flags : Array Bool}
    (hflags : flags.size = g.nodes.size) {edge : Edge V}
    (hedge : ∀ t ∈ edge.tails, t < g.nodes.size) :
    edge.tails.mapM (r'.choicesAt? flags) =
      some (r.choices (fun t => flags.getD t false) edge) := by
  refine mapM_eq_some fun t ht => ?_
  have hlt := hedge t ht
  rw [choicesAt?, getElem?_eq_some_getD (hflags.symm ▸ hlt) false, h.graph,
    node_of_lt (h.nodes.symm ▸ hlt), Option.bind_eq_bind, Option.bind_some]
  simp only
  split <;> rfl

omit [Scalar V] in
theorem Mirrors.flag (h : Mirrors g n r' r) {e : Nat} (he : e < g.edges.size) :
    Mirrors g n ⟨r.graph, r'.replaced.setIfInBounds e true⟩
      ⟨r.graph, r.replaced.setIfInBounds e true⟩ := by
  refine ⟨rfl, h.linked, h.inside, h.nodes, h.goal, h.edges, by simpa using h.old,
    by simpa using h.full, fun k => ?_, h.late⟩
  have hlt : e < r.replaced.size := h.old.symm ▸ he
  have hlt' : e < r'.replaced.size := h.full.symm ▸ Nat.lt_of_lt_of_le he h.edges
  have hsame := h.same k
  unfold isReplaced at hsame ⊢
  by_cases hk : e = k
  · subst hk
    simp [hlt, hlt']
  · simpa [Array.getElem?_setIfInBounds, hk] using hsame

theorem Mirrors.replaceEdge (h : Mirrors g (n + 1) r' r) (hn : n < g.nodes.size)
    {flags : Array Bool} (hflags : flags.size = g.nodes.size) {e : Nat} (he : e < g.edges.size) :
    Yields (replaceEdgeAt? flags n r' e)
      (Mirrors g (n + 1) · (replaceEdge (fun t => flags.getD t false) n r e)) := by
  have hlt : e < r.graph.edges.size := Nat.lt_of_lt_of_le he h.edges
  have hedge : ∀ t ∈ (r.graph.edge e).tails, t < g.nodes.size := fun t ht =>
    h.nodes ▸ h.inside e hlt t ht
  have habove : (r.graph.edge e).tails.anyM (fun t => flags[t]?) =
      some ((r.graph.edge e).tails.any fun t => flags.getD t false) :=
    anyM_eq_some fun t ht => getElem?_eq_some_getD (hflags.symm ▸ hedge t ht) false
  unfold replaceEdgeAt? Rewriting.replaceEdge
  rw [h.graph, edge_of_lt hlt, Option.bind_eq_bind, Option.bind_some]
  refine Yields.bind (.of_eq_some habove rfl) fun above heq => ?_
  subst heq
  simp only
  split
  · cases hrule : (r.graph.edge e).rule with
    | none => exact yields_some h
    | some rule =>
      have hset := setAt?_eq_some (a := r'.replaced) (h.full.symm ▸ hlt) true
      have hflagged := h.flag he
      have hchoices := h.choices hflags hedge
      simp only
      rw [hset, Option.bind_eq_bind, Option.bind_some, hchoices, Option.bind_eq_bind,
        Option.bind_some]
      have hpure := foldl_mergeFresh n (r.graph.edge e) rule
        ⟨r.graph, r.replaced.setIfInBounds e true⟩
        (selections (r.choices (fun t => flags.getD t false) (r.graph.edge e)))
      refine Yields.mono ?_ fun x hx => hpure ▸ hx
      exact hflagged.merges hn hedge rule fun choice hchoice k hk =>
        h.linked.offered hchoice k hk
  · exact yields_some h

theorem Mirrors.rewriteNode (h : Mirrors g n r' r) (hn : n < g.nodes.size) {flags : Array Bool}
    (hflags : flags.size = g.nodes.size) : Yields (rewriteNodeAt? flags r' n)
      (Mirrors g (n + 1) · (rewriteNode (fun t => flags.getD t false) r n)) := by
  unfold rewriteNodeAt? Rewriting.rewriteNode
  rw [h.graph, node_of_lt (h.nodes.symm ▸ hn), Option.bind_eq_bind, Option.bind_some]
  refine yields_foldlM_same (R := Mirrors g (n + 1)) (fun x y e he hxy =>
    hxy.replaceEdge (e := e) hn hflags (h.late n (Nat.le_refl n) e he)) ?_
  exact { h with late := fun m hm => h.late m (by omega) }

theorem yields_rewriteNodes (hlinked : g.Linked) (hin : g.TailsInside) {flags : Array Bool}
    (hflags : flags.size = g.nodes.size) :
    Yields ((List.range g.nodes.size).foldlM (rewriteNodeAt? flags)
      ⟨g, Array.replicate g.edges.size false⟩) (Mirrors g g.nodes.size ·
        ((List.range g.nodes.size).foldl (rewriteNode fun t => flags.getD t false)
          ⟨g, Array.replicate g.edges.size false⟩)) := by
  refine yields_foldlM_range (P := fun n x => Mirrors g n x
    ((List.range n).foldl (rewriteNode fun t => flags.getD t false) _)) (fun n hn x hx => ?_) ?_
  · rw [List.range_succ, List.foldl_append]
    exact hx.rewriteNode hn hflags
  · exact ⟨rfl, hlinked, hin, rfl, rfl, Nat.le_refl _, by simp, by simp, fun _ => rfl,
      fun m _ e he => ((hlinked.listed m e).mp he).1⟩

omit [Scalar V] in
theorem Mirrors.resultAt?_eq (h : Mirrors g n r' r) : r'.resultAt? = some r.result := by
  have hnodes : r.graph.nodes.toList.mapM (fun node => do
      let edges ← gather (fun e => do
        let gone ← r'.replaced[e]?
        return if gone then [] else [e]) node.edges
      return { node with edges }) = some (r.graph.nodes.toList.map fun node =>
        { node with edges := node.edges.filter fun e => !r.isReplaced e }) := by
    refine mapM_eq_some fun node hnode => ?_
    obtain ⟨m, hm⟩ := List.getElem?_of_mem hnode
    have hget : r.graph.node m = node := by
      rw [Array.getElem?_toList] at hm
      simp [Hypergraph.node, hm]
    rw [gather_eq_filter (p := fun e => !r.isReplaced e) fun e he => ?_]
    · rfl
    · have hlt := ((h.linked.listed m e).mp (hget.symm ▸ he)).1
      rw [getElem?_eq_some_getD (h.full.symm ▸ hlt) false, ← h.same]
      change some (if r'.isReplaced e then _ else _) = _
      cases r'.isReplaced e <;> rfl
  rw [resultAt?, h.graph, hnodes, Option.bind_eq_bind, Option.bind_some, ← Array.toList_map,
    Array.toArray_toList]
  rfl

omit [Scalar V] in
theorem Mirrors.owned_result (h : Mirrors g n r' r) :
    r.result.Owned ∧ r.result.TailsInside ∧ r.result.nodes.size = g.nodes.size := by
  have hsize : r.result.nodes.size = r.graph.nodes.size := by simp [Rewriting.result]
  refine ⟨⟨fun m e he => ?_, fun m => ?_⟩, fun e he t ht => ?_, hsize.trans h.nodes⟩
  · rw [node_result] at he
    rw [hsize]
    exact (h.linked.listed m e).mp (List.mem_filter.mp he).1
  · rw [node_result]
    exact (h.linked.nodup m).filter _
  · rw [hsize]
    exact h.inside e he t ht

end Rewriting

theorem owned_merged {g : Hypergraph V} (hlinked : g.Linked) (hin : g.TailsInside) :
    g.merged.Owned ∧ g.merged.TailsInside ∧ g.merged.nodes.size = g.nodes.size ∧
      g.merged.goal = g.goal := by
  have hflags : g.binarizedNodes.size = g.nodes.size := by simp [binarizedNodes]
  obtain ⟨r, -, hr⟩ := Rewriting.yields_rewriteNodes hlinked hin hflags
  obtain ⟨howned, hinside, hsize⟩ := hr.owned_result
  exact ⟨howned, hinside, hsize, hr.goal⟩

theorem unbinarizedAt?_eq {g : Hypergraph V} (hlinked : g.Linked) (hin : g.TailsInside)
    (hgoal : ∀ goal : Nat, g.goal = some goal → goal < g.nodes.size) :
    g.unbinarizedAt? = some g.unbinarized := by
  unfold unbinarizedAt? unbinarized
  split
  · rw [binarizedNodesAt?_eq hlinked, Option.bind_eq_bind, Option.bind_some]
    have hflags : g.binarizedNodes.size = g.nodes.size := by simp [binarizedNodes]
    obtain ⟨howned, hinside, hsize, hsame⟩ := owned_merged hlinked hin
    refine Yields.eq_some ((Rewriting.yields_rewriteNodes hlinked hin hflags).bind fun r hr => ?_)
    rw [hr.resultAt?_eq, Option.bind_eq_bind, Option.bind_some]
    exact .of_eq_some (sortedAt?_eq howned hinside fun goal hg =>
      Nat.lt_of_lt_of_eq (hgoal goal (hsame.symm.trans hg)) hsize.symm) rfl
  · rfl

end Hypergraph

end ParseForest
