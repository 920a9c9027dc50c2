import ParseForest.Proofs.Hypergraph.Isomorphic

/-!
# Sorting twice

The search numbers nodes by the links that it meets, and sorting may drop some of these links. A
second search then has no need to visit what is left in the same order. When nothing is dropped that
the goal reaches, the search over the copies runs in step with the search over the originals: it
finishes the copies in the order of their numbers, so sorting a sorted graph changes nothing.
-/

namespace ParseForest.Hypergraph

variable {V : Type} {g h : Hypergraph V} {nodes : List NodeId} {place : NodeId → NodeId}

/-! ## Two searches in step -/

structure LinksCopied (g h : Hypergraph V) (nodes : List NodeId) (place : NodeId → NodeId) :
    Prop where
  inside : ∀ n ∈ nodes, (show Nat from n) < g.nodes.size
  maps : ∀ n ∈ nodes, (show Nat from place n) < h.nodes.size
  inj : ∀ n ∈ nodes, ∀ m ∈ nodes, place n = place m → n = m
  closed : ∀ n ∈ nodes, ∀ l ∈ g.links n, l.2 ∈ nodes
  links : ∀ n ∈ nodes, (h.links (place n)).map (·.2) = (g.links n).map fun l => place l.2

structure FrameCopied (nodes : List NodeId) (place : NodeId → NodeId)
    (f f' : NodeId × List (EdgeId × NodeId)) : Prop where
  mem : f.1 ∈ nodes
  node : f'.1 = place f.1
  closed : ∀ l ∈ f.2, l.2 ∈ nodes
  links : f'.2.map (·.2) = f.2.map fun l => place l.2

structure SearchCopied (nodes : List NodeId) (place : NodeId → NodeId) (s s' : Search) :
    Prop where
  marks : ∀ n ∈ nodes, s'.marks[(show Nat from place n)]? = s.marks[(show Nat from n)]?
  finished : s'.finished = s.finished.map place

theorem LinksCopied.frame (h' : LinksCopied g h nodes place) {n : NodeId} (hn : n ∈ nodes) :
    FrameCopied nodes place (n, g.links n) (place n, h.links (place n)) :=
  ⟨hn, rfl, h'.closed n hn, h'.links n hn⟩

theorem FrameCopied.nil {n : NodeId} {f' : NodeId × List (EdgeId × NodeId)}
    (hf : FrameCopied nodes place (n, []) f') : f' = (place n, []) :=
  Prod.ext hf.node (List.map_eq_nil_iff.mp hf.links)

theorem FrameCopied.cons {n t : NodeId} {e : EdgeId} {links : List (EdgeId × NodeId)}
    {f' : NodeId × List (EdgeId × NodeId)}
    (hf : FrameCopied nodes place (n, (e, t) :: links) f') :
    ∃ e' links', f' = (place n, (e', place t) :: links') ∧ t ∈ nodes ∧
      FrameCopied nodes place (n, links) (place n, links') := by
  obtain ⟨⟨e', t'⟩, links', hlinks, ht, hrest⟩ := List.map_eq_cons_iff.mp hf.links
  obtain rfl : t' = place t := ht
  exact ⟨e', links', Prod.ext hf.node hlinks, hf.closed _ List.mem_cons_self, hf.mem, rfl,
    fun l hl => hf.closed l (List.mem_cons_of_mem _ hl), hrest⟩

namespace SearchCopied

variable {s s' : Search} (hs : SearchCopied nodes place s s')
  (hinj : ∀ n ∈ nodes, ∀ m ∈ nodes, place n = place m → n = m)
include hs hinj

theorem setMark {n : NodeId} (hn : n ∈ nodes) (mark : Mark) :
    ∀ m ∈ nodes, (s'.marks.setIfInBounds (place n) mark)[(show Nat from place m)]? =
      (s.marks.setIfInBounds n mark)[(show Nat from m)]? := by
  intro m hm
  rw [Array.getElem?_setIfInBounds, Array.getElem?_setIfInBounds]
  by_cases heq : n = m
  · subst heq
    have hsize : (show Nat from place n) < s'.marks.size ↔ (show Nat from n) < s.marks.size := by
      rw [← not_iff_not, Nat.not_lt, Nat.not_lt, ← Array.getElem?_eq_none_iff,
        ← Array.getElem?_eq_none_iff, hs.marks n hn]
    simp only [if_true, hsize]
  · rw [if_neg heq, if_neg fun hplace => heq (hinj n hn m hm hplace)]
    exact hs.marks m hm

theorem enter {n : NodeId} (hn : n ∈ nodes) :
    SearchCopied nodes place (s.enter n) (s'.enter (place n)) :=
  ⟨hs.setMark hinj hn .underway, hs.finished⟩

theorem leave {n : NodeId} (hn : n ∈ nodes) :
    SearchCopied nodes place (s.leave n) (s'.leave (place n)) :=
  ⟨hs.setMark hinj hn .finished, congrArg (place n :: ·) hs.finished⟩

end SearchCopied

theorem LinksCopied.follow (hc : LinksCopied g h nodes place) {stack stack' : SearchStack}
    {s s' : Search} (hstack : List.Forall₂ (FrameCopied nodes place) stack stack')
    (hs : SearchCopied nodes place s s') :
    SearchCopied nodes place (g.follow stack s) (h.follow stack' s') := by
  fun_induction Hypergraph.follow g stack s generalizing stack' s' with
  | case1 s =>
    rw [List.forall₂_nil_left_iff.mp hstack, Hypergraph.follow]
    exact hs
  | case2 s n rest ih =>
    obtain ⟨f', rest', hframe, hrest, rfl⟩ := List.forall₂_cons_left_iff.mp hstack
    rw [hframe.nil, Hypergraph.follow]
    exact ih hrest (hs.leave hc.inj hframe.mem)
  | case3 s n e t links rest ht ih =>
    obtain ⟨f', rest', hframe, hrest, rfl⟩ := List.forall₂_cons_left_iff.mp hstack
    obtain ⟨e', links', rfl, hmem, hframe⟩ := hframe.cons
    rw [follow_link, hs.marks t hmem, ht]
    exact ih (.cons (hc.frame hmem) (.cons hframe hrest)) (hs.enter hc.inj hmem)
  | case4 s n e t links rest ht ih =>
    obtain ⟨f', rest', hframe, hrest, rfl⟩ := List.forall₂_cons_left_iff.mp hstack
    obtain ⟨e', links', rfl, hmem, hframe⟩ := hframe.cons
    rw [follow_link, hs.marks t hmem, ht]
    exact ih (.cons hframe hrest) ⟨hs.marks, hs.finished⟩
  | case5 s n e t links rest ht ih =>
    obtain ⟨f', rest', hframe, hrest, rfl⟩ := List.forall₂_cons_left_iff.mp hstack
    obtain ⟨e', links', rfl, hmem, hframe⟩ := hframe.cons
    rw [follow_link, hs.marks t hmem, ht]
    exact ih (.cons hframe hrest) hs
  | case6 s n e t links rest ht ih =>
    obtain ⟨f', rest', hframe, hrest, rfl⟩ := List.forall₂_cons_left_iff.mp hstack
    obtain ⟨e', links', rfl, hmem, hframe⟩ := hframe.cons
    rw [follow_link, hs.marks t hmem, ht]
    exact ih (.cons hframe hrest) hs

theorem LinksCopied.order_searchFrom (hc : LinksCopied g h nodes place) {n : NodeId}
    (hn : n ∈ nodes) : (h.searchFrom (place n)).order = (g.searchFrom n).order.map place := by
  have hstart : SearchCopied nodes place ⟨Array.replicate g.nodes.size .unvisited, [], []⟩
      ⟨Array.replicate h.nodes.size .unvisited, [], []⟩ := by
    refine ⟨fun m hm => ?_, rfl⟩
    rw [Array.getElem?_replicate, Array.getElem?_replicate, if_pos (hc.inside m hm),
      if_pos (hc.maps m hm)]
  have hdone := hc.follow (.cons (hc.frame hn) .nil) (hstart.enter hc.inj hn)
  rw [Search.order, Search.order, List.map_reverse]
  exact congrArg List.reverse hdone.finished

/-! ## The lists of the copies -/

theorem map_snd_links (g : Hypergraph V) (n : Nat) :
    (g.links n).map (·.2) = (g.node n).edges.flatMap fun e => (g.edge e).tails := by
  simp only [links, List.map_flatMap, List.map_map, Function.comp_def, List.map_id']

def addLike (g : Hypergraph V) (edge : Edge V) : Hypergraph V :=
  g.extend (edge.head.getD 0) edge.tails edge.rule edge.features edge.attributes

theorem renumber_eq_foldl (shares : List (NodeId × List EdgeId)) (goal : NodeId) :
    g.renumber shares goal = (((copies shares).map (g.copyOf (g.placesOf shares) 0)).foldl addLike
      (Nat.repeat addNode shares.length empty)).withGoal
        (some ((g.placesOf shares).getD goal 0)) := by
  rw [renumber_eq, List.foldl_map]
  rfl

theorem edges_foldl_addCopy (g : Hypergraph V) (places : Array Nat) {size : Nat}
    (made : List (NodeId × EdgeId)) (hmade : ∀ c ∈ made, places.getD c.1 0 < size) (i : Nat) :
    ((made.foldl (fun h c => h.addCopy places c.1 (g.edge c.2))
      (Nat.repeat addNode size empty)).node i).edges =
        (made.zipIdx.filter fun c => places.getD c.1.1 0 = i).map (·.2) := by
  induction made using List.reverseRecOn with
  | nil =>
    obtain ⟨hl, hsize, hedges⟩ := linked_repeat_addNode (V := V) size
    refine List.eq_nil_iff_forall_not_mem.mpr fun e he => ?_
    have hlt := ((hl.listed i e).mp he).1
    omega
  | append_singleton made c ih =>
    have hbefore : ∀ c ∈ made, places.getD c.1 0 < size := fun c hc =>
      hmade c (List.mem_append_left _ hc)
    have hc := hmade c (List.mem_append_right _ List.mem_cons_self)
    obtain ⟨-, hsize, hedges, -⟩ := foldl_addCopy g places made hbefore
    rw [List.foldl_append, List.foldl_cons, List.foldl_nil, List.zipIdx_append, List.filter_append,
      List.map_append, ← ih hbefore]
    generalize made.foldl (fun h c => h.addCopy places c.1 (g.edge c.2))
      (Nat.repeat addNode size empty) = h at hsize hedges
    change ((h.extend (places.getD c.1 0) _ _ _ _).node i).edges = _
    rw [node_extend, hsize, hedges, List.zipIdx_singleton, List.filter_singleton]
    by_cases hi : places.getD c.1 0 = i
    · rw [if_pos ⟨hi.symm, hc⟩, decide_eq_true hi, cond_true, Nat.zero_add]
      rfl
    · rw [if_neg fun hand => hi hand.1.symm, decide_eq_false hi, cond_false, List.map_nil,
        List.append_nil]

section

variable {shares : List (NodeId × List EdgeId)} (hnd : (shares.map (·.1)).Nodup)
  (hlt : ∀ n ∈ shares.map (·.1), (show Nat from n) < g.nodes.size)
include hnd hlt

theorem getD_placesOf {i : Nat} {share : NodeId × List EdgeId} (hi : shares[i]? = some share) :
    (g.placesOf shares).getD share.1 0 = i := by
  refine getD_positions hnd hlt ?_
  rw [List.getElem?_map, hi, Option.map_some]

theorem exists_place {c : NodeId × EdgeId} (hc : c ∈ copies shares) :
    ∃ i : Nat, i < shares.length ∧ (g.placesOf shares).getD c.1 0 = i := by
  obtain ⟨es, hshare, -⟩ := mem_copies.mp hc
  obtain ⟨i, hi⟩ := List.getElem?_of_mem hshare
  exact ⟨i, (List.getElem?_eq_some_iff.mp hi).1, getD_placesOf hnd hlt hi⟩

theorem edges_renumber (goal : NodeId) {before after : List (NodeId × List EdgeId)} {n : NodeId}
    {es : List EdgeId} (hsplit : shares = before ++ (n, es) :: after) :
    ((g.renumber shares goal).node before.length).edges =
      List.range' (copies before).length es.length := by
  have hcopies : copies shares = copies before ++ (es.map (fun e => (n, e)) ++ copies after) := by
    simp [copies, hsplit]
  have hplaces : ∀ c ∈ copies shares, (g.placesOf shares).getD c.1 0 < shares.length := by
    intro c hc
    obtain ⟨i, hi, hplace⟩ := exists_place hnd hlt hc
    exact hplace ▸ hi
  have hplace : ∀ (i : Nat) (share : NodeId × List EdgeId), shares[i]? = some share →
      (g.placesOf shares).getD share.1 0 = i := fun _ _ => getD_placesOf hnd hlt
  have hbefore : ∀ c ∈ copies before, (g.placesOf shares).getD c.1 0 ≠ before.length := by
    intro c hc
    obtain ⟨es', hshare, -⟩ := mem_copies.mp hc
    obtain ⟨i, hi⟩ := List.getElem?_of_mem hshare
    have hlen := (List.getElem?_eq_some_iff.mp hi).1
    rw [hplace i (c.1, es') (by rw [hsplit, List.getElem?_append_left hlen, hi])]
    exact Nat.ne_of_lt hlen
  have hown : (g.placesOf shares).getD n 0 = before.length := by
    refine hplace _ (n, es) ?_
    rw [hsplit, List.getElem?_append_right (Nat.le_refl _), Nat.sub_self, List.getElem?_cons_zero]
  have hafter : ∀ c ∈ copies after, (g.placesOf shares).getD c.1 0 ≠ before.length := by
    intro c hc
    obtain ⟨es', hshare, -⟩ := mem_copies.mp hc
    obtain ⟨i, hi⟩ := List.getElem?_of_mem hshare
    have hget : shares[before.length + (i + 1)]? = some (c.1, es') := by
      rw [hsplit, List.getElem?_append_right (Nat.le_add_right _ _), Nat.add_sub_cancel_left,
        List.getElem?_cons_succ, hi]
    rw [hplace _ _ hget]
    omega
  rw [renumber_eq]
  refine (edges_foldl_addCopy g _ _ hplaces _).trans ?_
  rw [hcopies, List.zipIdx_append, List.zipIdx_append, List.filter_append, List.filter_append,
    List.filter_eq_nil_iff.mpr fun c hc h =>
      hbefore c.1 (List.fst_mem_of_mem_zipIdx hc) (of_decide_eq_true h),
    List.filter_eq_self.mpr fun c hc => ?_, List.filter_eq_nil_iff.mpr fun c hc h =>
      hafter c.1 (List.fst_mem_of_mem_zipIdx hc) (of_decide_eq_true h), List.nil_append,
    List.append_nil, List.zipIdx_map_snd, List.length_map, Nat.zero_add]
  obtain ⟨e, -, he⟩ := List.mem_map.mp (List.fst_mem_of_mem_zipIdx hc)
  exact decide_eq_true (he ▸ hown)

theorem flatMap_edges_renumber (goal : NodeId) :
    (List.range shares.length).flatMap (fun i => ((g.renumber shares goal).node i).edges) =
      List.range (copies shares).length := by
  suffices key : ∀ before after, shares = before ++ after →
      (List.range before.length).flatMap (fun i => ((g.renumber shares goal).node i).edges) =
        List.range (copies before).length from key shares [] (List.append_nil shares).symm
  intro before
  induction before using List.reverseRecOn with
  | nil => exact fun _ _ => rfl
  | append_singleton before share ih =>
    intro after hsplit
    have hsplit : shares = before ++ share :: after := by rw [hsplit, List.append_assoc]; rfl
    have hlen : (copies (before ++ [share])).length = (copies before).length + share.2.length := by
      simp [copies]
    rw [List.length_append, List.length_singleton, List.range_succ, List.flatMap_append,
      ih _ hsplit, List.flatMap_singleton, edges_renumber hnd hlt goal hsplit, hlen,
      List.range_eq_range', List.range_eq_range', ← List.range'_append_1, Nat.zero_add]

theorem links_renumber (goal : NodeId) {before after : List (NodeId × List EdgeId)} {n : NodeId}
    {es : List EdgeId} (hsplit : shares = before ++ (n, es) :: after) :
    ((g.renumber shares goal).links before.length).map (·.2) =
      es.flatMap fun e => (g.edge e).tails.map fun t => (g.placesOf shares).getD t 0 := by
  obtain ⟨-, -, -, hedge⟩ := renumber_spec hnd hlt goal
  have hcopies : copies shares = copies before ++ (es.map (fun e => (n, e)) ++ copies after) := by
    simp [copies, hsplit]
  rw [map_snd_links, edges_renumber hnd hlt goal hsplit, List.flatMap_def, List.flatMap_def]
  refine congrArg List.flatten (List.ext_getElem (by simp) fun j hj hj' => ?_)
  rw [List.length_map] at hj'
  have hget : (copies shares)[(copies before).length + j]? = some (n, es[j]) := by
    rw [hcopies, List.getElem?_append_right (Nat.le_add_right _ _), Nat.add_sub_cancel_left,
      List.getElem?_append_left (by simpa using hj'), List.getElem?_map,
      List.getElem?_eq_getElem hj', Option.map_some]
  rw [List.getElem_map, List.getElem_map, List.getElem_range', Nat.one_mul, hedge _ _ hget]
  rfl

theorem map_copyOf_renumber (goal : NodeId) :
    (copies shares).map (g.copyOf (g.placesOf shares) 0) =
      (List.range (copies shares).length).map fun k =>
        { (g.renumber shares goal).edge k with id := 0 } := by
  obtain ⟨-, -, -, hedge⟩ := renumber_spec hnd hlt goal
  refine List.ext_getElem (by simp) fun k hk hk' => ?_
  rw [List.length_map] at hk
  rw [List.getElem_map, List.getElem_map, List.getElem_range,
    hedge k _ (List.getElem?_eq_getElem hk)]
  rfl

end

/-! ## The second sorting -/

namespace WellFormed

variable {goal : Nat} (hw : g.WellFormed goal)
include hw

theorem owned : g.Owned := by
  refine ⟨fun n e => hw.of_mem_edges, fun n => List.nodup_iff_count_le_one.mpr fun e => ?_⟩
  by_cases he : (show Nat from e) < g.edges.size
  · obtain ⟨head, -, -, hcount⟩ := hw.once e he
    rw [hcount n]
    split
    · exact Nat.le_refl 1
    · exact Nat.zero_le 1
  · rw [List.count_eq_zero.mpr fun hmem => he (hw.inside n e hmem)]
    exact Nat.zero_le 1

theorem tailsInside : g.TailsInside := by
  intro e he t ht
  obtain ⟨head, hlt, hhead, -⟩ := hw.once e he
  exact Nat.lt_trans (hw.below e head hhead t ht) hlt

theorem descending : g.Descending where
  tails n e he := hw.below e n (hw.of_mem_edges he).2.2
  derived n hn := (hw.derived n hn).imp fun _ he => he.1

end WellFormed

def found (g : Hypergraph V) (goal : NodeId) : List (NodeId × List EdgeId) :=
  (g.searchFrom goal).order.map fun n => (n, (g.node n).edges)

theorem map_fst_found (g : Hypergraph V) (goal : NodeId) :
    (g.found goal).map (·.1) = (g.searchFrom goal).order := by
  simp only [found, List.map_map, Function.comp_def, List.map_id']

theorem getElem?_found {goal n : NodeId} {i : Nat} (h : (g.searchFrom goal).order[i]? = some n) :
    (g.found goal)[i]? = some (n, (g.node n).edges) := by
  rw [found, List.getElem?_map, h, Option.map_some]

theorem nodup_found {goal : Nat} (hlt : goal < g.nodes.size) :
    ((g.found goal).map (·.1)).Nodup := map_fst_found g goal ▸ nodup_order hlt

namespace Descending

variable {goal : Nat} (hd : g.Descending) (hl : g.Owned) (hin : g.TailsInside)
  (hlt : goal < g.nodes.size)
include hd hl hin hlt

theorem remaining_eq : g.remaining goal = (g.searchFrom goal).order := by
  refine List.filter_eq_self.mpr fun n hn => ?_
  have hreach := (searching_searchFrom hlt).reached n (Or.inr (List.mem_reverse.mp hn))
  exact (mem_remaining.mp (hd.mem_remaining_of_reaches hl hin hlt hreach)).2

theorem keptEdges_eq {n : NodeId} (hn : n ∈ g.remaining goal) :
    g.keptEdges goal n = (g.node n).edges :=
  List.filter_eq_self.mpr fun _ he =>
    (List.mem_filter.mp (hd.mem_keptEdges hl hin hlt hn he)).2

theorem sorted_eq (hg : g.goal = some goal) : g.sorted = g.renumber (g.found goal) goal := by
  rw [sorted_eq_renumber hl hg hlt (hd.hasNode_goal hl hin hlt), found,
    ← hd.remaining_eq hl hin hlt]
  exact congrArg (g.renumber · goal) (List.map_congr_left fun n hn =>
    congrArg (n, ·) (hd.keptEdges_eq hl hin hlt hn))

theorem lt_of_mem_found : ∀ n ∈ (g.found goal).map (·.1), (show Nat from n) < g.nodes.size := by
  rw [map_fst_found, ← hd.remaining_eq hl hin hlt]
  exact fun n hn => lt_of_mem_remaining hlt hn

theorem linksCopied_found : LinksCopied g (g.renumber (g.found goal) goal)
    (g.searchFrom goal).order fun n => (g.placesOf (g.found goal)).getD n 0 := by
  have hnd := nodup_found hlt
  have hsub := hd.lt_of_mem_found hl hin hlt
  obtain ⟨-, hsize, -, -⟩ := renumber_spec hnd hsub goal
  have hget : ∀ n ∈ (g.searchFrom goal).order,
      (g.found goal)[(g.placesOf (g.found goal)).getD n 0]? = some (n, (g.node n).edges) := by
    intro n hn
    obtain ⟨i, hi⟩ := List.getElem?_of_mem hn
    have hget := getElem?_found hi
    rwa [getD_placesOf hnd hsub hget]
  refine ⟨map_fst_found g goal ▸ hsub, fun n hn => ?_, fun n hn m hm heq => ?_,
    fun n hn l hlink => ?_, fun n hn => ?_⟩
  · rw [hsize]
    exact (List.getElem?_eq_some_iff.mp (hget n hn)).1
  · have hshare := hget n hn
    rw [heq, hget m hm] at hshare
    exact congrArg Prod.fst (Option.some.inj hshare).symm
  · rw [← hd.remaining_eq hl hin hlt] at hn ⊢
    obtain ⟨he, ht⟩ := mem_links.mp hlink
    exact tail_mem_remaining hl hin hlt n hn _ (hd.mem_keptEdges hl hin hlt hn he) _ ht
  · obtain ⟨before, after, horder⟩ := List.append_of_mem hn
    have hfound : g.found goal = before.map (fun n => (n, (g.node n).edges)) ++
        (n, (g.node n).edges) :: after.map fun n => (n, (g.node n).edges) := by
      rw [found, horder, List.map_append, List.map_cons]
    have hbefore : (g.searchFrom goal).order[before.length]? = some n := by
      rw [horder, List.getElem?_append_right (Nat.le_refl _), Nat.sub_self, List.getElem?_cons_zero]
    have hplace := getD_placesOf hnd hsub (getElem?_found hbefore)
    rw [← List.length_map fun n => (n, (g.node n).edges)] at hplace
    rw [hplace, links_renumber hnd hsub goal hfound, links, List.map_flatMap]
    simp only [List.map_map, Function.comp_def]

theorem goal_sorted (hg : g.goal = some goal) :
    g.sorted.goal = some ((g.placesOf (g.found goal)).getD goal 0) := by
  rw [hd.sorted_eq hl hin hlt hg, renumber_eq]
  rfl

theorem order_sorted (hg : g.goal = some goal) (top : Nat) (htop : g.sorted.goal = some top) :
    (g.sorted.searchFrom top).order = List.range g.sorted.nodes.size := by
  have hnd := nodup_found hlt
  have hsub := hd.lt_of_mem_found hl hin hlt
  obtain ⟨-, hsize, -, -⟩ := renumber_spec hnd hsub goal
  have hplace := Option.some.inj (htop.symm.trans (hd.goal_sorted hl hin hlt hg))
  rw [hplace, hd.sorted_eq hl hin hlt hg,
    (hd.linksCopied_found hl hin hlt).order_searchFrom (goal_mem_order hlt), hsize,
    ← List.length_map (·.1), map_fst_found]
  refine List.ext_getElem (by simp) fun i hi hi' => ?_
  rw [List.length_map] at hi
  rw [List.getElem_map, List.getElem_range]
  exact getD_placesOf hnd hsub (getElem?_found (List.getElem?_eq_getElem hi))

end Descending

namespace WellFormed

variable {top : Nat} (hw : g.WellFormed top)
  (horder : (g.searchFrom top).order = List.range g.nodes.size)
include hw horder

theorem getD_placesOf_found {n : Nat} (hn : n < g.nodes.size) :
    (g.placesOf (g.found top)).getD n 0 = n := by
  have hlt : ∀ n ∈ (g.found top).map (·.1), (show Nat from n) < g.nodes.size := by
    rw [map_fst_found, horder]
    exact fun n hn => List.mem_range.mp hn
  have hget : (g.searchFrom top).order[n]? = some n := by
    rw [horder, List.getElem?_range hn]
  exact getD_placesOf (nodup_found hw.goal_lt) hlt (getElem?_found hget)

theorem map_copyOf_found (hedges : (List.range g.nodes.size).flatMap (fun n => (g.node n).edges) =
      List.range g.edges.size) :
    (copies (g.found top)).map (g.copyOf (g.placesOf (g.found top)) 0) =
      (List.range g.edges.size).map fun k => { g.edge k with id := 0 } := by
  have hcopy : ∀ c ∈ copies (g.found top), g.copyOf (g.placesOf (g.found top)) 0 c =
      { g.edge c.2 with id := 0 } := by
    intro c hc
    obtain ⟨es, hshare, he⟩ := mem_copies.mp hc
    obtain ⟨n, -, hn⟩ := List.mem_map.mp hshare
    cases hn
    obtain ⟨-, hn, hhead⟩ := hw.of_mem_edges he
    have htails : (g.edge c.2).tails.map (fun t => (g.placesOf (g.found top)).getD t 0) =
        (g.edge c.2).tails := by
      refine (List.map_congr_left fun t ht => ?_).trans (List.map_id _)
      exact hw.getD_placesOf_found horder (Nat.lt_trans (hw.below _ _ hhead t ht) hn)
    rw [copyOf, hw.getD_placesOf_found horder hn, htails, ← hhead]
  have hnumbers : (copies (g.found top)).map (·.2) = List.range g.edges.size := by
    rw [← hedges, copies, found, horder]
    simp only [List.flatMap_map, List.map_flatMap, List.map_map, Function.comp_def, List.map_id']
  rw [List.map_congr_left hcopy, ← hnumbers, List.map_map]
  rfl

end WellFormed

/-- Sorting a sorted graph changes nothing, not even a number, when the first sorting drops nothing
that the goal reaches. -/
theorem Descending.sorted_sorted {goal : Nat} (hd : g.Descending) (hl : g.Owned)
    (hin : g.TailsInside) (hlt : goal < g.nodes.size) (hg : g.goal = some goal) :
    g.sorted.sorted = g.sorted := by
  have hnd := nodup_found hlt
  have hsub := hd.lt_of_mem_found hl hin hlt
  obtain ⟨⟨top, hw⟩, -⟩ := wellFormed_sorted_of_hasNode hl hin hg hlt
    (hd.hasNode_goal hl hin hlt)
  have hsorted := hd.sorted_eq hl hin hlt hg
  obtain ⟨-, hsize, hsizeEdges, -⟩ := renumber_spec hnd hsub goal
  have hedges := flatMap_edges_renumber hnd hsub goal
  have hcopies := map_copyOf_renumber hnd hsub goal
  rw [← hsorted] at hsize hsizeEdges hedges hcopies
  rw [← hsize, ← hsizeEdges] at hedges
  rw [← hsizeEdges] at hcopies
  have horder := hd.order_sorted hl hin hlt hg top hw.goal_eq
  have hagain : (g.sorted.found top).length = (g.found goal).length := by
    rw [found, List.length_map, horder, List.length_range, hsize]
  have htop := Option.some.inj (hw.goal_eq.symm.trans (hd.goal_sorted hl hin hlt hg))
  calc g.sorted.sorted
      = g.sorted.renumber (g.sorted.found top) top :=
        hw.descending.sorted_eq hw.owned hw.tailsInside hw.goal_lt hw.goal_eq
    _ = g.renumber (g.found goal) goal := by
        rw [renumber_eq_foldl, renumber_eq_foldl, hw.map_copyOf_found horder hedges, ← hcopies,
          hagain, hw.getD_placesOf_found horder hw.goal_lt, htop]
    _ = g.sorted := hsorted.symm

end ParseForest.Hypergraph
