import Mathlib.Data.List.Nodup
import Mathlib.Logic.Relation
import ParseForest.Hypergraph.Search

/-!
# What the search finds

The search from a node finishes each node that the links lead to from there once, and a node after
the tails of its edges, unless an edge was noted as cyclic. An edge that is noted as cyclic closes
a cycle. The invariant speaks of the stack: a frame has dealt with the links that are gone from
it, but for the one on top of which the frame above stands.
-/

namespace ParseForest

variable {V : Type}

namespace Hypergraph

def Link (g : Hypergraph V) (n t : Nat) : Prop := ∃ e, (e, t) ∈ g.links n

def Reaches (g : Hypergraph V) : Nat → Nat → Prop := Relation.ReflTransGen g.Link

theorem mem_links {g : Hypergraph V} {n : Nat} {e : EdgeId} {t : Nat} :
    (e, t) ∈ g.links n ↔ e ∈ (g.node n).edges ∧ t ∈ (g.edge e).tails := by
  simp only [links, List.mem_flatMap, List.mem_map]
  constructor
  · rintro ⟨e', he, t', ht, heq⟩
    cases heq
    exact ⟨he, ht⟩
  · rintro ⟨he, ht⟩
    exact ⟨e, he, t, ht, rfl⟩

theorem le_of_reaches {g : Hypergraph V}
    (hdesc : ∀ n : Nat, ∀ l ∈ g.links n, (show Nat from l.2) < n) {n t : Nat}
    (h : g.Reaches n t) : t ≤ n := by
  induction h with
  | refl => exact Nat.le_refl n
  | tail _ hlink ih =>
    obtain ⟨e, he⟩ := hlink
    exact Nat.le_trans (Nat.le_of_lt (hdesc _ _ he)) ih

theorem follow_link (g : Hypergraph V) (n t : Nat) (e : EdgeId) (links : List (EdgeId × NodeId))
    (rest : SearchStack) (s : Search) :
    g.follow ((n, (e, t) :: links) :: rest) s =
      match s.marks[t]? with
      | some .unvisited => g.follow ((t, g.links t) :: (n, links) :: rest) (s.enter t)
      | some .underway => g.follow ((n, links) :: rest) (s.noteCyclic e)
      | some .finished => g.follow ((n, links) :: rest) s
      | none => g.follow ((n, links) :: rest) s := by
  rw [follow]
  split <;> simp only [*]

def Dealt (g : Hypergraph V) (cyclic : List EdgeId) (finished : List NodeId) (above : Option Nat)
    (l : EdgeId × NodeId) : Prop :=
  l.1 ∈ cyclic ∨ l.2 ∈ finished ∨ some l.2 = above ∨ g.nodes.size ≤ l.2

def Frames (g : Hypergraph V) (cyclic : List EdgeId) (finished : List NodeId) :
    (above : Option Nat) → SearchStack → Prop
  | _, [] => True
  | above, (n, left) :: rest =>
    (∃ seen, g.links n = seen ++ left ∧ ∀ l ∈ seen, Dealt g cyclic finished above l) ∧
      (∀ m, above = some m → g.Link n m) ∧ Frames g cyclic finished (some n) rest

def Settled (g : Hypergraph V) (cyclic : List EdgeId) : (finished : List NodeId) → Prop
  | [] => True
  | n :: before =>
    (∀ l ∈ g.links n, Dealt g cyclic before none l) ∧ Settled g cyclic before

variable {g : Hypergraph V} {cyclic cyclic' : List EdgeId} {finished finished' : List NodeId}

theorem Dealt.mono {above : Option Nat} {l : EdgeId × NodeId}
    (hc : ∀ e ∈ cyclic, e ∈ cyclic') (hf : ∀ n ∈ finished, n ∈ finished')
    (h : Dealt g cyclic finished above l) : Dealt g cyclic' finished' above l := by
  rcases h with h | h | h | h
  · exact Or.inl (hc _ h)
  · exact Or.inr (Or.inl (hf _ h))
  · exact Or.inr (Or.inr (Or.inl h))
  · exact Or.inr (Or.inr (Or.inr h))

theorem Frames.mono {above : Option Nat} {stack : SearchStack}
    (hc : ∀ e ∈ cyclic, e ∈ cyclic') (hf : ∀ n ∈ finished, n ∈ finished')
    (h : Frames g cyclic finished above stack) : Frames g cyclic' finished' above stack := by
  induction stack generalizing above with
  | nil => trivial
  | cons frame rest ih =>
    obtain ⟨⟨seen, heq, hseen⟩, hlink, hrest⟩ := h
    exact ⟨⟨seen, heq, fun l hl => (hseen l hl).mono hc hf⟩, hlink, ih hrest⟩

theorem Frames.leave {n : Nat} {stack : SearchStack} (h : Frames g cyclic finished (some n) stack) :
    Frames g cyclic (n :: finished) none stack := by
  cases stack with
  | nil => trivial
  | cons frame rest =>
    obtain ⟨⟨seen, heq, hseen⟩, -, hrest⟩ := h
    refine ⟨⟨seen, heq, fun l hl => ?_⟩, (fun m hm => by cases hm),
      hrest.mono (fun _ he => he) fun _ hn => List.mem_cons_of_mem n hn⟩
    rcases hseen l hl with h | h | h | h
    · exact Or.inl h
    · exact Or.inr (Or.inl (List.mem_cons_of_mem n h))
    · exact Or.inr (Or.inl (Option.some.inj h ▸ List.mem_cons_self))
    · exact Or.inr (Or.inr (Or.inr h))

theorem Settled.mono (hc : ∀ e ∈ cyclic, e ∈ cyclic') (h : Settled g cyclic finished) :
    Settled g cyclic' finished := by
  induction finished with
  | nil => trivial
  | cons n before ih =>
    exact ⟨fun l hl => (h.1 l hl).mono hc fun _ hn => hn, ih h.2⟩

theorem Settled.of_append {after : List NodeId} (h : Settled g cyclic (after ++ finished)) :
    Settled g cyclic finished := by
  induction after with
  | nil => exact h
  | cons n after ih => exact ih h.2

theorem Settled.mem_before {n : NodeId} {before : List NodeId}
    (h : Settled g cyclic (n :: before)) {e : EdgeId} {t : NodeId} (hlink : (e, t) ∈ g.links n)
    (hlt : (show Nat from t) < g.nodes.size) (hc : e ∉ cyclic) : t ∈ before := by
  rcases h.1 (e, t) hlink with h | h | h | h
  · exact absurd h hc
  · exact h
  · cases h
  · exact absurd h (Nat.not_le.mpr hlt)

theorem Frames.reaches {n : Nat} {stack : SearchStack} (h : Frames g cyclic finished (some n) stack)
    {m : Nat} (hm : m ∈ stack.map (·.1)) : g.Reaches m n := by
  induction stack generalizing n with
  | nil => cases hm
  | cons frame rest ih =>
    obtain ⟨-, hlink, hrest⟩ := h
    have hstep : g.Link frame.1 n := hlink n rfl
    rcases List.mem_cons.mp hm with rfl | hm
    · exact Relation.ReflTransGen.single hstep
    · exact (ih hrest hm).tail hstep

/-- What holds of the search from `goal` at each moment. -/
structure Searching (g : Hypergraph V) (goal : Nat) (stack : SearchStack) (s : Search) : Prop where
  size : s.marks.size = g.nodes.size
  underway : ∀ n : Nat, s.marks[n]? = some .underway ↔ n ∈ stack.map (·.1)
  finished : ∀ n : Nat, s.marks[n]? = some .finished ↔ n ∈ s.finished
  distinct : (stack.map (·.1)).Nodup
  once : s.finished.Nodup
  reached : ∀ n : Nat, n ∈ stack.map (·.1) ∨ n ∈ s.finished → g.Reaches goal n
  frames : Frames g s.cyclic s.finished none stack
  settled : Settled g s.cyclic s.finished
  cyclic : ∀ e ∈ s.cyclic, ∃ n t, (e, t) ∈ g.links n ∧ g.Reaches t n
  root : goal ∈ stack.map (·.1) ∨ goal ∈ s.finished
  pending : ∀ f ∈ stack, ∀ l ∈ g.links f.1, l ∈ f.2 ∨ s.marks[l.2]? ≠ some .unvisited
  closed : ∀ n ∈ s.finished, ∀ l ∈ g.links n, s.marks[l.2]? ≠ some .unvisited

namespace Searching

variable {goal n : Nat} {s : Search} {rest : SearchStack} {left : List (EdgeId × NodeId)}

theorem marks_leave (hn : s.marks[n]? = some .underway) (m : Nat) :
    (s.leave n).marks[m]? = if n = m then some .finished else s.marks[m]? := by
  simp only [Search.leave, Array.getElem?_setIfInBounds,
    if_pos (Array.getElem?_eq_some_iff.mp hn).1]

theorem marks_enter {t : Nat} (ht : s.marks[t]? = some .unvisited) (m : Nat) :
    (s.enter t).marks[m]? = if t = m then some .underway else s.marks[m]? := by
  simp only [Search.enter, Array.getElem?_setIfInBounds,
    if_pos (Array.getElem?_eq_some_iff.mp ht).1]

theorem visited_leave (hn : s.marks[n]? = some .underway) {m : Nat}
    (hm : s.marks[m]? ≠ some .unvisited) : (s.leave n).marks[m]? ≠ some .unvisited := by
  rw [marks_leave hn]
  split
  · simp
  · exact hm

theorem visited_enter {t : Nat} (ht : s.marks[t]? = some .unvisited) {m : Nat}
    (hm : s.marks[m]? ≠ some .unvisited) : (s.enter t).marks[m]? ≠ some .unvisited := by
  rw [marks_enter ht]
  split
  · simp
  · exact hm

theorem leave (h : Searching g goal ((n, []) :: rest) s) : Searching g goal rest (s.leave n) := by
  have hn : s.marks[n]? = some .underway := (h.underway n).mpr List.mem_cons_self
  have hnf : n ∉ s.finished := by
    intro hmem
    rw [← h.finished, hn] at hmem
    cases hmem
  obtain ⟨hnr, hdis⟩ := List.nodup_cons.mp h.distinct
  obtain ⟨⟨seen, heq, hseen⟩, -, hrest⟩ := h.frames
  refine ⟨?_, fun m => ?_, fun m => ?_, hdis, ?_, fun m hm => ?_, hrest.leave, ⟨?_, h.settled⟩,
    h.cyclic, ?_, fun f hf l hl => ?_, fun m hm l hl => ?_⟩
  · simp [Search.leave, h.size]
  · rw [marks_leave hn]
    split
    · rename_i heq
      subst heq
      exact iff_of_false (by simp) hnr
    · rename_i hne
      rw [h.underway, List.map_cons, List.mem_cons]
      exact or_iff_right (Ne.symm hne)
  · rw [marks_leave hn]
    split
    · rename_i heq
      subst heq
      exact iff_of_true rfl List.mem_cons_self
    · rename_i hne
      rw [h.finished]
      exact (List.mem_cons.trans (or_iff_right (Ne.symm hne))).symm
  · exact List.nodup_cons.mpr ⟨hnf, h.once⟩
  · refine h.reached m ?_
    rcases hm with hm | hm
    · exact Or.inl (List.mem_cons_of_mem _ hm)
    · rcases List.mem_cons.mp hm with rfl | hm
      · exact Or.inl List.mem_cons_self
      · exact Or.inr hm
  · intro l hl
    rw [heq, List.append_nil] at hl
    exact hseen l hl
  · rcases h.root with hr | hr
    · rcases List.mem_cons.mp hr with heq | hr
      · exact Or.inr (heq ▸ List.mem_cons_self)
      · exact Or.inl hr
    · exact Or.inr (List.mem_cons_of_mem _ hr)
  · exact (h.pending f (List.mem_cons_of_mem _ hf) l hl).imp_right (visited_leave hn)
  · refine visited_leave hn ?_
    rcases List.mem_cons.mp hm with rfl | hm
    · exact (h.pending _ List.mem_cons_self l hl).resolve_left List.not_mem_nil
    · exact h.closed m hm l hl

theorem Frames.pass {e : EdgeId} {t : Nat} {above : Option Nat}
    (h : Frames g cyclic finished none ((n, (e, t) :: left) :: rest))
    (hdealt : Dealt g cyclic finished above (e, t)) (habove : ∀ m, above = some m → g.Link n m) :
    Frames g cyclic finished above ((n, left) :: rest) := by
  obtain ⟨⟨seen, heq, hseen⟩, -, hrest⟩ := h
  refine ⟨⟨seen ++ [(e, t)], by rw [heq]; simp, fun l hl => ?_⟩, habove, hrest⟩
  rcases List.mem_append.mp hl with hl | hl
  · rcases hseen l hl with h | h | h | h
    · exact Or.inl h
    · exact Or.inr (Or.inl h)
    · cases h
    · exact Or.inr (Or.inr (Or.inr h))
  · rw [List.mem_singleton.mp hl]
    exact hdealt

theorem link_of_frame {e : EdgeId} {t : Nat} {above : Option Nat}
    (h : Frames g cyclic finished above ((n, (e, t) :: left) :: rest)) : (e, t) ∈ g.links n := by
  obtain ⟨⟨seen, heq, -⟩, -⟩ := h
  rw [heq]
  exact List.mem_append_right _ List.mem_cons_self

theorem pending_pass {e : EdgeId} {t : Nat} {s' : Search}
    (h : Searching g goal ((n, (e, t) :: left) :: rest) s)
    (ht : s'.marks[t]? ≠ some .unvisited)
    (hvisited : ∀ m : Nat, s.marks[m]? ≠ some .unvisited → s'.marks[m]? ≠ some .unvisited) :
    ∀ f ∈ (n, left) :: rest, ∀ l ∈ g.links f.1, l ∈ f.2 ∨ s'.marks[l.2]? ≠ some .unvisited := by
  intro f hf l hl
  rcases List.mem_cons.mp hf with rfl | hf
  · rcases h.pending _ List.mem_cons_self l hl with hmem | hmem
    · rcases List.mem_cons.mp hmem with rfl | hmem
      · exact Or.inr ht
      · exact Or.inl hmem
    · exact Or.inr (hvisited l.2 hmem)
  · exact (h.pending f (List.mem_cons_of_mem _ hf) l hl).imp_right (hvisited l.2)

theorem enter {e : EdgeId} {t : Nat} (h : Searching g goal ((n, (e, t) :: left) :: rest) s)
    (ht : s.marks[t]? = some .unvisited) :
    Searching g goal ((t, g.links t) :: (n, left) :: rest) (s.enter t) := by
  have hlink : g.Link n t := ⟨e, link_of_frame h.frames⟩
  have hts : t ∉ ((n, (e, t) :: left) :: rest).map (·.1) := by
    rw [← h.underway, ht]
    simp
  have htf : t ∉ s.finished := by
    rw [← h.finished, ht]
    simp
  refine ⟨?_, fun m => ?_, fun m => ?_, List.nodup_cons.mpr ⟨hts, h.distinct⟩, h.once,
    fun m hm => ?_, ⟨⟨[], rfl, by simp⟩, (fun m hm => by cases hm), ?_⟩, h.settled, h.cyclic, ?_,
    fun f hf l hl => ?_, fun m hm l hl => visited_enter ht (h.closed m hm l hl)⟩
  · simp [Search.enter, h.size]
  · rw [marks_enter ht, List.map_cons, List.mem_cons]
    split
    · rename_i heq
      exact iff_of_true rfl (Or.inl heq.symm)
    · rename_i hne
      rw [h.underway]
      exact (or_iff_right (Ne.symm hne)).symm
  · rw [marks_enter ht]
    split
    · rename_i heq
      subst heq
      exact iff_of_false (by simp) htf
    · exact h.finished m
  · rcases hm with hm | hm
    · rcases List.mem_cons.mp hm with rfl | hm
      · exact (h.reached n (Or.inl List.mem_cons_self)).tail hlink
      · exact h.reached m (Or.inl hm)
    · exact h.reached m (Or.inr hm)
  · refine Frames.pass h.frames (Or.inr (Or.inr (Or.inl rfl))) fun m hm => ?_
    cases hm
    exact hlink
  · rcases h.root with hr | hr
    · exact Or.inl (List.mem_cons_of_mem _ hr)
    · exact Or.inr hr
  · rcases List.mem_cons.mp hf with rfl | hf
    · exact Or.inl hl
    · have htv : (s.enter t).marks[t]? ≠ some .unvisited := by simp [marks_enter ht]
      exact h.pending_pass htv (fun _ => visited_enter ht) f hf l hl

theorem noteCyclic {e : EdgeId} {t : Nat} (h : Searching g goal ((n, (e, t) :: left) :: rest) s)
    (ht : s.marks[t]? = some .underway) :
    Searching g goal ((n, left) :: rest) (s.noteCyclic e) := by
  have hcyc : ∀ e' ∈ s.cyclic, e' ∈ (s.noteCyclic e).cyclic := fun e' he =>
    List.mem_cons_of_mem e he
  have hlink := link_of_frame h.frames
  refine ⟨h.size, h.underway, h.finished, h.distinct, h.once, h.reached, ?_, h.settled.mono hcyc,
    fun e' he => ?_, h.root, h.pending_pass ?_ fun _ hm => hm, h.closed⟩
  · exact Frames.pass (h.frames.mono hcyc fun _ hn => hn) (Or.inl List.mem_cons_self)
      fun m hm => by cases hm
  · rcases List.mem_cons.mp he with rfl | he
    · refine ⟨n, t, hlink, ?_⟩
      rcases List.mem_cons.mp ((h.underway t).mp ht) with heq | hmem
      · rw [heq]
        exact Relation.ReflTransGen.refl
      · exact Frames.reaches h.frames.2.2 hmem
    · exact h.cyclic e' he
  · change s.marks[t]? ≠ _
    rw [ht]
    simp

theorem pass {e : EdgeId} {t : Nat} (h : Searching g goal ((n, (e, t) :: left) :: rest) s)
    (ht : s.marks[t]? = some .finished ∨ s.marks[t]? = none) :
    Searching g goal ((n, left) :: rest) s := by
  have htv : s.marks[t]? ≠ some .unvisited := by
    rcases ht with ht | ht <;> simp [ht]
  refine ⟨h.size, h.underway, h.finished, h.distinct, h.once, h.reached, ?_, h.settled, h.cyclic,
    h.root, h.pending_pass htv fun _ hm => hm, h.closed⟩
  refine Frames.pass h.frames ?_ fun m hm => by cases hm
  rcases ht with ht | ht
  · exact Or.inr (Or.inl ((h.finished t).mp ht))
  · rw [Array.getElem?_eq_none_iff, h.size] at ht
    exact Or.inr (Or.inr (Or.inr ht))

theorem follow {stack : SearchStack} (h : Searching g goal stack s) :
    Searching g goal [] (g.follow stack s) := by
  fun_induction Hypergraph.follow g stack s with
  | case1 s => exact h
  | case2 s n rest ih => exact ih h.leave
  | case3 s n e t links rest ht ih => exact ih (h.enter ht)
  | case4 s n e t links rest ht ih => exact ih (h.noteCyclic ht)
  | case5 s n e t links rest ht ih => exact ih (h.pass (Or.inl ht))
  | case6 s n e t links rest ht ih => exact ih (h.pass (Or.inr ht))

end Searching

theorem searching_start {goal : Nat} (hgoal : goal < g.nodes.size) :
    Searching g goal [(goal, g.links goal)]
      (Search.enter ⟨Array.replicate g.nodes.size .unvisited, [], []⟩ goal) := by
  have hmark : ∀ m : Nat, (Search.enter ⟨Array.replicate g.nodes.size .unvisited, [], []⟩
      goal).marks[m]? = if goal = m then some .underway
        else if m < g.nodes.size then some .unvisited else none := by
    intro m
    simp only [Search.enter, Array.getElem?_setIfInBounds, Array.size_replicate,
      Array.getElem?_replicate, if_pos hgoal]
  refine ⟨by simp [Search.enter], fun m => ?_, fun m => ?_, List.nodup_singleton _,
    List.nodup_nil, fun m hm => ?_, ⟨⟨[], rfl, by simp⟩, (fun m hm => by cases hm), trivial⟩, trivial,
    (fun e he => by cases he), Or.inl List.mem_cons_self, fun f hf l hl => ?_,
    fun m hm => by cases hm⟩
  · rw [hmark]
    split
    · rename_i heq
      exact iff_of_true rfl (List.mem_singleton.mpr heq.symm)
    · rename_i hne
      refine iff_of_false (by split <;> simp) fun hm => hne (List.mem_singleton.mp hm).symm
  · rw [hmark]
    refine iff_of_false ?_ List.not_mem_nil
    split
    · simp
    · split <;> simp
  · rcases hm with hm | hm
    · rw [List.mem_singleton.mp hm]
      exact Relation.ReflTransGen.refl
    · cases hm
  · rw [List.mem_singleton.mp hf] at hl ⊢
    exact Or.inl hl

theorem searching_searchFrom {goal : Nat} (hgoal : goal < g.nodes.size) :
    Searching g goal [] (g.searchFrom goal) :=
  (searching_start hgoal).follow

/-! ## The finished search -/

section

variable {goal : Nat} (hgoal : goal < g.nodes.size)
include hgoal

theorem nodup_order : (g.searchFrom goal).order.Nodup :=
  List.nodup_reverse.mpr (searching_searchFrom hgoal).once

theorem goal_mem_order : goal ∈ (g.searchFrom goal).order :=
  List.mem_reverse.mpr ((searching_searchFrom hgoal).root.resolve_left List.not_mem_nil)

theorem mem_order_iff (htails : ∀ n : Nat, ∀ l ∈ g.links n, l.2 < g.nodes.size) {n : Nat} :
    n ∈ (g.searchFrom goal).order ↔ g.Reaches goal n := by
  have hs := searching_searchFrom hgoal
  constructor
  · intro hn
    exact hs.reached n (Or.inr (List.mem_reverse.mp hn))
  · intro hn
    induction hn with
    | refl => exact goal_mem_order hgoal
    | tail hreach hlink ih =>
      rename_i m t
      obtain ⟨e, he⟩ := hlink
      have hvisited := hs.closed m (List.mem_reverse.mp ih) (e, t) he
      have hlt : t < (g.searchFrom goal).marks.size := by
        rw [hs.size]
        exact htails m (e, t) he
      refine List.mem_reverse.mpr ((hs.finished t).mp ?_)
      have hunderway : (g.searchFrom goal).marks[t]? ≠ some .underway := by
        rw [ne_eq, hs.underway]
        exact List.not_mem_nil
      rw [Array.getElem?_eq_getElem hlt] at hvisited hunderway ⊢
      cases hm : (g.searchFrom goal).marks[t] with
      | unvisited => exact absurd (congrArg some hm) hvisited
      | underway => exact absurd (congrArg some hm) hunderway
      | finished => rfl

theorem exists_before (htails : ∀ n : Nat, ∀ l ∈ g.links n, l.2 < g.nodes.size) {n : NodeId}
    (hn : n ∈ (g.searchFrom goal).order) {e : EdgeId} {t : NodeId} (hlink : (e, t) ∈ g.links n)
    (hc : (g.searchFrom goal).isCyclic e = false) :
    ∃ before after, (g.searchFrom goal).order = before ++ n :: after ∧ t ∈ before := by
  obtain ⟨after, before, hsplit⟩ := List.append_of_mem (List.mem_reverse.mp hn)
  have hset := (searching_searchFrom hgoal).settled
  rw [hsplit] at hset
  refine ⟨before.reverse, after.reverse, by simp [Search.order, hsplit], List.mem_reverse.mpr ?_⟩
  refine hset.of_append.mem_before hlink (htails n _ hlink) fun he => ?_
  rw [Search.isCyclic, ← Bool.not_eq_true, List.contains_iff_mem] at hc
  exact hc he

theorem not_isCyclic_of_descending
    (hdesc : ∀ n : Nat, ∀ l ∈ g.links n, (show Nat from l.2) < n) (e : EdgeId) :
    (g.searchFrom goal).isCyclic e = false := by
  by_contra hcyc
  rw [Bool.not_eq_false, Search.isCyclic, List.contains_iff_mem] at hcyc
  obtain ⟨n, t, hlink, hback⟩ := (searching_searchFrom hgoal).cyclic e hcyc
  exact absurd (hdesc n _ hlink) (Nat.not_lt.mpr (le_of_reaches hdesc hback))

end

end Hypergraph

end ParseForest
