import ParseForest.Hypergraph.Unbinarized
import ParseForest.Proofs.Hypergraph.Sorted
import ParseForest.Proofs.Hypergraph.Yield

/-!
# Graphs with merged edges

A derivation over an edge with tails to be merged becomes one over a merged edge: the trees over
those tails are opened, and the trees below them take their places in the order of the rule. Done
from below this turns the derivations of a graph into those of a graph with merged edges, one for
one, and neither the words nor the features change.
-/

namespace ParseForest.Hypergraph

variable {V : Type} {g G : Hypergraph V} {bin : NodeId → Bool}
  {entry : EdgeId → List (Option EdgeId) → EdgeId}

/-! ## Opening trees -/

def openedTails (G : Hypergraph V) (t : NodeId) : Option EdgeId → List NodeId
  | none => [t]
  | some k => arrange (G.tailOrder k) (G.edge k).tails

def openedSymbols (G : Hypergraph V) (s : Symbol) : Option EdgeId → List Symbol
  | none => [s.unindexed]
  | some k => (((G.edge k).rule.map Rule.rhs).getD []).map Symbol.unindexed

def mergedSymbols (G : Hypergraph V) (choice : List (Option EdgeId)) :
    Symbol × Option Nat → List Symbol
  | (s, none) => [s]
  | (s, some i) => G.openedSymbols s (choice.getD i none)

def opened (G : Hypergraph V) (bin : NodeId → Bool) (t : NodeId) (y : Tree) : List Tree :=
  if bin t then arrange (G.tailOrder y.root) y.subtrees else [y]

def chosen (bin : NodeId → Bool) (t : NodeId) (y : Tree) : Option EdgeId :=
  if bin t then some y.root else none

def Offers (G : Hypergraph V) (bin : NodeId → Bool) (t : Nat) : Option EdgeId → Prop
  | none => bin t = false
  | some k => bin t = true ∧ k ∈ (G.node t).edges

def hasBinarized (g : Hypergraph V) (bin : NodeId → Bool) (e : EdgeId) : Bool :=
  (g.edge e).tails.any bin

section

variable (g G : Hypergraph V) (e : EdgeId) (choice : List (Option EdgeId))

def mergedRule : Option Rule :=
  (g.edge e).rule.map fun r => ⟨r.lhs, r.placed.flatMap (G.mergedSymbols choice)⟩

def mergedTails : List NodeId :=
  (g.tailOrder e).flatMap fun i =>
    G.openedTails ((g.edge e).tails.getD i 0) (choice.getD i none)

def mergedFeatures [Scalar V] : FeatureVector V :=
  ((g.tailOrder e).filterMap fun i => choice.getD i none).foldl
    (fun f k => FeatureVector.plus f (G.edge k).features) (g.edge e).features

structure MergedAs [Scalar V] (k : EdgeId) : Prop where
  rule : (G.edge k).rule = g.mergedRule G e choice
  tails : (G.edge k).tails = g.mergedTails G e choice
  features : (G.edge k).features = g.mergedFeatures G e choice

end

structure Choosable (g G : Hypergraph V) (bin : NodeId → Bool) (n : Nat) (e : EdgeId)
    (choice : List (Option EdgeId)) : Prop where
  listed : e ∈ (g.node n).edges
  binarized : g.hasBinarized bin e = true
  offered : List.Forall₂ (G.Offers bin) (g.edge e).tails choice

/-- `G` has the edges of `g`, but where tails are to be merged it has one edge for each choice,
under the number that `entry` gives. -/
structure Inlined [Scalar V] (g G : Hypergraph V) (bin : NodeId → Bool)
    (entry : EdgeId → List (Option EdgeId) → EdgeId) : Prop where
  fits : ∀ n : Nat, ∀ e ∈ (g.node n).edges, g.Fits e
  fits_merged : ∀ n : Nat, ∀ k ∈ (G.node n).edges, G.Fits k
  below : g.TailsBelow
  kept : ∀ n : Nat, ∀ e ∈ (g.node n).edges, g.hasBinarized bin e = false →
    e ∈ (G.node n).edges ∧ G.edge e = g.edge e
  merged : ∀ n e choice, Choosable g G bin n e choice →
    entry e choice ∈ (G.node n).edges ∧ MergedAs g G e choice (entry e choice)
  only : ∀ n : Nat, ∀ k ∈ (G.node n).edges,
    (k ∈ (g.node n).edges ∧ g.hasBinarized bin k = false) ∨
      ∃ e choice, Choosable g G bin n e choice ∧ k = entry e choice
  distinct : ∀ n n' e e' choice choice', Choosable g G bin n e choice →
    Choosable g G bin n' e' choice' → entry e choice = entry e' choice' →
      e = e' ∧ choice = choice'
  fresh : ∀ n n' e choice, Choosable g G bin n e choice →
    ∀ e' ∈ (g.node n').edges, entry e choice ≠ e'

def graft (g G : Hypergraph V) (bin : NodeId → Bool)
    (entry : EdgeId → List (Option EdgeId) → EdgeId) (e : EdgeId) (ys : List Tree) : Tree :=
  if g.hasBinarized bin e then
    .node (entry e (List.zipWith (chosen bin) (g.edge e).tails ys))
      ((g.tailOrder e).flatMap fun i =>
        G.opened bin ((g.edge e).tails.getD i 0) (ys.getD i default))
  else .node e ys

def graftAll (g G : Hypergraph V) (bin : NodeId → Bool)
    (entry : EdgeId → List (Option EdgeId) → EdgeId) : Tree → Tree
  | .node e below => g.graft G bin entry e (below.map (graftAll g G bin entry))

/-! ## Lists taken by position -/

section

variable {α β : Type}

theorem forall₂_getD {R : α → β → Prop} {xs : List α} {ys : List β} (h : List.Forall₂ R xs ys)
    {i : Nat} (hi : i < xs.length) (a : α) (b : β) : R (xs.getD i a) (ys.getD i b) := by
  have hi' : i < ys.length := h.length_eq ▸ hi
  have hget := h.get hi hi'
  simpa [List.getD_eq_getElem?_getD, hi, hi'] using hget

theorem forall₂_of_getD {R : α → β → Prop} {xs : List α} {ys : List β} (a : α) (b : β)
    (hlen : xs.length = ys.length) (h : ∀ i < xs.length, R (xs.getD i a) (ys.getD i b)) :
    List.Forall₂ R xs ys := by
  refine List.forall₂_iff_get.mpr ⟨hlen, fun i hi hi' => ?_⟩
  have hget := h i hi
  simpa [List.getD_eq_getElem?_getD, hi, hi'] using hget

theorem forall₂_flatMap {γ : Type} {R : β → γ → Prop} {f : α → List β} {f' : α → List γ}
    {xs : List α} (h : ∀ x ∈ xs, List.Forall₂ R (f x) (f' x)) :
    List.Forall₂ R (xs.flatMap f) (xs.flatMap f') := by
  induction xs with
  | nil => exact List.Forall₂.nil
  | cons x xs ih =>
    rw [List.flatMap_cons, List.flatMap_cons]
    exact List.rel_append (h x List.mem_cons_self)
      (ih fun y hy => h y (List.mem_cons_of_mem x hy))

theorem exists_parts {γ : Type} {R : β → γ → Prop} {f : Nat → List β} {order : List Nat}
    (hnd : order.Nodup) {zs : List γ} (h : List.Forall₂ R (order.flatMap f) zs) :
    ∃ part : Nat → List γ, zs = order.flatMap part ∧
      ∀ i ∈ order, List.Forall₂ R (f i) (part i) := by
  induction order generalizing zs with
  | nil =>
    rw [List.flatMap_nil, List.forall₂_nil_left_iff] at h
    exact ⟨fun _ => [], h, by simp⟩
  | cons i order ih =>
    obtain ⟨hi, hnd⟩ := List.nodup_cons.mp hnd
    rw [List.flatMap_cons] at h
    have hfirst := List.forall₂_take (f i).length h
    have hrest := List.forall₂_drop (f i).length h
    rw [List.take_left] at hfirst
    rw [List.drop_left] at hrest
    obtain ⟨part, hzs, hparts⟩ := ih hnd hrest
    have hother : ∀ j ∈ order, Function.update part i (zs.take (f i).length) j = part j :=
      fun j hj => Function.update_of_ne (fun heq : j = i => hi (heq ▸ hj)) _ _
    refine ⟨Function.update part i (zs.take (f i).length), ?_, ?_⟩
    · rw [List.flatMap_cons, Function.update_self, List.flatMap_congr hother, ← hzs,
        List.take_append_drop]
    · simp only [List.forall_mem_cons, Function.update_self]
      exact ⟨hfirst, fun j hj => hother j hj ▸ hparts j hj⟩

theorem eq_of_flatMap_eq {f f' : Nat → List β} {order : List Nat}
    (hlen : ∀ i ∈ order, (f i).length = (f' i).length)
    (h : order.flatMap f = order.flatMap f') : ∀ i ∈ order, f i = f' i := by
  induction order with
  | nil => simp
  | cons i order ih =>
    rw [List.flatMap_cons, List.flatMap_cons] at h
    obtain ⟨hfirst, hrest⟩ := List.append_inj h (hlen i List.mem_cons_self)
    simp only [List.forall_mem_cons]
    exact ⟨hfirst, ih (fun j hj => hlen j (List.mem_cons_of_mem i hj)) hrest⟩

end

/-! ## One edge -/

theorem derives_iff_root {n : Nat} {x : Tree} : g.Derives n x ↔ x.root ∈ (g.node n).edges ∧
    List.Forall₂ g.Derives (g.edge x.root).tails x.subtrees := by
  cases x
  exact derives_node_iff

theorem tailOrder_eq {e : EdgeId} {rule : Rule} (h : (g.edge e).rule = some rule) :
    g.tailOrder e = rule.tailPositions := by
  rw [tailOrder, h]
  rfl

theorem Fits.perm {e : EdgeId} (h : g.Fits e) :
    (g.tailOrder e).Perm (List.range (g.edge e).tails.length) := by
  obtain ⟨rule, hrule, hperm, -⟩ := h
  rw [tailOrder_eq hrule]
  exact hperm

theorem Fits.lt {e : EdgeId} (h : g.Fits e) {i : Nat} (hi : i ∈ g.tailOrder e) :
    i < (g.edge e).tails.length :=
  lt_of_perm_range h.perm hi

theorem Fits.nodup {e : EdgeId} (h : g.Fits e) : (g.tailOrder e).Nodup :=
  h.perm.nodup_iff.mpr List.nodup_range

theorem Fits.mem {e : EdgeId} (h : g.Fits e) {i : Nat} (hi : i < (g.edge e).tails.length) :
    i ∈ g.tailOrder e :=
  h.perm.mem_iff.mpr (List.mem_range.mpr hi)

theorem getD_zipWith_chosen {ts : List NodeId} {ys : List Tree} (hlen : ts.length = ys.length)
    {i : Nat} (hi : i < ts.length) :
    (List.zipWith (chosen bin) ts ys).getD i none = chosen bin (ts.getD i 0) (ys.getD i default) := by
  have hi' : i < ys.length := hlen ▸ hi
  simp [List.getD_eq_getElem?_getD, hi, hi']

theorem offers_zipWith_chosen {ts : List NodeId} {ys : List Tree}
    (h : List.Forall₂ G.Derives ts ys) :
    List.Forall₂ (G.Offers bin) ts (List.zipWith (chosen bin) ts ys) := by
  induction h with
  | nil => exact List.Forall₂.nil
  | cons hy _ ih =>
    refine List.Forall₂.cons ?_ ih
    unfold chosen
    split
    · rename_i hb
      exact ⟨hb, (derives_iff_root.mp hy).1⟩
    · rename_i hb
      exact Bool.eq_false_iff.mpr hb

theorem choosable {n : Nat} {e : EdgeId} (he : e ∈ (g.node n).edges)
    (hbin : g.hasBinarized bin e = true) {ys : List Tree}
    (hys : List.Forall₂ G.Derives (g.edge e).tails ys) :
    Choosable g G bin n e (List.zipWith (chosen bin) (g.edge e).tails ys) :=
  ⟨he, hbin, offers_zipWith_chosen hys⟩

theorem length_openedTails {t : Nat} {c : Option EdgeId} (hc : ∀ k ∈ c, G.Fits k) {s : Symbol}
    (hs : s.isNonTerminal = true) : (G.openedTails t c).length =
      ((G.openedSymbols s c).filter Symbol.isNonTerminal).length := by
  cases c with
  | none => simp [openedTails, openedSymbols, Symbol.isNonTerminal_unindexed, hs]
  | some k =>
    obtain ⟨rule, hrule, hperm, -⟩ := hc k rfl
    simp only [openedTails, openedSymbols, tailOrder_eq hrule, hrule, Option.map_some,
      Option.getD_some, length_arrange fun i hi => lt_of_perm_range hperm hi, List.filter_map,
      Function.comp_def, Symbol.isNonTerminal_unindexed, List.length_map]
    exact length_tailPositions_placedFrom 0 rule.rhs

theorem index_openedSymbols {c : Option EdgeId} (hc : ∀ k ∈ c, G.Fits k) {s : Symbol}
    (hs : s.unindexed.index = 0) {s' : Symbol} (hmem : s' ∈ G.openedSymbols s c)
    (hnon : s'.isNonTerminal = true) : s'.index = 0 := by
  cases c with
  | none =>
    rw [List.mem_singleton.mp hmem]
    exact hs
  | some k =>
    obtain ⟨rule, hrule, -, hplain⟩ := hc k rfl
    simp only [openedSymbols, hrule, Option.map_some, Option.getD_some, List.mem_map] at hmem
    obtain ⟨s, hmem, rfl⟩ := hmem
    exact hplain s hmem (by rwa [Symbol.isNonTerminal_unindexed] at hnon)

theorem index_mergedSymbols {e : EdgeId} (he : g.Fits e) {rule : Rule}
    (hrule : (g.edge e).rule = some rule) {choice : List (Option EdgeId)}
    (hc : ∀ i ∈ g.tailOrder e, ∀ k ∈ choice.getD i none, G.Fits k) :
    ∀ s ∈ rule.placed.flatMap (G.mergedSymbols choice), s.isNonTerminal = true → s.index = 0 := by
  intro s' hmem hnon
  obtain ⟨⟨s, position⟩, hp, hmem⟩ := List.mem_flatMap.mp hmem
  obtain ⟨hs, hposition⟩ := mem_placedFrom hp
  cases position with
  | none =>
    rw [List.mem_singleton.mp hmem, hposition] at hnon
    cases hnon
  | some i =>
    have hi : i ∈ g.tailOrder e := by
      rw [tailOrder_eq hrule]
      exact List.mem_filterMap.mpr ⟨_, hp, rfl⟩
    obtain ⟨rule', hrule', -, hplain⟩ := he
    rw [hrule] at hrule'
    cases hrule'
    exact index_openedSymbols (hc i hi) (hplain s hs hposition) hmem hnon

theorem length_mergedTails {e : EdgeId} {rule : Rule} (hrule : (g.edge e).rule = some rule)
    {choice : List (Option EdgeId)} (hc : ∀ i ∈ g.tailOrder e, ∀ k ∈ choice.getD i none, G.Fits k) :
    (g.mergedTails G e choice).length =
      ((rule.placed.flatMap (G.mergedSymbols choice)).filter Symbol.isNonTerminal).length := by
  rw [mergedTails, tailOrder_eq hrule] at *
  refine length_flatMap_placed (fun s hs => ⟨by simpa using (mem_placedFrom hs).2, rfl⟩) ?_
  intro s i hs
  exact length_openedTails (hc i (List.mem_filterMap.mpr ⟨_, hs, rfl⟩))
    (by simpa using (mem_placedFrom hs).2)

variable [Scalar V]

namespace Inlined

variable (h : Inlined g G bin entry)
include h

theorem derives_opened {t : Nat} {y : Tree} (hy : G.Derives t y) :
    List.Forall₂ G.Derives (G.openedTails t (chosen bin t y)) (G.opened bin t y) := by
  obtain ⟨hroot, htails⟩ := derives_iff_root.mp hy
  unfold chosen opened
  split
  · exact (forall₂_arrange_iff htails.length_eq (h.fits_merged t _ hroot).perm).mpr htails
  · exact List.Forall₂.cons hy List.Forall₂.nil

theorem derives_graft {n : Nat} {e : EdgeId} (he : e ∈ (g.node n).edges) {ys : List Tree}
    (hys : List.Forall₂ G.Derives (g.edge e).tails ys) :
    G.Derives n (g.graft G bin entry e ys) := by
  unfold graft
  split
  · rename_i hbin
    obtain ⟨hentry, hmerged⟩ := h.merged n e _ (choosable he hbin hys)
    refine derives_node_iff.mpr ⟨hentry, ?_⟩
    rw [hmerged.tails, mergedTails]
    refine forall₂_flatMap fun i hi => ?_
    have hlt := (h.fits n e he).lt hi
    rw [getD_zipWith_chosen hys.length_eq hlt]
    exact h.derives_opened (forall₂_getD hys hlt 0 default)
  · rename_i hbin
    obtain ⟨hkept, hedge⟩ := h.kept n e he (Bool.eq_false_iff.mpr hbin)
    exact derives_node_iff.mpr ⟨hkept, hedge ▸ hys⟩

theorem eq_of_opened_eq {t : Nat} {y y' : Tree} (hy : G.Derives t y) (hy' : G.Derives t y')
    (hchosen : chosen bin t y = chosen bin t y')
    (hopened : G.opened bin t y = G.opened bin t y') : y = y' := by
  obtain ⟨hroot, htails⟩ := derives_iff_root.mp hy
  obtain ⟨-, htails'⟩ := derives_iff_root.mp hy'
  unfold chosen at hchosen
  unfold opened at hopened
  split at hchosen
  · rename_i hb
    have hroots : y.root = y'.root := Option.some.inj hchosen
    rw [if_pos hb, if_pos hb, ← hroots] at hopened
    rw [← hroots] at htails'
    have hperm := (h.fits_merged t _ hroot).perm
    rw [htails.length_eq] at hperm
    have hbelow := eq_of_arrange_eq (htails.length_eq.symm.trans htails'.length_eq) hperm hopened
    cases y
    cases y'
    exact congrArg₂ Tree.node hroots hbelow
  · rename_i hb
    rw [if_neg hb, if_neg hb] at hopened
    exact (List.cons.inj hopened).1

theorem graft_inj {n : Nat} {e e' : EdgeId} (he : e ∈ (g.node n).edges)
    (he' : e' ∈ (g.node n).edges) {ys ys' : List Tree}
    (hys : List.Forall₂ G.Derives (g.edge e).tails ys)
    (hys' : List.Forall₂ G.Derives (g.edge e').tails ys')
    (heq : g.graft G bin entry e ys = g.graft G bin entry e' ys') : e = e' ∧ ys = ys' := by
  unfold graft at heq
  split at heq
  · rename_i hbin
    have hc := choosable he hbin hys
    split at heq
    · rename_i hbin'
      obtain ⟨hentry, hbelow⟩ := Tree.node.inj heq
      obtain ⟨rfl, hchoice⟩ := h.distinct n n e e' _ _ hc (choosable he' hbin' hys') hentry
      refine ⟨rfl, ?_⟩
      have hchosen : ∀ i ∈ g.tailOrder e,
          chosen bin ((g.edge e).tails.getD i 0) (ys.getD i default) =
            chosen bin ((g.edge e).tails.getD i 0) (ys'.getD i default) := by
        intro i hi
        have hlt := (h.fits n e he).lt hi
        rw [← getD_zipWith_chosen hys.length_eq hlt, hchoice,
          getD_zipWith_chosen hys'.length_eq hlt]
      have hparts := eq_of_flatMap_eq (fun i hi => ?_) hbelow
      · refine List.ext_getElem (hys.length_eq.symm.trans hys'.length_eq) fun i hi hi' => ?_
        have hlt : i < (g.edge e).tails.length := hys.length_eq ▸ hi
        have hmem := (h.fits n e he).mem hlt
        have hget := h.eq_of_opened_eq (forall₂_getD hys hlt 0 default)
          (forall₂_getD hys' hlt 0 default) (hchosen i hmem) (hparts i hmem)
        simpa [List.getD_eq_getElem?_getD, hi, hi'] using hget
      · have hlt := (h.fits n e he).lt hi
        have hlen := (h.derives_opened (forall₂_getD hys hlt 0 default)).length_eq
        have hlen' := (h.derives_opened (forall₂_getD hys' hlt 0 default)).length_eq
        rw [← hlen, ← hlen', hchosen i hi]
    · exact absurd (Tree.node.inj heq).1 (h.fresh n n e _ hc e' he')
  · split at heq
    · rename_i hbin'
      exact absurd (Tree.node.inj heq).1.symm
        (h.fresh n n e' _ (choosable he' hbin' hys') e he)
    · exact Tree.node.inj heq

/-- Each derivation of what stands in place of a tail comes from opening a tree over the tail. -/
theorem exists_opened {t : Nat} {c : Option EdgeId} (hc : G.Offers bin t c) {zs : List Tree}
    (hzs : List.Forall₂ G.Derives (G.openedTails t c) zs) :
    ∃ y, G.Derives t y ∧ chosen bin t y = c ∧ G.opened bin t y = zs := by
  cases c with
  | none =>
    have hb : bin t = false := hc
    obtain ⟨y, hy, rfl⟩ : ∃ y, G.Derives t y ∧ zs = [y] := by
      cases hzs with
      | cons hy hnil => exact ⟨_, hy, by rw [List.forall₂_nil_left_iff.mp hnil]⟩
    exact ⟨y, hy, by simp [chosen, hb], by simp [opened, hb]⟩
  | some k =>
    obtain ⟨hb, hk⟩ := hc
    have hperm := (h.fits_merged t k hk).perm
    have hlen : (G.edge k).tails.length = zs.length := by
      have hlen := hzs.length_eq
      rw [openedTails, length_arrange fun i hi => lt_of_perm_range hperm hi] at hlen
      rw [← hlen]
      simpa using hperm.length_eq.symm
    obtain ⟨ys, hys, rfl⟩ := @exists_arrange_eq _ (G.tailOrder k) zs (hlen ▸ hperm)
    refine ⟨.node k ys, derives_node_iff.mpr ⟨hk, ?_⟩, by simp [chosen, hb, Tree.root],
      by simp [opened, hb, Tree.root, Tree.subtrees]⟩
    exact (forall₂_arrange_iff (hlen.trans hys.symm) hperm).mp hzs

theorem exists_graft {n : Nat} {x : Tree} (hx : G.Derives n x) :
    ∃ e ∈ (g.node n).edges, ∃ ys, List.Forall₂ G.Derives (g.edge e).tails ys ∧
      g.graft G bin entry e ys = x := by
  obtain ⟨k, below⟩ := x
  obtain ⟨hk, htails⟩ := derives_node_iff.mp hx
  rcases h.only n k hk with ⟨hk, hbin⟩ | ⟨e, choice, hc, rfl⟩
  · refine ⟨k, hk, below, (h.kept n k hk hbin).2 ▸ htails, ?_⟩
    simp [graft, hbin]
  · have hfits := h.fits n e hc.listed
    rw [(h.merged n e choice hc).2.tails, mergedTails] at htails
    obtain ⟨part, rfl, hpart⟩ := exists_parts hfits.nodup htails
    have hopen : ∀ i ∈ g.tailOrder e, ∃ y, G.Derives ((g.edge e).tails.getD i 0) y ∧
        chosen bin ((g.edge e).tails.getD i 0) y = choice.getD i none ∧
        G.opened bin ((g.edge e).tails.getD i 0) y = part i := fun i hi =>
      h.exists_opened (forall₂_getD hc.offered (hfits.lt hi) 0 none) (hpart i hi)
    choose! f hf using hopen
    have hget : ∀ i < (g.edge e).tails.length,
        ((List.range (g.edge e).tails.length).map f).getD i default = f i := by
      intro i hi
      simp [List.getD_eq_getElem?_getD, hi]
    have hys : List.Forall₂ G.Derives (g.edge e).tails
        ((List.range (g.edge e).tails.length).map f) :=
      forall₂_of_getD 0 default (by simp) fun i hi => by
        rw [hget i hi]
        exact (hf i (hfits.mem hi)).1
    refine ⟨e, hc.listed, _, hys, ?_⟩
    have hchoice : List.zipWith (chosen bin) (g.edge e).tails
        ((List.range (g.edge e).tails.length).map f) = choice := by
      have hlen := hc.offered.length_eq
      refine List.ext_getElem (by simp [hlen]) fun i hi hi' => ?_
      have hlt : i < (g.edge e).tails.length := hlen ▸ hi'
      have hgetD := @getD_zipWith_chosen bin _ _ hys.length_eq i hlt
      rw [hget i hlt, (hf i (hfits.mem hlt)).2.1] at hgetD
      simpa [List.getD_eq_getElem?_getD, hi, hi', hlt] using hgetD
    rw [graft, if_pos hc.binarized, hchoice]
    congr 1
    refine List.flatMap_congr fun i hi => ?_
    rw [hget i (hfits.lt hi), (hf i hi).2.2]

/-! ## Words and features -/

theorem fill_opened {t : Nat} {y : Tree} (hy : G.Derives t y) {s : Symbol}
    (hs : s.isNonTerminal = true) :
    fill (G.openedSymbols s (chosen bin t y)) ((G.opened bin t y).map (Tree.yield G)) =
      y.yield G := by
  obtain ⟨hroot, htails⟩ := derives_iff_root.mp hy
  obtain ⟨rule, hrule, hperm, -⟩ := h.fits_merged t _ hroot
  have hlen := htails.length_eq
  unfold chosen opened
  split
  · rw [tailOrder_eq hrule, ← arrange_map]
    have hlt : ∀ i ∈ rule.tailPositions, i < (y.subtrees.map (Tree.yield G)).length := by
      intro i hi
      rw [List.length_map, ← hlen]
      exact lt_of_perm_range hperm hi
    have hyield : y.yield G = rule.spell (y.subtrees.map (Tree.yield G)) := by
      cases y
      rw [Tree.yield]
      simp only [Tree.root] at hrule
      rw [hrule]
      rfl
    simp only [openedSymbols, hrule, Option.map_some, Option.getD_some, fill_map_unindexed]
    rw [hyield, rule.spell_eq_fill _ hlt]
  · simp [openedSymbols, fill, Symbol.isNonTerminal_unindexed, hs]

theorem fits_offered {t : Nat} {c : Option EdgeId} (hc : G.Offers bin t c) :
    ∀ k ∈ c, G.Fits k := by
  intro k hk
  cases hk
  exact h.fits_merged t k hc.2

theorem yield_graft {n : Nat} {e : EdgeId} (he : e ∈ (g.node n).edges) {ys : List Tree}
    (hys : List.Forall₂ G.Derives (g.edge e).tails ys) {rule : Rule}
    (hrule : (g.edge e).rule = some rule) :
    (g.graft G bin entry e ys).yield G = rule.spell (ys.map (Tree.yield G)) := by
  unfold graft
  split
  · rename_i hbin
    have hfits := h.fits n e he
    have hc := choosable he hbin hys
    have hmerged := (h.merged n e _ hc).2
    generalize hchoice : List.zipWith (chosen bin) (g.edge e).tails ys = choice at hc hmerged
    have hgetD : ∀ i ∈ g.tailOrder e, choice.getD i none =
        chosen bin ((g.edge e).tails.getD i 0) (ys.getD i default) := fun i hi =>
      hchoice ▸ getD_zipWith_chosen hys.length_eq (hfits.lt hi)
    have hchosen : ∀ i ∈ g.tailOrder e, ∀ k ∈ choice.getD i none, G.Fits k := fun i hi =>
      h.fits_offered (forall₂_getD hc.offered (hfits.lt hi) 0 none)
    have hpositions : ∀ s i, (s, some i) ∈ rule.placed → i ∈ g.tailOrder e := by
      intro s i hmem
      rw [tailOrder_eq hrule]
      exact List.mem_filterMap.mpr ⟨_, hmem, rfl⟩
    have hword : ∀ s, (s, none) ∈ rule.placed →
        s.isNonTerminal = false ∧ G.mergedSymbols choice (s, none) = [s] := fun s hs =>
      ⟨by simpa using (mem_placedFrom hs).2, rfl⟩
    have hpart : ∀ s i, (s, some i) ∈ rule.placed →
        ((G.opened bin ((g.edge e).tails.getD i 0) (ys.getD i default)).map
          (Tree.yield G)).length =
            ((G.mergedSymbols choice (s, some i)).filter Symbol.isNonTerminal).length := by
      intro s i hs
      have hi := hpositions s i hs
      have hy := forall₂_getD hys (hfits.lt hi) 0 default
      rw [List.length_map, ← (h.derives_opened hy).length_eq, ← hgetD i hi]
      exact length_openedTails (hchosen i hi) (by simpa using (mem_placedFrom hs).2)
    rw [Tree.yield, hmerged.rule, mergedRule, hrule, Option.map_some, List.map_flatMap,
      tailOrder_eq hrule]
    refine (Rule.spell_eq_fill_of_index (index_mergedSymbols hfits hrule hchosen)
      (length_flatMap_placed hword hpart)).trans (fill_flatMap hword hpart ?_)
    intro s i hs
    have hi := hpositions s i hs
    have hlt := hfits.lt hi
    have hi' : i < ys.length := hys.length_eq ▸ hlt
    simp only [mergedSymbols, hgetD i hi]
    rw [h.fill_opened (forall₂_getD hys hlt 0 default) (by simpa using (mem_placedFrom hs).2)]
    simp [List.getD_eq_getElem?_getD, hi']
  · rename_i hbin
    rw [Tree.yield, (h.kept n e he (Bool.eq_false_iff.mpr hbin)).2, hrule]

theorem features_opened [LawfulScalar V] {t : Nat} {y : Tree} (hy : G.Derives t y) :
    ((chosen bin t y).toList.map fun k => (G.edge k).features).sum +
      ((G.opened bin t y).map (Tree.features G)).sum = y.features G := by
  obtain ⟨hroot, htails⟩ := derives_iff_root.mp hy
  have hperm := (h.fits_merged t _ hroot).perm
  rw [htails.length_eq] at hperm
  unfold chosen opened
  split
  · rw [((perm_arrange hperm).map (Tree.features G)).sum_eq]
    cases y
    simp [Tree.root, Tree.subtrees, Tree.features_node]
  · simp

theorem features_graft [LawfulScalar V] {n : Nat} {e : EdgeId} (he : e ∈ (g.node n).edges)
    {ys : List Tree} (hys : List.Forall₂ G.Derives (g.edge e).tails ys) :
    (g.graft G bin entry e ys).features G =
      (g.edge e).features + (ys.map (Tree.features G)).sum := by
  unfold graft
  split
  · rename_i hbin
    have hfits := h.fits n e he
    have hmerged := (h.merged n e _ (choosable he hbin hys)).2
    have hlt : ∀ i ∈ g.tailOrder e, i < ys.length := fun i hi => hys.length_eq ▸ hfits.lt hi
    have hperm : ((g.tailOrder e).map fun i => (ys.getD i default).features G).Perm
        (ys.map (Tree.features G)) := by
      have harrange := perm_arrange (hys.length_eq ▸ hfits.perm)
      rw [arrange_eq_map_getD hlt default] at harrange
      have hmap := harrange.map (Tree.features G)
      rwa [List.map_map] at hmap
    rw [Tree.features_node, hmerged.features, mergedFeatures, FeatureVector.foldl_plus,
      ← hperm.sum_eq, add_assoc]
    congr 1
    -- both sides are sums over the positions of the rule
    have hinside : ∀ i ∈ g.tailOrder e, i < (g.edge e).tails.length := fun i hi => hfits.lt hi
    clear hperm hmerged hlt
    generalize g.tailOrder e = order at hinside
    induction order with
    | nil => simp
    | cons i order ih =>
      have hi := hinside i List.mem_cons_self
      have hfirst := h.features_opened (forall₂_getD hys hi 0 default)
      have hrest := ih fun j hj => hinside j (List.mem_cons_of_mem i hj)
      have hcons : (i :: order).filterMap
          (fun i => (List.zipWith (chosen bin) (g.edge e).tails ys).getD i none) =
            (chosen bin ((g.edge e).tails.getD i 0) (ys.getD i default)).toList ++
              order.filterMap fun i => (List.zipWith (chosen bin) (g.edge e).tails ys).getD i none
          := by
        rw [List.filterMap_cons, getD_zipWith_chosen hys.length_eq hi]
        cases chosen bin ((g.edge e).tails.getD i 0) (ys.getD i default) <;> rfl
      rw [hcons, List.map_append, List.sum_append, List.flatMap_cons, List.map_append,
        List.sum_append, add_add_add_comm, hfirst, hrest, List.map_cons, List.sum_cons]
  · rename_i hbin
    rw [Tree.features_node, (h.kept n e he (Bool.eq_false_iff.mpr hbin)).2]

/-! ## All edges -/

theorem derives_graftAll {n : Nat} {x : Tree} (hx : g.Derives n x) :
    G.Derives n (g.graftAll G bin entry x) := by
  induction hx with
  | @node n e below listed length tails ih =>
    rw [graftAll]
    refine h.derives_graft listed ?_
    rw [List.forall₂_map_right_iff]
    exact List.forall₂_iff_zip.mpr ⟨length, fun hp => ih _ hp⟩

theorem forall₂_graftAll {n : Nat} {e : EdgeId} {below : List Tree}
    (hx : g.Derives n (.node e below)) :
    List.Forall₂ G.Derives (g.edge e).tails (below.map (g.graftAll G bin entry)) :=
  List.forall₂_map_right_iff.mpr
    ((derives_node_iff.mp hx).2.imp fun _ _ hy => h.derives_graftAll hy)

theorem graftAll_bijOn (n : Nat) :
    Set.BijOn (g.graftAll G bin entry) {x | g.Derives n x} {x | G.Derives n x} := by
  induction n using Nat.strongRecOn with
  | _ n ih =>
    refine ⟨fun x hx => h.derives_graftAll hx, ?_, ?_⟩
    · rintro ⟨e, below⟩ hx ⟨e', below'⟩ hx' heq
      obtain ⟨he, htails⟩ := derives_node_iff.mp hx
      obtain ⟨he', htails'⟩ := derives_node_iff.mp hx'
      obtain ⟨rfl, hbelow⟩ := h.graft_inj he he' (h.forall₂_graftAll hx) (h.forall₂_graftAll hx')
        (by rwa [graftAll, graftAll] at heq)
      have hlen := htails.length_eq.symm.trans htails'.length_eq
      congr 1
      refine List.ext_getElem hlen fun i hi hi' => ?_
      have hlt : i < (g.edge e).tails.length := htails.length_eq ▸ hi
      have ht := h.below n e he _ (List.getElem_mem hlt)
      refine (ih _ ht).injOn (htails.get hlt hi) (htails'.get hlt hi') ?_
      have hget := congrArg (·[i]?) hbelow
      simpa [hi, hi'] using hget
    · intro x hx
      obtain ⟨e, he, ys, hys, rfl⟩ := h.exists_graft hx
      have hback : List.Forall₂ (fun t y => ∃ x, g.Derives t x ∧ g.graftAll G bin entry x = y)
          (g.edge e).tails ys := by
        refine List.forall₂_iff_zip.mpr ⟨hys.length_eq, fun {t y} hp => ?_⟩
        have ht := h.below n e he t (List.of_mem_zip hp).1
        exact (ih t ht).surjOn ((List.forall₂_iff_zip.mp hys).2 hp)
      obtain ⟨xs, hxs, rfl⟩ := exists_of_forall₂ (f := id) hback
      rw [List.map_id] at hxs
      exact ⟨.node e xs, derives_node_iff.mpr ⟨he, hxs⟩, by rw [graftAll]⟩

theorem yield_graftAll {n : Nat} {x : Tree} (hx : g.Derives n x) :
    (g.graftAll G bin entry x).yield G = x.yield g := by
  induction hx with
  | @node n e below listed length tails ih =>
    obtain ⟨rule, hrule, -, -⟩ := h.fits n e listed
    have hys := h.forall₂_graftAll (Derives.node listed length tails)
    have hbelow : ∀ y ∈ below, (g.graftAll G bin entry y).yield G = y.yield g := by
      intro y hy
      obtain ⟨t, ht⟩ := exists_mem_zip length hy
      exact ih _ ht
    rw [graftAll, h.yield_graft listed hys hrule, Tree.yield, hrule, List.map_map]
    exact congrArg rule.spell (List.map_congr_left hbelow)

theorem features_graftAll [LawfulScalar V] {n : Nat} {x : Tree} (hx : g.Derives n x) :
    (g.graftAll G bin entry x).features G = x.features g := by
  induction hx with
  | @node n e below listed length tails ih =>
    have hys := h.forall₂_graftAll (Derives.node listed length tails)
    have hbelow : ∀ y ∈ below, (g.graftAll G bin entry y).features G = y.features g := by
      intro y hy
      obtain ⟨t, ht⟩ := exists_mem_zip length hy
      exact ih _ ht
    rw [graftAll, h.features_graft listed hys, Tree.features_node, List.map_map]
    exact congrArg (fun l => (g.edge e).features + l.sum) (List.map_congr_left hbelow)

end Inlined

end ParseForest.Hypergraph
