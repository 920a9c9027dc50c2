import ParseForest.Proofs.Features
import ParseForest.Proofs.Hypergraph.Sorted
import ParseForest.Proofs.RuleTable.Read

/-!
# What a derivation says

The yield of a derivation reads its rules from left to right, where the yield of the tail that a
non-terminal stands for takes its place. Its features are those of all its edges together. A rule
without indices reads its parts as they come, so parts that are put in the order of the
non-terminals can be read without them.
-/

namespace ParseForest

variable {V : Type}

def arrange {α : Type} (order : List Nat) (xs : List α) : List α := order.filterMap (xs[·]?)

def Rule.standsFor (parts : List (List Symbol)) : Symbol × Option Nat → List Symbol
  | (s, none) => [s]
  | (_, some i) => parts.getD i []

def Rule.spell (r : Rule) (parts : List (List Symbol)) : List Symbol :=
  r.placed.flatMap (standsFor parts)

namespace Tree

def root : Tree → EdgeId
  | node e _ => e

def subtrees : Tree → List Tree
  | node _ below => below

def yield (g : Hypergraph V) : Tree → List Symbol
  | node e below =>
    match (g.edge e).rule with
    | none => []
    | some rule => rule.spell (below.map (yield g))

def features [Scalar V] (g : Hypergraph V) : Tree → FeatureVector V
  | node e below => (below.map (features g)).foldl FeatureVector.plus (g.edge e).features

theorem features_node [Scalar V] [LawfulScalar V] (g : Hypergraph V) (e : EdgeId)
    (below : List Tree) :
    (node e below).features g = (g.edge e).features + (below.map (features g)).sum := by
  have hfold := FeatureVector.foldl_plus id (g.edge e).features (below.map (features g))
  rw [List.map_id] at hfold
  rw [features]
  exact hfold

end Tree

/-- The rule of an edge names each of its tails once, and stays without indices once they are
taken off. -/
def Hypergraph.Fits (g : Hypergraph V) (e : EdgeId) : Prop :=
  ∃ rule, (g.edge e).rule = some rule ∧
    rule.tailPositions.Perm (List.range (g.edge e).tails.length) ∧
    ∀ s ∈ rule.rhs, s.isNonTerminal = true → s.unindexed.index = 0

instance (g : Hypergraph V) (e : EdgeId) : Decidable (g.Fits e) :=
  match h : (g.edge e).rule with
  | none => isFalse fun ⟨rule, hrule, _⟩ => by
      rw [h] at hrule
      cases hrule
  | some rule =>
    decidable_of_iff (rule.tailPositions.Perm (List.range (g.edge e).tails.length) ∧
      ∀ s ∈ rule.rhs, s.isNonTerminal = true → s.unindexed.index = 0)
      ⟨fun hfits => ⟨rule, h, hfits⟩, fun ⟨rule', hrule, hfits⟩ => by
        rw [h] at hrule
        cases hrule
        exact hfits⟩

def Hypergraph.tailOrder (g : Hypergraph V) (e : EdgeId) : List Nat :=
  ((g.edge e).rule.map Rule.tailPositions).getD []

section

variable {g g' : Hypergraph V} {back : EdgeId → EdgeId} {n : NodeId} {x : Tree}

theorem Hypergraph.yield_relabel (h : SameEdges g g' back) (hx : g'.Derives n x) :
    (x.relabel back).yield g = x.yield g' := by
  induction hx with
  | @node n e below listed length tails ih =>
    have hbelow : below.map (Tree.yield g ∘ Tree.relabel back) = below.map (Tree.yield g') := by
      refine List.map_congr_left fun y hy => ?_
      obtain ⟨t, ht⟩ := exists_mem_zip length hy
      exact ih _ ht
    rw [Tree.relabel, Tree.yield, Tree.yield, (h n e listed).1, List.map_map, hbelow]

theorem Hypergraph.features_relabel [Scalar V] (h : SameEdges g g' back)
    (hx : g'.Derives n x) : (x.relabel back).features g = x.features g' := by
  induction hx with
  | @node n e below listed length tails ih =>
    have hbelow : below.map (Tree.features g ∘ Tree.relabel back) =
        below.map (Tree.features g') := by
      refine List.map_congr_left fun y hy => ?_
      obtain ⟨t, ht⟩ := exists_mem_zip length hy
      exact ih _ ht
    rw [Tree.relabel, Tree.features, Tree.features, (h n e listed).2.1, List.map_map, hbelow]

end

/-! ## Putting parts in order -/

section

variable {α β : Type} {order : List Nat} {xs ys : List α}

theorem arrange_map (f : α → β) (order : List Nat) (xs : List α) :
    arrange order (xs.map f) = (arrange order xs).map f := by
  simp [arrange, List.map_filterMap]

theorem map_getElem?_arrange (h : ∀ i ∈ order, i < xs.length) :
    order.map (xs[·]?) = (arrange order xs).map some := by
  induction order with
  | nil => rfl
  | cons i order ih =>
    have hi := List.getElem?_eq_getElem (h i List.mem_cons_self)
    have hrest := ih fun j hj => h j (List.mem_cons_of_mem i hj)
    simp only [List.map_cons, hrest, hi, arrange, List.filterMap_cons]

theorem lt_of_perm_range {n : Nat} (h : order.Perm (List.range n)) {i : Nat} (hi : i ∈ order) :
    i < n :=
  List.mem_range.mp (h.mem_iff.mp hi)

theorem length_arrange (h : ∀ i ∈ order, i < xs.length) :
    (arrange order xs).length = order.length := by
  have hmap := congrArg List.length (map_getElem?_arrange h)
  simpa using hmap.symm

theorem arrange_eq_map_getD (h : ∀ i ∈ order, i < xs.length) (x : α) :
    arrange order xs = order.map fun i => xs.getD i x := by
  refine List.map_injective_iff.mpr (Option.some_injective α) ?_
  rw [← map_getElem?_arrange h, List.map_map]
  refine List.map_congr_left fun i hi => ?_
  simp [List.getD_eq_getElem?_getD, h i hi]

theorem arrange_range' (pre xs : List α) :
    arrange (List.range' pre.length xs.length) (pre ++ xs) = xs := by
  induction xs generalizing pre with
  | nil => simp [arrange]
  | cons x xs ih =>
    have hrest := ih (pre ++ [x])
    simp only [List.length_append, List.length_singleton, List.append_assoc,
      List.singleton_append] at hrest
    rw [List.length_cons, List.range'_succ, arrange, List.filterMap_cons]
    simp only [List.getElem?_append_right (Nat.le_refl _), Nat.sub_self, List.getElem?_cons_zero]
    exact congrArg (x :: ·) hrest

theorem arrange_range (xs : List α) : arrange (List.range xs.length) xs = xs := by
  have h := arrange_range' [] xs
  rwa [List.length_nil, List.nil_append, ← List.range_eq_range'] at h

theorem perm_arrange (h : order.Perm (List.range xs.length)) : (arrange order xs).Perm xs := by
  have hperm := h.filterMap (xs[·]?)
  have hrange := arrange_range xs
  rw [arrange] at hrange
  rwa [hrange] at hperm

theorem eq_of_arrange_eq (hlen : xs.length = ys.length)
    (h : order.Perm (List.range xs.length)) (heq : arrange order xs = arrange order ys) :
    xs = ys := by
  have hx := map_getElem?_arrange fun i hi => lt_of_perm_range h hi
  have hy := map_getElem?_arrange fun i hi => hlen ▸ lt_of_perm_range h hi
  rw [heq, ← hy] at hx
  refine List.ext_getElem hlen fun i hi hi' => ?_
  have hget := List.map_inj_left.mp hx i (h.mem_iff.mpr (List.mem_range.mpr hi))
  rw [List.getElem?_eq_getElem hi, List.getElem?_eq_getElem hi'] at hget
  exact Option.some.inj hget

theorem exists_arrange_eq (h : order.Perm (List.range xs.length)) :
    ∃ zs : List α, zs.length = xs.length ∧ arrange order zs = xs := by
  have hlen : order.length = xs.length := by simpa using h.length_eq
  have hnd : order.Nodup := h.nodup_iff.mpr List.nodup_range
  have hidx : ∀ i ∈ List.range xs.length, order.idxOf i < xs.length := fun i hi =>
    hlen ▸ List.idxOf_lt_length_of_mem (h.mem_iff.mpr hi)
  let zs := (List.range xs.length).attach.map fun i => xs.get ⟨order.idxOf i.1, hidx i.1 i.2⟩
  have hzs : zs.length = xs.length := by simp [zs]
  refine ⟨zs, hzs, ?_⟩
  have hmap : order.map (zs[·]?) = (arrange order zs).map some :=
    map_getElem?_arrange fun i hi => hzs ▸ lt_of_perm_range h hi
  refine List.map_injective_iff.mpr (Option.some_injective α) ?_
  rw [← hmap]
  refine List.ext_getElem (by simpa using hlen) fun i hi hi' => ?_
  have hio : i < order.length := by simpa using hi
  have hlt : order[i] < xs.length := lt_of_perm_range h (List.getElem_mem hio)
  simp [zs, hlt, hnd.idxOf_getElem]

theorem arrange_zip {ys : List β} (hlen : xs.length = ys.length)
    (h : ∀ i ∈ order, i < xs.length) :
    arrange order (xs.zip ys) = (arrange order xs).zip (arrange order ys) := by
  induction order with
  | nil => rfl
  | cons i order ih =>
    have hi := h i List.mem_cons_self
    have hrest := ih fun j hj => h j (List.mem_cons_of_mem i hj)
    simp only [arrange, List.filterMap_cons, List.getElem?_eq_getElem hi,
      List.getElem?_eq_getElem (hlen ▸ hi : i < ys.length),
      List.getElem?_eq_getElem (by simpa [← hlen] using hi : i < (xs.zip ys).length),
      List.getElem_zip, List.zip_cons_cons] at hrest ⊢
    rw [hrest]

theorem forall₂_arrange_iff {R : α → β → Prop} {ys : List β} (hlen : xs.length = ys.length)
    (h : order.Perm (List.range xs.length)) :
    List.Forall₂ R (arrange order xs) (arrange order ys) ↔ List.Forall₂ R xs ys := by
  have hlt : ∀ i ∈ order, i < xs.length := fun i hi => lt_of_perm_range h hi
  have hperm : ((arrange order xs).zip (arrange order ys)).Perm (xs.zip ys) := by
    rw [← arrange_zip hlen hlt]
    exact perm_arrange (by simpa [← hlen] using h)
  rw [List.forall₂_iff_zip, List.forall₂_iff_zip, length_arrange hlt,
    length_arrange (hlen ▸ hlt)]
  simp only [hlen, true_and, hperm.mem_iff]

end

/-! ## Reading without indices -/

def fill : List Symbol → List (List Symbol) → List Symbol
  | [], _ => []
  | s :: rest, parts =>
    if s.isNonTerminal then parts.headD [] ++ fill rest parts.tail else s :: fill rest parts

theorem fill_append {first rest : List Symbol} {parts others : List (List Symbol)}
    (h : parts.length = (first.filter Symbol.isNonTerminal).length) :
    fill (first ++ rest) (parts ++ others) = fill first parts ++ fill rest others := by
  induction first generalizing parts with
  | nil =>
    rw [List.eq_nil_of_length_eq_zero h]
    rfl
  | cons s first ih =>
    rw [List.cons_append, fill, fill]
    rw [List.filter_cons] at h
    split at h
    · rename_i hs
      obtain ⟨part, parts, rfl⟩ := List.exists_cons_of_length_eq_add_one h
      rw [List.cons_append, if_pos hs, if_pos hs, List.headD_cons, List.headD_cons,
        List.tail_cons, List.tail_cons, ih (Nat.succ.inj h), List.append_assoc]
    · rename_i hs
      rw [if_neg hs, if_neg hs, ih h, List.cons_append]

theorem fill_map_unindexed (symbols : List Symbol) (parts : List (List Symbol)) :
    fill (symbols.map Symbol.unindexed) parts = fill symbols parts := by
  induction symbols generalizing parts with
  | nil => rfl
  | cons s symbols ih =>
    rw [List.map_cons, fill, fill, Symbol.isNonTerminal_unindexed, ih, ih]
    split
    · rfl
    · rename_i hs
      rw [Symbol.unindexed_eq_of_isTerminal (by simpa [Symbol.isTerminal] using hs)]

theorem length_flatMap_placed {α : Type} {placed : List (Symbol × Option Nat)}
    {f : Symbol × Option Nat → List Symbol} {parts : Nat → List α}
    (hword : ∀ s, (s, none) ∈ placed → s.isNonTerminal = false ∧ f (s, none) = [s])
    (hpart : ∀ s i, (s, some i) ∈ placed →
      (parts i).length = ((f (s, some i)).filter Symbol.isNonTerminal).length) :
    ((placed.filterMap (·.2)).flatMap parts).length =
      ((placed.flatMap f).filter Symbol.isNonTerminal).length := by
  induction placed with
  | nil => rfl
  | cons p placed ih =>
    have hlength := ih (fun s hs => hword s (List.mem_cons_of_mem p hs))
      fun s i hs => hpart s i (List.mem_cons_of_mem p hs)
    obtain ⟨s, none | i⟩ := p
    · obtain ⟨hs, hf⟩ := hword s List.mem_cons_self
      simp [hf, hs, hlength]
    · have hlen := hpart s i List.mem_cons_self
      simp only [List.filterMap_cons, List.flatMap_cons, List.length_append, List.filter_append,
        hlen, hlength]

theorem fill_flatMap {placed : List (Symbol × Option Nat)} {f : Symbol × Option Nat → List Symbol}
    {parts : Nat → List (List Symbol)} {whole : List (List Symbol)}
    (hword : ∀ s, (s, none) ∈ placed → s.isNonTerminal = false ∧ f (s, none) = [s])
    (hpart : ∀ s i, (s, some i) ∈ placed →
      (parts i).length = ((f (s, some i)).filter Symbol.isNonTerminal).length)
    (hwhole : ∀ s i, (s, some i) ∈ placed →
      fill (f (s, some i)) (parts i) = whole.getD i []) :
    fill (placed.flatMap f) ((placed.filterMap (·.2)).flatMap parts) =
      placed.flatMap (Rule.standsFor whole) := by
  induction placed with
  | nil => rfl
  | cons p placed ih =>
    have hrest := ih (fun s hs => hword s (List.mem_cons_of_mem p hs))
      (fun s i hs => hpart s i (List.mem_cons_of_mem p hs))
      fun s i hs => hwhole s i (List.mem_cons_of_mem p hs)
    obtain ⟨s, none | i⟩ := p
    · obtain ⟨hs, hf⟩ := hword s List.mem_cons_self
      simp [hf, fill, hs, hrest, Rule.standsFor]
    · have hlen := hpart s i List.mem_cons_self
      have hfirst := hwhole s i List.mem_cons_self
      simp only [List.filterMap_cons, List.flatMap_cons, fill_append hlen, hfirst, hrest,
        Rule.standsFor]

theorem mem_placedFrom {start : Nat} {symbols : List Symbol} {s : Symbol} {position : Option Nat}
    (h : (s, position) ∈ Rule.placedFrom start symbols) :
    s ∈ symbols ∧ s.isNonTerminal = position.isSome := by
  induction symbols generalizing start with
  | nil => cases h
  | cons first symbols ih =>
    rw [Rule.placedFrom] at h
    split at h
    · rename_i hfirst
      rcases List.mem_cons.mp h with heq | h
      · cases heq
        exact ⟨List.mem_cons_self, hfirst⟩
      · exact ⟨List.mem_cons_of_mem first (ih h).1, (ih h).2⟩
    · rename_i hfirst
      rcases List.mem_cons.mp h with heq | h
      · cases heq
        exact ⟨List.mem_cons_self, Bool.eq_false_iff.mpr hfirst⟩
      · exact ⟨List.mem_cons_of_mem first (ih h).1, (ih h).2⟩

theorem length_tailPositions_placedFrom (start : Nat) (symbols : List Symbol) :
    ((Rule.placedFrom start symbols).filterMap (·.2)).length =
      (symbols.filter Symbol.isNonTerminal).length := by
  induction symbols generalizing start with
  | nil => rfl
  | cons s symbols ih =>
    rw [Rule.placedFrom, List.filter_cons]
    split
    · simp [ih]
    · simp [ih]

theorem read_placedFrom (parts : List (List Symbol)) (start : Nat) (symbols : List Symbol)
    (h : ∀ i ∈ (Rule.placedFrom start symbols).filterMap (·.2), i < parts.length) :
    (Rule.placedFrom start symbols).flatMap (Rule.standsFor parts) =
      fill symbols (arrange ((Rule.placedFrom start symbols).filterMap (·.2)) parts) := by
  induction symbols generalizing start with
  | nil => rfl
  | cons s symbols ih =>
    rw [Rule.placedFrom] at h ⊢
    rw [fill]
    split
    · rename_i hs
      rw [if_pos hs] at h
      simp only [List.filterMap_cons, List.forall_mem_cons] at h
      obtain ⟨hi, h⟩ := h
      have hrest := ih _ h
      simp only [arrange] at hrest
      simp [hrest, arrange, hi, Rule.standsFor]
    · rename_i hs
      rw [if_neg hs] at h
      simp [ih _ h, Rule.standsFor]

theorem Rule.spell_eq_fill (r : Rule) (parts : List (List Symbol))
    (h : ∀ i ∈ r.tailPositions, i < parts.length) :
    r.spell parts = fill r.rhs (arrange r.tailPositions parts) :=
  read_placedFrom parts 0 r.rhs h

theorem tailPositions_placedFrom {symbols : List Symbol}
    (h : ∀ s ∈ symbols, s.isNonTerminal = true → s.index = 0) (start : Nat) :
    (Rule.placedFrom start symbols).filterMap (·.2) =
      List.range' start (symbols.filter Symbol.isNonTerminal).length := by
  induction symbols generalizing start with
  | nil => rfl
  | cons s symbols ih =>
    have hrest := ih fun s' hs' => h s' (List.mem_cons_of_mem s hs')
    rw [Rule.placedFrom, List.filter_cons]
    split
    · rename_i hs
      simp [Rule.tailPosition, h s List.mem_cons_self hs, hrest, List.range'_succ]
    · simp [hrest]

theorem Rule.tailPositions_eq_range {r : Rule}
    (h : ∀ s ∈ r.rhs, s.isNonTerminal = true → s.index = 0) :
    r.tailPositions = List.range (r.rhs.filter Symbol.isNonTerminal).length :=
  (tailPositions_placedFrom h 0).trans (List.range_eq_range').symm

theorem Rule.spell_eq_fill_of_index {r : Rule} {parts : List (List Symbol)}
    (h : ∀ s ∈ r.rhs, s.isNonTerminal = true → s.index = 0)
    (hlen : parts.length = (r.rhs.filter Symbol.isNonTerminal).length) :
    r.spell parts = fill r.rhs parts := by
  have hrange := Rule.tailPositions_eq_range h
  rw [← hlen] at hrange
  rw [r.spell_eq_fill parts fun i hi => List.mem_range.mp (hrange ▸ hi), hrange, arrange_range]

end ParseForest
