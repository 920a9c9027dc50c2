import ParseForest.Chart
import ParseForest.Grammar

/-!
# Partial matches

An item is a rule table state reached after part of a source side, with a load that it gathers on
the way. What the load is made of is left to the parser: a `Carrier` says how it grows when an
item moves over an entry, which stands for a label over a span, or over an arc. A track holds the
items of one rule table at every span.

`Track.advance` brings the items of a span together: items of a shorter span move over an adjacent
entry, or over the arcs that leave the position before the end. An arc may be longer, and then its
item arrives in the cell of a later span.
-/

namespace ParseForest

variable {V E L : Type}

structure Carrier (V E L : Type) where
  label : E → Symbol
  start : L
  overEntry : L → E → L
  overArc : L → Arc V → L

structure Item (L : Type) where
  state : StateId
  load : L
  deriving Inhabited

namespace Item

def start (c : Carrier V E L) : Item L := ⟨RuleTable.root, c.start⟩

def overLabel? (c : Carrier V E L) (t : RuleTable V) (item : Item L) (e : E) :
    Option (Item L) :=
  let state := t.next item.state (c.label e)
  if state = RuleTable.root then none else some ⟨state, c.overEntry item.load e⟩

/-- The item after an arc, if a source side goes on with its word. An epsilon arc is no word: the
state stays. -/
def overArc? (c : Carrier V E L) (t : RuleTable V) (o : Options V) (item : Item L) (a : Arc V) :
    Option (Item L) :=
  let word := t.wordFor o a.label
  -- an epsilon arc still adds its features to the load
  if word.isEpsilon then some ⟨item.state, c.overArc item.load a⟩
  else
    let state := t.next item.state word
    if state = RuleTable.root then none else some ⟨state, c.overArc item.load a⟩

def overEntries (c : Carrier V E L) (t : RuleTable V) (items : List (Item L)) (entries : List E) :
    List (Item L) :=
  items.flatMap fun item =>
    if t.hasNext item.state then entries.filterMap (item.overLabel? c t) else []

theorem overLabel?_eq_none (c : Carrier V E L) (t : RuleTable V) (item : Item L) (e : E)
    (h : t.hasNext item.state = false) : item.overLabel? c t e = none := by
  have hnil : (t.state item.state).children = [] := by
    simpa [RuleTable.hasNext] using h
  simp [overLabel?, RuleTable.next, RuleTable.child?, LabelMap.get?, hnil]

theorem overEntries_eq (c : Carrier V E L) (t : RuleTable V) (items : List (Item L))
    (entries : List E) :
    overEntries c t items entries =
      items.flatMap fun item => entries.filterMap (item.overLabel? c t) := by
  unfold overEntries
  congr 1
  funext item
  split
  · rfl
  · rename_i h
    exact (List.filterMap_eq_nil_iff.mpr fun e _ =>
      overLabel?_eq_none c t item e (Bool.eq_false_iff.mpr h)).symm

def overArcs (c : Carrier V E L) (t : RuleTable V) (o : Options V) (items : List (Item L))
    (position : Nat) (arcs : List (Arc V)) : List (Nat × Item L) :=
  arcs.flatMap fun a => items.filterMap fun item =>
    (item.overArc? c t o a).map fun next => (position + a.distance, next)

end Item

structure Track (V L : Type) where
  table : RuleTable V
  items : Chart (List (Item L))

namespace Track

def start (c : Carrier V E L) (size : Nat) (table : RuleTable V) : Track V L where
  table
  items :=
    if table.covers 0 then
      (List.range size).foldl
        (fun chart position => chart.modify position position (· ++ [Item.start c]))
        (Chart.new size)
    else Chart.new size

def fromSplits (c : Carrier V E L) (entries : (first last : Nat) → List E) (first last : Nat)
    (tr : Track V L) : List (Item L) :=
  -- the item ends and the entry begins at `middle`, so neither of them is empty
  (List.range' (first + 1) (last - first - 1)).flatMap fun middle =>
    Item.overEntries c tr.table (tr.items.get first middle) (entries middle last)

/-- The items that move over an arc leaving the position before `last`. In a treebank only spans
of length 1 consume words. -/
def fromArcs (c : Carrier V E L) (o : Options V) (lattice : Lattice V) (first last : Nat)
    (tr : Track V L) : List (Nat × Item L) :=
  if o.treebank && last != first + 1 then []
  else
    Item.overArcs c tr.table o (tr.items.get first (last - 1)) (last - 1)
      (lattice.arcsAt (last - 1))

def deliver (items : Chart (List (Item L))) (first : Nat) (arrivals : List (Nat × Item L)) :
    Chart (List (Item L)) :=
  arrivals.foldl (fun chart (last, item) => chart.modify first last (· ++ [item])) items

/-- Brings the items of a span together, if the table covers it. -/
def advance (c : Carrier V E L) (o : Options V) (lattice : Lattice V)
    (entries : (first last : Nat) → List E) (first last distance : Nat) (tr : Track V L) :
    Track V L :=
  if tr.table.covers distance then
    -- both are read off the chart as it was before this span
    let arrivals := tr.fromArcs c o lattice first last
    let joined := tr.fromSplits c entries first last
    -- taken apart so that the chart has one owner and changes in place
    let ⟨table, items⟩ := tr
    ⟨table, deliver (items.modify first last (· ++ joined)) first arrivals⟩
  else tr

def beginWith (c : Carrier V E L) (entries : List E) (first last distance : Nat)
    (tr : Track V L) : Track V L :=
  if tr.table.covers distance then
    let begun := Item.overEntries c tr.table (tr.items.get first first) entries
    let ⟨table, items⟩ := tr
    ⟨table, items.modify first last (· ++ begun)⟩
  else tr

def completed (first last : Nat) (tr : Track V L) : List (RulePair V × L) :=
  (tr.items.get first last).flatMap fun item =>
    (tr.table.rulesAt item.state).map fun pair => (pair, item.load)

end Track

end ParseForest
