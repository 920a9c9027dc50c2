import ParseForest.Feature
import ParseForest.Symbol
import ParseForest.Text.Blank

/-!
# Word lattices

A lattice of size `n` has the positions `0` to `n`; from each position but the last, arcs lead
forward to later positions. A sentence is a lattice with one arc a word. Every lattice keeps its
arcs inside: each has a positive length and ends no later than the last position.

`shortestDistance` is the least number of arcs other than epsilon arcs on a path between two
positions. Arcs lead forward, so one pass over the positions in order settles every distance.
-/

namespace ParseForest

variable {V : Type}

structure Arc (V : Type) where
  label : Symbol
  distance : Nat
  features : FeatureVector V

inductive LatticeError
  | zeroDistance (label : Symbol) (position : Nat)
  | pastEnd (label : Symbol) (position size : Nat)
  deriving DecidableEq, Repr

def LatticeError.message : LatticeError → String
  | .zeroDistance label position =>
    "arc " ++ label.text ++ " at position " ++ Number.renderNatural position ++
      " has zero distance"
  | .pastEnd label position size =>
    "arc " ++ label.text ++ " at position " ++ Number.renderNatural position ++
      " runs past the lattice end " ++ Number.renderNatural size

namespace Arc

def fault? (size position : Nat) (a : Arc V) : Option LatticeError :=
  if a.distance = 0 then some (.zeroDistance a.label position)
  else if size < position + a.distance then some (.pastEnd a.label position size)
  else none

/-- What the arc adds to the length of a path: epsilon arcs are free. -/
def cost (a : Arc V) : Nat := if a.label.isEpsilon then 0 else 1

end Arc

structure Lattice (V : Type) where
  arcs : List (List (Arc V))
  inside : ∀ row ∈ arcs.zipIdx, ∀ a ∈ row.1, a.fault? arcs.length row.2 = none

namespace Lattice

def faults (arcs : List (List (Arc V))) : List LatticeError :=
  arcs.zipIdx.flatMap fun row => row.1.filterMap (Arc.fault? arcs.length row.2)

theorem fault?_eq_none_of_faults {arcs : List (List (Arc V))} (h : faults arcs = []) :
    ∀ row ∈ arcs.zipIdx, ∀ a ∈ row.1, a.fault? arcs.length row.2 = none := by
  intro row hrow a ha
  have hall := List.flatMap_eq_nil_iff.mp h row hrow
  exact List.filterMap_eq_nil_iff.mp hall a ha

def ofArcs (arcs : List (List (Arc V))) : Except LatticeError (Lattice V) :=
  match h : faults arcs with
  | [] => .ok ⟨arcs, fault?_eq_none_of_faults h⟩
  | e :: _ => .error e

def sentenceArcs (words : List Symbol) : List (List (Arc V)) :=
  words.map fun w => [⟨w, 1, NameMap.empty⟩]

theorem fault?_sentenceArcs (words : List Symbol) :
    ∀ row ∈ (sentenceArcs (V := V) words).zipIdx, ∀ a ∈ row.1,
      a.fault? (sentenceArcs (V := V) words).length row.2 = none := by
  intro row hrow a ha
  obtain ⟨hlt, heq⟩ := List.mem_zipIdx' hrow
  have hrow1 : row.1 ∈ sentenceArcs (V := V) words := heq ▸ List.getElem_mem hlt
  obtain ⟨w, -, hw⟩ := List.mem_map.mp hrow1
  rw [← hw, List.mem_singleton] at ha
  subst ha
  simp only [Arc.fault?]
  split
  · contradiction
  · split
    · omega
    · rfl

def ofWords (words : List Symbol) : Lattice V := ⟨sentenceArcs words, fault?_sentenceArcs words⟩

def read (text : String) : Lattice V := ofWords ((Text.words text.toList).map Symbol.ofChars)

def empty : Lattice V := ofWords []

instance : Inhabited (Lattice V) := ⟨empty⟩

def size (l : Lattice V) : Nat := l.arcs.length

def isEmpty (l : Lattice V) : Bool := l.arcs.isEmpty

def arcsAt (l : Lattice V) (position : Nat) : List (Arc V) := (l.arcs[position]?).getD []

def closer (new : Nat) : Option Nat → Option Nat
  | none => some new
  | some old => some (min old new)

/-- Extends the shortest paths that end at a position by the arcs that leave it. -/
def relax (distances : Array (Option Nat)) (row : List (Arc V) × Nat) : Array (Option Nat) :=
  let (arcs, position) := row
  match distances[position]?.join with
  -- no path has come here, so the arcs extend none
  | none => distances
  | some here =>
    arcs.foldl (fun ds a => ds.modify (position + a.distance) (closer (here + a.cost))) distances

def distancesFrom (l : Lattice V) (first : Nat) : Array (Option Nat) :=
  (l.arcs.zipIdx.drop first).foldl relax
    ((Array.replicate (l.size + 1) none).setIfInBounds first (some 0))

abbrev DistanceTable := Array (Array (Option Nat))

def distanceTable (l : Lattice V) : DistanceTable :=
  (Array.range (l.size + 1)).map l.distancesFrom

def DistanceTable.get (distances : DistanceTable) (first last : Nat) : Option Nat :=
  (distances[first]?.bind fun row => row[last]?).join

def shortestDistance (l : Lattice V) (first last : Nat) : Option Nat :=
  l.distanceTable.get first last

/-- The distance that stands for "no path": the largest machine word. -/
def unreachable : Nat := Number.wordLimit - 1

def DistanceTable.length (distances : DistanceTable) (first last : Nat) : Nat :=
  (distances.get first last).getD unreachable

def render (l : Lattice V) : String :=
  String.join (l.arcs.zipIdx.map fun (row, position) =>
    Number.renderNatural position ++ ":" ++
      String.join (row.map fun a => " " ++ a.label.text ++ "/" ++ Number.renderNatural a.distance)
      ++ "\n")

end Lattice

end ParseForest
