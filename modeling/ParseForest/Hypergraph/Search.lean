import ParseForest.Hypergraph

/-!
# Depth-first search

The search starts at the goal and follows the edges of each node down to their tails, in the
order in which they are listed. A node is finished after everything below it. An edge with a tail
that is still under way closes a cycle and is noted as cyclic.

The stack holds the nodes under way, each with the links that are still to follow. Every step
visits a new node or takes a link or a node off the stack, so the search ends.
-/

namespace ParseForest

inductive Mark
  | unvisited
  | underway
  | finished
  deriving DecidableEq, Repr, Inhabited

/-- What a search has found: the mark of each node, the finished nodes, the last one first, and
the edges that close a cycle. -/
structure Search where
  marks : Array Mark
  finished : List NodeId
  cyclic : List EdgeId

namespace Search

def order (s : Search) : List NodeId := s.finished.reverse

def isCyclic (s : Search) (e : EdgeId) : Bool := s.cyclic.contains e

def enter (s : Search) (n : NodeId) : Search :=
  { s with marks := s.marks.setIfInBounds n .underway }

def leave (s : Search) (n : NodeId) : Search :=
  { s with marks := s.marks.setIfInBounds n .finished, finished := n :: s.finished }

def noteCyclic (s : Search) (e : EdgeId) : Search := { s with cyclic := e :: s.cyclic }

def unvisited (s : Search) : Nat := s.marks.count .unvisited

theorem count_setIfInBounds_le (marks : Array Mark) (n : NodeId) {m : Mark}
    (hm : m ≠ .unvisited) :
    (marks.setIfInBounds n m).count .unvisited ≤ marks.count .unvisited := by
  unfold Array.setIfInBounds
  split
  · rename_i h
    rw [Array.count_set h]
    simp [hm]
  · exact Nat.le_refl _

theorem unvisited_leave_le (s : Search) (n : NodeId) : (s.leave n).unvisited ≤ s.unvisited :=
  count_setIfInBounds_le s.marks n (by decide)

theorem unvisited_enter_lt (s : Search) {n : NodeId} (h : s.marks[n]? = some .unvisited) :
    (s.enter n).unvisited < s.unvisited := by
  obtain ⟨hlt, hn⟩ := Array.getElem?_eq_some_iff.mp h
  have hpos : 0 < s.marks.count .unvisited :=
    Array.count_pos_iff.mpr (hn ▸ Array.getElem_mem hlt)
  unfold unvisited enter Array.setIfInBounds
  rw [dif_pos hlt, Array.count_set hlt]
  simp only [hn, beq_self_eq_true, if_true]
  have : (Mark.underway == Mark.unvisited) = false := by decide
  rw [this]
  simp only [Bool.false_eq_true, if_false]
  omega

end Search

abbrev SearchStack := List (NodeId × List (EdgeId × NodeId))

def SearchStack.weight (stack : SearchStack) : Nat :=
  stack.foldr (fun f n => f.2.length + 1 + n) 0

namespace Hypergraph

variable {V : Type}

def follow (g : Hypergraph V) (stack : SearchStack) (s : Search) : Search :=
  match stack with
  | [] => s
  | (n, []) :: rest => g.follow rest (s.leave n)
  | (n, (e, t) :: links) :: rest =>
    match _h : s.marks[t]? with
    | some .unvisited => g.follow ((t, g.links t) :: (n, links) :: rest) (s.enter t)
    -- the tail is on the stack: the edge leads back to its own head or to a node above it
    | some .underway => g.follow ((n, links) :: rest) (s.noteCyclic e)
    | some .finished => g.follow ((n, links) :: rest) s
    -- a dangling number has nothing below it
    | none => g.follow ((n, links) :: rest) s
termination_by (s.unvisited, stack.weight)
decreasing_by
  · rcases Nat.lt_or_eq_of_le (s.unvisited_leave_le n) with h | h
    · exact Prod.Lex.left _ _ h
    · rw [h]
      exact Prod.Lex.right _ (by simp [SearchStack.weight])
  · exact Prod.Lex.left _ _ (s.unvisited_enter_lt ‹_›)
  all_goals exact Prod.Lex.right _ (by simp [SearchStack.weight])

def searchFrom (g : Hypergraph V) (n : NodeId) : Search :=
  g.follow [(n, g.links n)] (Search.enter ⟨Array.replicate g.nodes.size .unvisited, [], []⟩ n)

end Hypergraph

end ParseForest
