/-!
# Selections

A selection takes one element from each of a list of choices. `selections` lists them all, the
first choice changing fastest. The empty list of choices has no selection, and neither has a list
with an empty choice.
-/

namespace ParseForest

def selections {α : Type} : List (List α) → List (List α)
  | [] => []
  | [choices] => choices.map fun x => [x]
  | choices :: rest => (selections rest).flatMap fun later => choices.map fun x => x :: later

end ParseForest
