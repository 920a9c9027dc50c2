import ParseForest.Feature
import ParseForest.Score

/-!
# Weightings

A weighting turns a feature vector into a score. The uniform one scores everything alike; the
log-linear ones take the weighted sum of the features as a logarithm.
-/

namespace ParseForest

abbrev Weighting (V S : Type) := FeatureVector V → S

namespace Weighting

variable {V S : Type}

def uniform [Score S] : Weighting V S := fun _ => Score.one

variable [Scalar V] [LogScale V S]

def logLinear (weights : WeightVector V) : Weighting V S := fun f => LogScale.ofLog (f.dot weights)

/-- As `logLinear`, where the weights in `extra` take the place of those in `weights`. -/
def logLinearWith (weights extra : WeightVector V) : Weighting V S := fun f =>
  LogScale.ofLog (f.weightedSum fun name => (extra.get? name).getD (weights.weight name))

end Weighting

end ParseForest
