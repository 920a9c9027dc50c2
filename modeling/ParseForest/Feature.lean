import ParseForest.NameMap
import ParseForest.Number.Scalar
import ParseForest.Text.Quoted

/-!
# Features and attributes

Features are named numbers that a score is made of; adding two vectors adds the values of each
name. Attributes are named values that no score reads, such as the span an edge was built over;
merging them takes the later value.
-/

namespace ParseForest

variable {V : Type}

abbrev FeatureVector (V : Type) := NameMap V

abbrev WeightVector (V : Type) := NameMap V

inductive AttributeValue (V : Type)
  | int (value : Int)
  | real (value : V)
  | text (value : String)

abbrev AttributeVector (V : Type) := NameMap (AttributeValue V)

def AttributeValue.render [NumberText V] : AttributeValue V → String
  | .int i => Number.renderInteger i
  | .real x => NumberText.render x
  | .text s => Text.quote s

def AttributeVector.render [NumberText V] (a : AttributeVector V) : String :=
  NameMap.render AttributeValue.render a

/-- The attributes of `a`, with those of `b` over them. -/
def AttributeVector.overlay (a b : AttributeVector V) : AttributeVector V :=
  NameMap.merge a b fun _ value => value

def WeightVector.weight [Scalar V] (w : WeightVector V) (name : String) : V :=
  (w.get? name).getD Scalar.zero

namespace FeatureVector

def render [NumberText V] (f : FeatureVector V) : String := NameMap.render NumberText.render f

variable [Scalar V]

def value (f : FeatureVector V) (name : String) : V := (f.get? name).getD Scalar.zero

def plus (a b : FeatureVector V) : FeatureVector V :=
  NameMap.merge a b fun old x => old.getD Scalar.zero + x

def weightedSum (f : FeatureVector V) (weight : String → V) : V :=
  f.entries.foldl (fun sum e => sum + e.2 * weight e.1) Scalar.zero

def dot (f : FeatureVector V) (w : WeightVector V) : V := f.weightedSum w.weight

end FeatureVector

end ParseForest
