import Mathlib.Algebra.BigOperators.Group.List.Basic
import Mathlib.Algebra.Order.Ring.Rat
import ParseForest.Feature

/-!
# Sums of features

When numbers are added without rounding, feature vectors form a commutative monoid: a name that
only one of two vectors has keeps its value in their sum, and vectors with the same values are
equal.
-/

namespace ParseForest

namespace NameMap

variable {α : Type}

theorem mem_entries_iff (m : NameMap α) (name : String) (value : α) :
    (name, value) ∈ m.entries ↔ m.get? name = some value := by
  obtain ⟨entries, hsorted⟩ := m
  simp only [get?]
  induction entries with
  | nil => simp
  | cons e rest ih =>
    obtain ⟨key, x⟩ := e
    obtain ⟨hfirst, hrest⟩ := List.pairwise_cons.mp hsorted
    by_cases hk : name = key
    · subst hk
      have hnot : (name, value) ∉ rest := fun hmem =>
        String.lt_irrefl name (hfirst (name, value) hmem)
      simp [hnot, eq_comm]
    · have hbeq : (name == key) = false := beq_eq_false_iff_ne.mpr hk
      simp [List.lookup_cons, hbeq, hk, ih hrest]

theorem ext_get? {m n : NameMap α} (h : ∀ name, m.get? name = n.get? name) : m = n := by
  refine NameMap.ext (List.Perm.eq_of_pairwise ?_ m.sorted n.sorted ?_)
  · intro a b _ _ hab hba
    exact absurd (String.lt_trans hab hba) (String.lt_irrefl _)
  · have hnodup : ∀ k : NameMap α, k.entries.Nodup := fun k =>
      k.sorted.imp fun {a b} hab (heq : a = b) => String.lt_irrefl _ (heq ▸ hab)
    refine (List.perm_ext_iff_of_nodup (hnodup m) (hnodup n)).mpr ?_
    rintro ⟨name, value⟩
    rw [mem_entries_iff, mem_entries_iff, h]

theorem get?_foldl_upsert (f : Option α → α → α) (m : NameMap α) {entries : List (String × α)}
    (hsorted : entries.Pairwise fun a b => a.1 < b.1) (name : String) :
    (entries.foldl (fun m e => m.upsert e.1 fun old => f old e.2) m).get? name =
      match entries.lookup name with
      | some x => some (f (m.get? name) x)
      | none => m.get? name := by
  induction entries generalizing m with
  | nil => rfl
  | cons e rest ih =>
    obtain ⟨key, x⟩ := e
    obtain ⟨hfirst, hrest⟩ := List.pairwise_cons.mp hsorted
    rw [List.foldl_cons, ih _ hrest, get?_upsert, List.lookup_cons]
    by_cases hk : name = key
    · subst hk
      have hnone : rest.lookup name = none := List.lookup_eq_none_iff.mpr fun e he => by
        simpa using Std.ne_of_lt (hfirst e he)
      simp [hnone]
    · have hbeq : (name == key) = false := beq_eq_false_iff_ne.mpr hk
      simp [hk, hbeq]

theorem get?_merge (f : Option α → α → α) (m other : NameMap α) (name : String) :
    (m.merge other f).get? name =
      match other.get? name with
      | some x => some (f (m.get? name) x)
      | none => m.get? name :=
  get?_foldl_upsert f m other.sorted name

end NameMap

class LawfulScalar (V : Type) [Scalar V] : Prop where
  add_comm (x y : V) : x + y = y + x
  add_assoc (x y z : V) : x + y + z = x + (y + z)
  zero_add (x : V) : Scalar.zero + x = x

instance : Scalar ℚ where
  zero := 0
  one := 1
  less a b := decide (a < b)
  atMost a b := decide (a ≤ b)

instance : LawfulScalar ℚ where
  add_comm := Rat.add_comm
  add_assoc := Rat.add_assoc
  zero_add := Rat.zero_add

namespace FeatureVector

variable {V : Type} [Scalar V] [LawfulScalar V]

theorem get?_plus (a b : FeatureVector V) (name : String) :
    (plus a b).get? name = Option.merge (· + ·) (a.get? name) (b.get? name) := by
  rw [plus, NameMap.get?_merge]
  cases b.get? name with
  | none => cases a.get? name <;> rfl
  | some y =>
    cases a.get? name with
    | none => simp [LawfulScalar.zero_add]
    | some x => simp

theorem plus_comm (a b : FeatureVector V) : plus a b = plus b a :=
  NameMap.ext_get? fun name => by
    rw [get?_plus, get?_plus]
    cases a.get? name <;> cases b.get? name <;> simp [LawfulScalar.add_comm]

theorem plus_assoc (a b c : FeatureVector V) : plus (plus a b) c = plus a (plus b c) :=
  NameMap.ext_get? fun name => by
    simp only [get?_plus]
    cases a.get? name <;> cases b.get? name <;> cases c.get? name <;>
      simp [LawfulScalar.add_assoc]

theorem empty_plus (a : FeatureVector V) : plus NameMap.empty a = a :=
  NameMap.ext_get? fun name => by
    rw [get?_plus]
    cases a.get? name <;> rfl

instance : AddCommMonoid (FeatureVector V) where
  add := plus
  zero := NameMap.empty
  nsmul := @nsmulRec _ ⟨NameMap.empty⟩ ⟨plus⟩
  nsmul_zero _ := rfl
  nsmul_succ _ _ := rfl
  add_comm := plus_comm
  add_assoc := plus_assoc
  zero_add := empty_plus
  add_zero a := (plus_comm a NameMap.empty).trans (empty_plus a)

theorem plus_eq_add (a b : FeatureVector V) : plus a b = a + b := rfl

theorem foldl_plus {α : Type} (f : α → FeatureVector V) (start : FeatureVector V) (xs : List α) :
    xs.foldl (fun sum x => plus sum (f x)) start = start + (xs.map f).sum := by
  induction xs generalizing start with
  | nil => simp
  | cons x xs ih => rw [List.foldl_cons, ih, plus_eq_add, List.map_cons, List.sum_cons, add_assoc]

end FeatureVector

end ParseForest
