import Mathlib.Data.List.Nodup

/-!
# Lists that enumerate

A list is enumerated by a predicate `P` through a partial function `f` when it holds the values
of `f`, one for each `x` with `P x` on which `f` is defined, in some order and with repetitions.
So membership in the list is decided by `P`, and an element comes up as often as there are ways
to come by it.
-/

namespace ParseForest

variable {α β γ δ ι : Type}

def Enumerates (f : α → Option β) (P : α → Prop) (ys : List β) : Prop :=
  ∃ xs : List α, xs.Nodup ∧ (∀ x, x ∈ xs ↔ P x) ∧ xs.filterMap f = ys

namespace Enumerates

variable {f : α → Option β} {P Q : α → Prop} {ys zs : List β}

theorem mem_iff (h : Enumerates f P ys) (y : β) : y ∈ ys ↔ ∃ x, P x ∧ f x = some y := by
  obtain ⟨xs, -, hmem, rfl⟩ := h
  simp only [List.mem_filterMap, hmem]

theorem congr (h : Enumerates f P ys) (hPQ : ∀ x, P x ↔ Q x) : Enumerates f Q ys := by
  obtain ⟨xs, hnd, hmem, heq⟩ := h
  exact ⟨xs, hnd, fun x => (hmem x).trans (hPQ x), heq⟩

theorem nil (h : ∀ x, ¬P x) : Enumerates f P [] :=
  ⟨[], List.nodup_nil, fun x => by simpa using h x, rfl⟩

theorem singleton {x : α} {y : β} (hP : ∀ z, P z ↔ z = x) (hx : f x = some y) :
    Enumerates f P [y] := by
  refine ⟨[x], List.nodup_singleton x, fun z => ?_, by simp [hx]⟩
  rw [hP, List.mem_singleton]

theorem append (h : Enumerates f P ys) (k : Enumerates f Q zs) (hdis : ∀ x, P x → ¬Q x) :
    Enumerates f (fun x => P x ∨ Q x) (ys ++ zs) := by
  obtain ⟨xs, hnd, hmem, rfl⟩ := h
  obtain ⟨xs', hnd', hmem', rfl⟩ := k
  refine ⟨xs ++ xs', ?_, fun x => ?_, List.filterMap_append⟩
  · refine List.Nodup.append hnd hnd' fun x hx hx' => ?_
    exact hdis x ((hmem x).mp hx) ((hmem' x).mp hx')
  · rw [List.mem_append, hmem, hmem']

theorem step (h : Enumerates f P ys) {g : γ → Option δ} {k : α → γ} {s : β → Option δ}
    (hk : Function.Injective k) (hg : ∀ x, g (k x) = (f x).bind s) :
    Enumerates g (fun z => ∃ x, P x ∧ z = k x) (ys.filterMap s) := by
  obtain ⟨xs, hnd, hmem, rfl⟩ := h
  refine ⟨xs.map k, hnd.map hk, fun z => ?_, ?_⟩
  · simp only [List.mem_map, hmem]
    exact exists_congr fun x => and_congr_right fun _ => eq_comm
  · rw [List.filterMap_map, List.filterMap_filterMap]
    exact List.filterMap_congr fun x _ => hg x

theorem flatMap {is : List ι} (his : is.Nodup) {R : ι → α → Prop} {l : ι → List β}
    (h : ∀ i ∈ is, Enumerates f (R i) (l i)) (hdis : ∀ i j x, R i x → R j x → i = j) :
    Enumerates f (fun x => ∃ i ∈ is, R i x) (is.flatMap l) := by
  induction is with
  | nil => exact nil fun x => by simp
  | cons i is ih =>
    obtain ⟨hi, hnd⟩ := List.nodup_cons.mp his
    have hrest := ih hnd fun j hj => h j (List.mem_cons_of_mem _ hj)
    have hfirst := h i List.mem_cons_self
    have hsep : ∀ x, R i x → ¬∃ j ∈ is, R j x := by
      rintro x hx ⟨j, hj, hjx⟩
      exact hi (hdis i j x hx hjx ▸ hj)
    rw [List.flatMap_cons]
    refine (hfirst.append hrest hsep).congr fun x => ?_
    simp

theorem product (h : Enumerates f P ys) {es : List ι} (hes : es.Nodup) {g : γ → Option δ}
    {k : α → ι → γ} {s : β → ι → Option δ} (hk : ∀ x e x' e', k x e = k x' e' → x = x' ∧ e = e')
    (hg : ∀ x e, g (k x e) = (f x).bind fun y => s y e) :
    Enumerates g (fun z => ∃ x e, P x ∧ e ∈ es ∧ z = k x e)
      (ys.flatMap fun y => es.filterMap (s y)) := by
  obtain ⟨xs, hnd, hmem, rfl⟩ := h
  refine ⟨xs.flatMap fun x => es.map (k x), ?_, fun z => ?_, ?_⟩
  · refine List.nodup_flatMap.mpr ⟨fun x _ => hes.map fun e e' he => (hk x e x e' he).2, ?_⟩
    refine hnd.imp_of_mem fun {x x'} _ _ hne => ?_
    refine List.disjoint_left.mpr fun z hz hz' => ?_
    obtain ⟨e, -, rfl⟩ := List.mem_map.mp hz
    obtain ⟨e', -, he⟩ := List.mem_map.mp hz'
    exact hne (hk x' e' x e he).1.symm
  · simp only [List.mem_flatMap, List.mem_map, hmem]
    constructor
    · rintro ⟨x, hx, e, he, rfl⟩
      exact ⟨x, e, hx, he, rfl⟩
    · rintro ⟨x, e, hx, he, rfl⟩
      exact ⟨x, hx, e, he, rfl⟩
  · rw [List.filterMap_flatMap]
    clear hnd hmem
    induction xs with
    | nil => rfl
    | cons x xs ih =>
      have hx : (es.map (k x)).filterMap g = es.filterMap fun e => (f x).bind fun y => s y e := by
        rw [List.filterMap_map]
        exact List.filterMap_congr fun e _ => hg x e
      rw [List.flatMap_cons, ih, hx]
      cases hfx : f x with
      | none => simp [hfx]
      | some y => simp [hfx]

theorem filterMap_getElem?_range (l : List δ) :
    (List.range l.length).filterMap (fun i => l[i]?) = l := by
  induction l with
  | nil => rfl
  | cons a l ih =>
    rw [List.length_cons, List.range_succ_eq_map, List.filterMap_cons, List.filterMap_map]
    exact congrArg (a :: ·) ih

theorem each (h : Enumerates f P ys) (l : β → List δ) :
    Enumerates (fun z : α × Nat => (f z.1).bind fun y => (l y)[z.2]?)
      (fun z => P z.1 ∧ ∃ y, f z.1 = some y ∧ z.2 < (l y).length) (ys.flatMap l) := by
  obtain ⟨xs, hnd, hmem, rfl⟩ := h
  have hone : ∀ x : α, Enumerates (fun z : α × Nat => (f z.1).bind fun y => (l y)[z.2]?)
      (fun z => z.1 = x ∧ ∃ y, f z.1 = some y ∧ z.2 < (l y).length)
      ((f x).toList.flatMap l) := by
    intro x
    cases hx : f x with
    | none =>
      refine nil ?_
      rintro z ⟨rfl, y, hy, -⟩
      rw [hx] at hy
      cases hy
    | some y =>
      refine ⟨(List.range (l y).length).map fun i => (x, i),
        List.nodup_range.map fun i j hij => (Prod.mk.inj hij).2, fun z => ?_, ?_⟩
      · rw [List.mem_map]
        constructor
        · rintro ⟨i, hi, rfl⟩
          exact ⟨rfl, y, hx, List.mem_range.mp hi⟩
        · rintro ⟨rfl, y', hy', hlt⟩
          rw [hx] at hy'
          cases hy'
          exact ⟨z.2, List.mem_range.mpr hlt, rfl⟩
      · rw [List.filterMap_map]
        simp only [Function.comp_def, hx, Option.bind_some, Option.toList_some,
          List.flatMap_cons, List.flatMap_nil, List.append_nil]
        exact filterMap_getElem?_range (l y)
  have hall := flatMap hnd (fun x _ => hone x) fun x x' z hz hz' => hz.1.symm.trans hz'.1
  have heq : (xs.filterMap f).flatMap l = xs.flatMap fun x => (f x).toList.flatMap l := by
    rw [List.filterMap_eq_flatMap_toList, List.flatMap_assoc]
  rw [heq]
  refine hall.congr fun z => ?_
  constructor
  · rintro ⟨x, hx, rfl, hrest⟩
    exact ⟨(hmem _).mp hx, hrest⟩
  · rintro ⟨hz, hrest⟩
    exact ⟨z.1, (hmem _).mpr hz, rfl, hrest⟩

end Enumerates

end ParseForest
