/-!
# Loops without a bound

A loop runs its body until the body leaves with a result; until then it goes on with another
state. Nothing bounds the number of its turns, so it may go on for ever. It leaves after all when
every turn that goes on makes a measure smaller.
-/

namespace ParseForest

variable {σ ρ : Type} {body : σ → σ ⊕ ρ}

/-- The loop over `body` leaves a state with a result, after a number of turns. -/
inductive Leaves (body : σ → σ ⊕ ρ) : (turns : Nat) → σ → ρ → Prop
  | last {s : σ} {r : ρ} (turn : body s = .inr r) : Leaves body 1 s r
  | next {n : Nat} {s s' : σ} {r : ρ} (turn : body s = .inl s') (rest : Leaves body n s' r) :
    Leaves body (n + 1) s r

theorem Leaves.unique {m n : Nat} {s : σ} {r r' : ρ} (h : Leaves body m s r)
    (h' : Leaves body n s r') : m = n ∧ r = r' := by
  induction h generalizing n with
  | last turn =>
    cases h' with
    | last turn' => exact ⟨rfl, Sum.inr.inj (turn.symm.trans turn')⟩
    | next turn' => exact absurd (turn.symm.trans turn') nofun
  | next turn _ ih =>
    cases h' with
    | last turn' => exact absurd (turn.symm.trans turn') nofun
    | next turn' rest' =>
      cases Sum.inl.inj (turn.symm.trans turn')
      obtain ⟨rfl, rfl⟩ := ih rest'
      exact ⟨rfl, rfl⟩

theorem Leaves.iff {m n : Nat} {s : σ} {r r' : ρ} (h : Leaves body m s r) :
    Leaves body n s r' ↔ n = m ∧ r' = r := by
  constructor
  · exact fun h' => h'.unique h
  · rintro ⟨rfl, rfl⟩
    exact h

theorem Leaves.exists_last {turns : Nat} {s : σ} {r : ρ} (h : Leaves body turns s r)
    {holds : σ → Prop} (hnext : ∀ s s', holds s → body s = .inl s' → holds s') (hs : holds s) :
    ∃ s', holds s' ∧ body s' = .inr r := by
  induction h with
  | last turn => exact ⟨_, hs, turn⟩
  | next turn _ ih => exact ih (hnext _ _ hs turn)

/-- A loop that is run on fuel has its result when there is as much fuel as the loop has turns. -/
theorem Leaves.run_eq {α : Type} (run : Nat → σ → α) (result : ρ → α)
    (hrun : ∀ fuel s, run (fuel + 1) s = (body s).elim (run fuel) result) {turns : Nat} {s : σ}
    {r : ρ} (h : Leaves body turns s r) {fuel : Nat} (hfuel : turns ≤ fuel) :
    run fuel s = result r := by
  induction h generalizing fuel with
  | last turn =>
    obtain ⟨fuel, rfl⟩ := Nat.exists_eq_succ_of_ne_zero (Nat.ne_of_gt hfuel)
    rw [hrun, turn, Sum.elim_inr]
  | next turn _ ih =>
    cases fuel with
    | zero => exact absurd hfuel (Nat.not_succ_le_zero _)
    | succ fuel =>
      rw [hrun, turn, Sum.elim_inl]
      exact ih (Nat.le_of_succ_le_succ hfuel)

variable (body) in
/-- A loop leaves when the turns that go on keep an invariant and make a measure smaller. -/
theorem exists_leaves {holds : σ → Prop} {measure : σ → Nat}
    (hnext : ∀ s s', holds s → body s = .inl s' → holds s' ∧ measure s' < measure s) {s : σ}
    (h : holds s) : ∃ turns r, Leaves body turns s r ∧ turns ≤ measure s + 1 := by
  induction hm : measure s using Nat.strongRecOn generalizing s with
  | ind m ih =>
    cases hturn : body s with
    | inr r => exact ⟨1, r, .last hturn, Nat.le_add_left 1 m⟩
    | inl s' =>
      obtain ⟨h', hlt⟩ := hnext s s' h hturn
      obtain ⟨turns, r, hrest, hle⟩ := ih (measure s') (hm ▸ hlt) h' rfl
      exact ⟨turns + 1, r, .next hturn hrest, by omega⟩

end ParseForest
