import Agmem.Transition.Run

/-! What holds now has held since the last step that could bring it about. Steps of a run are named
by their place in it. -/

namespace Agmem.Transition

variable {σ α : Type*} {step : σ → α → Option σ} {s t u : σ} {steps : List (Step σ α)}

namespace Run

/-- A step of a run is taken from the state it found. -/
theorem step_eq (h : Run step s steps u) {n : ℕ} {e : Step σ α} (he : steps[n]? = some e) :
    step e.source e.action = some e.target := by
  induction h generalizing n with
  | nil s => simp at he
  | cons hs _ ih =>
    cases n with
    | zero =>
      cases he
      exact hs
    | succ n => exact ih he

/-- The part of a run before one of its steps. -/
theorem take (h : Run step s steps u) {n : ℕ} {e : Step σ α} (he : steps[n]? = some e) :
    Run step s (steps.take n) e.source := by
  induction h generalizing n with
  | nil s => simp at he
  | cons hs _ ih =>
    cases n with
    | zero =>
      cases he
      exact .nil _
    | succ n => exact .cons hs (ih he)

/-- The steps after a place in the run leave `P` as it is. -/
def HeldFrom (P : σ → Prop) (steps : List (Step σ α)) (n : ℕ) : Prop :=
  ∀ m e, n ≤ m → steps[m]? = some e → P e.source ∧ P e.target

/-- What holds at the end of a run and not at its start holds since the last step that brought it
about. -/
theorem since {P : σ → Prop} {A : Step σ α → Prop}
    (hkeep : ∀ s a t, step s a = some t → P t → P s ∨ A ⟨s, a, t⟩) (h : Run step s steps u)
    (hu : P u) : P s ∧ HeldFrom P steps 0 ∨
      ∃ n e, steps[n]? = some e ∧ A e ∧ P e.target ∧ HeldFrom P steps (n + 1) := by
  induction h with
  | nil s => exact .inl ⟨hu, fun m e _ he => by simp at he⟩
  | @cons s t u a steps hs _ ih =>
    rcases ih hu with ⟨ht, hheld⟩ | ⟨n, e, he, hA, hP, hheld⟩
    · rcases hkeep s a t hs ht with hPs | hA
      · refine .inl ⟨hPs, fun m e _ he => ?_⟩
        cases m with
        | zero =>
          cases he
          exact ⟨hPs, ht⟩
        | succ m => exact hheld m e (Nat.zero_le m) he
      · refine .inr ⟨0, _, rfl, hA, ht, fun m e hm he => ?_⟩
        cases m with
        | zero => omega
        | succ m => exact hheld m e (Nat.zero_le m) he
    · refine .inr ⟨n + 1, e, he, hA, hP, fun m f hm hf => ?_⟩
      cases m with
      | zero => omega
      | succ m => exact hheld m f (by omega) hf

/-- What holds where a step of the run starts was brought about by an earlier one, and has held from
there. -/
theorem since_start {P : σ → Prop} {A : Step σ α → Prop}
    (hkeep : ∀ s a t, step s a = some t → P t → P s ∨ A ⟨s, a, t⟩) (h : Run step s steps u)
    (hs : ¬ P s) {n : ℕ} {e : Step σ α} (he : steps[n]? = some e) (hP : P e.source) :
    ∃ m d, m < n ∧ steps[m]? = some d ∧ A d ∧ P d.target ∧
      ∀ l f, m < l → l < n → steps[l]? = some f → P f.source ∧ P f.target := by
  rcases since hkeep (h.take he) hP with ⟨hPs, -⟩ | ⟨m, d, hd, hA, hPd, hheld⟩
  · exact absurd hPs hs
  · have hm : m < n := by
      have := (List.getElem?_eq_some_iff.mp hd).1
      rw [List.length_take] at this
      omega
    rw [List.getElem?_take_of_lt hm] at hd
    refine ⟨m, d, hm, hd, hA, hPd, fun l f hl hln hf => hheld l f hl ?_⟩
    rw [List.getElem?_take_of_lt hln]
    exact hf

/-- What every step keeps holds from one place of the run to every later one. -/
theorem lasting {P : σ → Prop} (hkeep : ∀ s a t, step s a = some t → P s → P t)
    (h : Run step s steps u) {m n : ℕ} {d e : Step σ α} (hd : steps[m]? = some d)
    (hP : P d.target) (hmn : m < n) (he : steps[n]? = some e) : P e.source := by
  induction h generalizing m n with
  | nil s => simp at hd
  | @cons s t u a steps hs hrest ih =>
    cases n with
    | zero => omega
    | succ n =>
      cases m with
      | zero =>
        cases hd
        have hall := hrest.take he
        exact (hall.invariant (I := P) (Q := fun _ => True) (fun s a t hst _ => hkeep s a t hst)
          (fun _ _ => trivial) hP).1
      | succ m => exact ih hd (by omega) he

end Run

end Agmem.Transition
