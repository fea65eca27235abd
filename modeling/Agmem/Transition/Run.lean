import Mathlib.Data.List.Basic

/-! Runs of a system whose actions may be refused. A run lists the actions that
went through, each with the state it found and the state it left; a refused action
leaves no entry, because it leaves no trace in the state. -/

namespace Agmem.Transition

variable {σ α : Type*}

/-- One action that went through. -/
structure Step (σ α : Type*) where
  source : σ
  action : α
  target : σ

inductive Run (step : σ → α → Option σ) : σ → List (Step σ α) → σ → Prop
  | nil (s : σ) : Run step s [] s
  | cons {s t u : σ} {a : α} {steps : List (Step σ α)} (h : step s a = some t)
      (rest : Run step t steps u) : Run step s (⟨s, a, t⟩ :: steps) u

def Reachable (step : σ → α → Option σ) (s t : σ) : Prop := ∃ steps, Run step s steps t

namespace Run

variable {step : σ → α → Option σ} {s t u : σ} {steps more : List (Step σ α)}

theorem append (h : Run step s steps t) (h' : Run step t more u) :
    Run step s (steps ++ more) u := by
  induction h with
  | nil s => exact h'
  | cons hs _ ih => exact .cons hs (ih h')

theorem snoc {a : α} (h : Run step s steps t) (ha : step t a = some u) :
    Run step s (steps ++ [⟨t, a, u⟩]) u :=
  h.append (.cons ha (.nil u))

/-- A relation kept by the steps of a run holds at both ends of each of them. The
premise `Q` carries whatever the run is known to satisfy step by step. -/
theorem invariant {I : σ → Prop} {Q : Step σ α → Prop}
    (hstep : ∀ s a t, step s a = some t → Q ⟨s, a, t⟩ → I s → I t)
    (h : Run step s steps u) (hQ : ∀ e ∈ steps, Q e) (h₀ : I s) :
    I u ∧ ∀ e ∈ steps, I e.source ∧ I e.target := by
  induction h with
  | nil s => exact ⟨h₀, by simp⟩
  | cons hs _ ih =>
    have h₁ := hstep _ _ _ hs (hQ _ List.mem_cons_self) h₀
    obtain ⟨hu, hall⟩ := ih (fun e he => hQ e (List.mem_cons_of_mem _ he)) h₁
    exact ⟨hu, List.forall_mem_cons.mpr ⟨⟨h₀, h₁⟩, hall⟩⟩

/-- If a step taken in a good state ends in a good state exactly when it meets `Q`, then a
run stays good exactly when all of its steps meet `Q`. The premise `K` carries whatever the run
is known to satisfy step by step. -/
theorem forall_iff {I P : σ → Prop} {K Q : Step σ α → Prop}
    (hinv : ∀ s a t, step s a = some t → K ⟨s, a, t⟩ → I s → I t)
    (hstep : ∀ s a t, step s a = some t → K ⟨s, a, t⟩ → I s → P s → (P t ↔ Q ⟨s, a, t⟩))
    (h : Run step s steps u) (hK : ∀ e ∈ steps, K e) (h₀ : I s) (hP : P s) :
    (∀ e ∈ steps, P e.target) ↔ ∀ e ∈ steps, Q e := by
  induction h with
  | nil s => simp
  | @cons s t u a steps hs _ ih =>
    obtain ⟨hk, hK⟩ := List.forall_mem_cons.mp hK
    have hiff := hstep _ _ _ hs hk h₀ hP
    have ht := hinv _ _ _ hs hk h₀
    simp only [List.forall_mem_cons]
    constructor
    · rintro ⟨hpt, hall⟩
      exact ⟨hiff.mp hpt, (ih hK ht hpt).mp hall⟩
    · rintro ⟨hq, hall⟩
      exact ⟨hiff.mpr hq, (ih hK ht (hiff.mpr hq)).mpr hall⟩

/-- If each step of a run keeps `P` exactly when it meets `Q`, as long as the steps before it met
`Q`, then all of them keep `P` exactly when all of them meet `Q`. -/
theorem forall_congr {I : σ → Prop} {P Q : Step σ α → Prop}
    (hstep : ∀ s a t, step s a = some t → I s → (P ⟨s, a, t⟩ ↔ Q ⟨s, a, t⟩))
    (hinv : ∀ s a t, step s a = some t → Q ⟨s, a, t⟩ → I s → I t)
    (h : Run step s steps u) (h₀ : I s) : (∀ e ∈ steps, P e) ↔ ∀ e ∈ steps, Q e := by
  induction h with
  | nil s => simp
  | @cons s t u a steps hs _ ih =>
    have hiff := hstep _ _ _ hs h₀
    simp only [List.forall_mem_cons]
    constructor
    · rintro ⟨hp, hall⟩
      have hq := hiff.mp hp
      exact ⟨hq, (ih (hinv _ _ _ hs hq h₀)).mp hall⟩
    · rintro ⟨hq, hall⟩
      exact ⟨hiff.mpr hq, (ih (hinv _ _ _ hs hq h₀)).mpr hall⟩

/-- If every step ends in `P` exactly when it starts in `P` and meets `Q`, a run ends in `P` exactly
when it starts in `P` and all of its steps meet `Q`. -/
theorem iff_forall {I P : σ → Prop} {K Q : Step σ α → Prop}
    (hinv : ∀ s a t, step s a = some t → K ⟨s, a, t⟩ → I s → I t)
    (hstep : ∀ s a t, step s a = some t → K ⟨s, a, t⟩ → I s → (P t ↔ P s ∧ Q ⟨s, a, t⟩))
    (h : Run step s steps u) (hK : ∀ e ∈ steps, K e) (h₀ : I s) :
    P u ↔ P s ∧ ∀ e ∈ steps, Q e := by
  induction h with
  | nil s => simp
  | cons hs _ ih =>
    obtain ⟨hk, hK⟩ := List.forall_mem_cons.mp hK
    rw [ih hK (hinv _ _ _ hs hk h₀), hstep _ _ _ hs hk h₀, List.forall_mem_cons, and_assoc]

end Run

theorem Reachable.refl {step : σ → α → Option σ} (s : σ) : Reachable step s s := ⟨[], .nil s⟩

/-- What holds at the start and is kept by every step holds wherever a run can get. -/
theorem Reachable.invariant {step : σ → α → Option σ} {I : σ → Prop} {s t : σ}
    (hstep : ∀ s a t, step s a = some t → I s → I t) (h : Reachable step s t) (h₀ : I s) :
    I t := by
  obtain ⟨steps, h⟩ := h
  exact (h.invariant (Q := fun _ => True) (fun s a t hs _ => hstep s a t hs)
    (fun _ _ => trivial) h₀).1

/-- Take the actions in order, giving up at the first that is refused. -/
def exec (step : σ → α → Option σ) (s : σ) : List α → Option (List (Step σ α) × σ)
  | [] => some ([], s)
  | a :: as =>
    match step s a with
    | none => none
    | some t => (exec step t as).map fun u => (⟨s, a, t⟩ :: u.1, u.2)

theorem exec_run {step : σ → α → Option σ} {s t : σ} {as : List α} {steps : List (Step σ α)}
    (h : exec step s as = some (steps, t)) : Run step s steps t ∧ ∀ e ∈ steps, e.action ∈ as := by
  induction as generalizing s steps with
  | nil => cases h; exact ⟨.nil _, by simp⟩
  | cons a as ih =>
    unfold exec at h
    split at h
    · cases h
    · next u hu =>
      obtain ⟨⟨more, v⟩, hmore, he⟩ := Option.map_eq_some_iff.mp h
      cases he
      obtain ⟨hrun, hact⟩ := ih hmore
      refine ⟨.cons hu hrun, List.forall_mem_cons.mpr ⟨List.mem_cons_self, fun e he => ?_⟩⟩
      exact List.mem_cons_of_mem _ (hact e he)

/-- What evaluates to true at the end of a script holds at the end of a run. -/
theorem exists_run_of_exec (step : σ → α → Option σ) (s : σ) (as : List α)
    (p : List (Step σ α) × σ → Bool) (h : (exec step s as).any p = true) :
    ∃ steps t, Run step s steps t ∧ (∀ e ∈ steps, e.action ∈ as) ∧ p (steps, t) = true := by
  obtain ⟨⟨steps, t⟩, he, hp⟩ := Option.any_eq_true .. |>.mp h
  exact ⟨steps, t, (exec_run he).1, (exec_run he).2, hp⟩

end Agmem.Transition
