import Agmem.Transition.Run
import Mathlib.Tactic.SplitIfs

/-! A read that is a script of statements. Each statement takes note of what it finds in the store
as it is at that moment, and the last one answers from the notes and the store; between any two
of them the rest of the world may change the store. -/

namespace Agmem.Transition.Scripts

variable {σ ν ε ρ α : Type*}

structure Script (σ ν ε ρ : Type*) where
  start : ν
  statements : List (σ → ν → Except ε ν)
  answer : σ → ν → Except ε ρ

inductive Phase (σ ν ε ρ : Type*) where
  | running (left : List (σ → ν → Except ε ν)) (note : ν)
  | done (note : ν) (result : Except ε ρ)

structure State (σ ν ε ρ : Type*) where
  store : σ
  phase : Phase σ ν ε ρ

inductive Action (α : Type*) where
  | statement
  | other (action : α)

def initial (c : Script σ ν ε ρ) (s : σ) : State σ ν ε ρ := ⟨s, .running c.statements c.start⟩

/-- The next statement, on the store as it is. -/
def advance (c : Script σ ν ε ρ) (s : σ) : Phase σ ν ε ρ → Option (Phase σ ν ε ρ)
  | .running (st :: left) note =>
    match st s note with
    | .error e => some (.done note (.error e))
    | .ok note => some (.running left note)
  | .running [] note => some (.done note (c.answer s note))
  | .done _ _ => none

/-- `env` says what the rest of the world can do. -/
def step (c : Script σ ν ε ρ) (env : σ → α → Option σ) (S : State σ ν ε ρ) :
    Action α → Option (State σ ν ε ρ)
  | .statement => (advance c S.store S.phase).map fun p => ⟨S.store, p⟩
  | .other a => (env S.store a).map fun s => ⟨s, S.phase⟩

/-- The statements in order, with the store to themselves. -/
def Script.aloneFrom (c : Script σ ν ε ρ) (s : σ) :
    List (σ → ν → Except ε ν) → ν → Except ε ρ
  | [], note => c.answer s note
  | st :: left, note =>
    match st s note with
    | .error e => .error e
    | .ok note => c.aloneFrom s left note

def Script.alone (c : Script σ ν ε ρ) (s : σ) : Except ε ρ := c.aloneFrom s c.statements c.start

/-- A statement, or the answer, fails on the store it meets. -/
def Failing (c : Script σ ν ε ρ) (s : σ) : Phase σ ν ε ρ → Prop
  | .running (st :: _) note => ∃ e, st s note = .error e
  | .running [] note => ∃ e, c.answer s note = .error e
  | .done _ _ => False

/-- A step at which the read fails. -/
def Fails (c : Script σ ν ε ρ) (e : Step (State σ ν ε ρ) (Action α)) : Prop :=
  e.action = .statement ∧ Failing c e.source.store e.source.phase

/-- The read has not ended in an error. -/
def Answered (S : State σ ν ε ρ) : Prop := ∀ note e, S.phase ≠ .done note (.error e)

variable {c : Script σ ν ε ρ} {env : σ → α → Option σ} {S T : State σ ν ε ρ} {a : Action α} {s : σ}
  {steps : List (Step (State σ ν ε ρ) (Action α))}

/-- What a script returns is an answer from some notes. -/
theorem exists_answer_of_aloneFrom {left : List (σ → ν → Except ε ν)} {note : ν} {result : ρ}
    (h : c.aloneFrom s left note = .ok result) : ∃ last, c.answer s last = .ok result := by
  induction left generalizing note with
  | nil => exact ⟨note, h⟩
  | cons st left ih =>
    rw [Script.aloneFrom] at h
    cases hst : st s note with
    | error e => simp [hst] at h
    | ok next =>
      rw [hst] at h
      exact ih h

/-- What every statement keeps on one store is true of the notes that the answer is from. -/
theorem exists_kept_answer {I : ν → Prop} {left : List (σ → ν → Except ε ν)} {note : ν}
    {result : ρ} (hkeeps : ∀ st ∈ left, ∀ note next, I note → st s note = .ok next → I next)
    (hnote : I note) (h : c.aloneFrom s left note = .ok result) :
    ∃ last, I last ∧ c.answer s last = .ok result := by
  induction left generalizing note with
  | nil => exact ⟨note, hnote, h⟩
  | cons st left ih =>
    obtain ⟨hst, hleft⟩ := List.forall_mem_cons.mp hkeeps
    rw [Script.aloneFrom] at h
    cases hnext : st s note with
    | error e => simp [hnext] at h
    | ok next =>
      rw [hnext] at h
      exact ih hleft (hst note next hnote hnext) h

theorem answered_step (h : step c env S a = some T) :
    Answered T ↔ Answered S ∧ ¬ Fails c ⟨S, a, T⟩ := by
  obtain ⟨store, phase⟩ := S
  cases a with
  | other a =>
    obtain ⟨t, -, rfl⟩ := Option.map_eq_some_iff.mp h
    simp [Answered, Fails]
  | statement =>
    obtain ⟨p, hp, rfl⟩ := Option.map_eq_some_iff.mp h
    simp only [Answered, Fails, true_and]
    cases phase with
    | done note r => cases hp
    | running left note =>
      cases left with
      | nil =>
        cases hp
        cases hans : c.answer store note <;> simp [Failing, hans]
      | cons st left =>
        simp only [advance] at hp
        cases hst : st store note with
        | error e =>
          simp only [hst, Option.some.injEq] at hp
          subst hp
          simp [Failing, hst]
        | ok note' =>
          simp only [hst, Option.some.injEq] at hp
          subst hp
          simp [Failing, hst]

/-- A read fails exactly when one of its statements does. -/
theorem answered_iff (h : Run (step c env) (initial c s) steps S) :
    Answered S ↔ ∀ e ∈ steps, ¬ Fails c e := by
  rw [h.iff_forall (I := fun _ => True) (P := Answered) (K := fun _ => True)
    (Q := fun e => ¬ Fails c e) (fun _ _ _ _ _ _ => trivial)
    (fun S a T hs _ _ => answered_step hs) (fun _ _ => trivial) trivial]
  exact and_iff_right fun note e hat => by cases hat

section Knows

/-- What a read knows: `N` of the statements that are left, of its notes and of the store; and an
answer was given on a store that the present one came from. -/
def Knows (c : Script σ ν ε ρ) (N : List (σ → ν → Except ε ν) → ν → σ → Prop) (R : σ → σ → Prop)
    (S : State σ ν ε ρ) : Prop :=
  match S.phase with
  | .running left note => N left note S.store
  | .done _ (.error _) => True
  | .done note (.ok out) => ∃ s, N [] note s ∧ c.answer s note = .ok out ∧ R s S.store

variable {N : List (σ → ν → Except ε ν) → ν → σ → Prop} {R : σ → σ → Prop}
  (hN : ∀ s st left note note', N (st :: left) note s → st s note = .ok note' → N left note' s)
  (henv : ∀ s a t, env s a = some t → R s t) (hkeep : ∀ left note s t, N left note s → R s t →
    N left note t)
  (hrefl : ∀ s, R s s) (htrans : ∀ r s t, R r s → R s t → R r t)
include hN henv hkeep hrefl htrans

theorem knows_step (h : step c env S a = some T) (hk : Knows c N R S) : Knows c N R T := by
  obtain ⟨store, phase⟩ := S
  cases a with
  | other a =>
    obtain ⟨t, ht, rfl⟩ := Option.map_eq_some_iff.mp h
    have hR := henv store a t ht
    cases phase with
    | running left note => exact hkeep left note store t hk hR
    | done note r =>
      cases r with
      | error e => trivial
      | ok out =>
        obtain ⟨s, hnote, hs, hr⟩ := hk
        exact ⟨s, hnote, hs, htrans s store t hr hR⟩
  | statement =>
    obtain ⟨p, hp, rfl⟩ := Option.map_eq_some_iff.mp h
    cases phase with
    | done note r => cases hp
    | running left note =>
      cases left with
      | nil =>
        cases hp
        cases hans : c.answer store note with
        | error e => trivial
        | ok out => exact ⟨store, hk, hans, hrefl store⟩
      | cons st left =>
        simp only [advance] at hp
        cases hst : st store note with
        | error e =>
          simp only [hst, Option.some.injEq] at hp
          subst hp
          trivial
        | ok note' =>
          simp only [hst, Option.some.injEq] at hp
          subst hp
          exact hN store st left note note' hk hst

/-- What holds of the notes at the start, and is kept by the statements and by the rest of the
world, is known all along. -/
theorem knows (h₀ : N c.statements c.start s) (h : Run (step c env) (initial c s) steps S) :
    Knows c N R S ∧ ∀ e ∈ steps, Knows c N R e.source := by
  obtain ⟨hS, hsteps⟩ := h.invariant (I := Knows c N R) (Q := fun _ => True)
    (fun S a T hs _ hk => knows_step hN henv hkeep hrefl htrans hs hk) (fun _ _ => trivial) h₀
  exact ⟨hS, fun e he => (hsteps e he).1⟩

end Knows

end Agmem.Transition.Scripts
