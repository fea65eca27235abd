import Mathlib.Logic.Function.Basic
import Mathlib.Tactic.SplitIfs

/-! A lock that processes take and give back. Whether a process holds the lock shows in where it is;
the lock is guarded if its owner, and nobody else, is where one holds it. -/

namespace Agmem.Transition

variable {κ α : Type*}

/-- Exactly the owner of the lock is where one holds it. -/
def Guarded (lock : Option κ) (holds : α → Prop) (place : κ → α) : Prop :=
  ∀ c, holds (place c) ↔ lock = some c

variable [DecidableEq κ]

/-- What is left of a lock once a process is gone. -/
def release (lock : Option κ) (c : κ) : Option κ := if lock = some c then none else lock

namespace Guarded

variable {lock : Option κ} {holds : α → Prop} {place : κ → α} {c d : κ} {x : α}

omit [DecidableEq κ] in
theorem unique (h : Guarded lock holds place) (hc : holds (place c)) (hd : holds (place d)) :
    d = c := by
  have hlock := (h c).mp hc
  rw [(h d).mp hd, Option.some.injEq] at hlock
  exact hlock

omit [DecidableEq κ] in
theorem free (h : Guarded none holds place) (c : κ) : ¬ holds (place c) := by
  intro hc
  cases (h c).mp hc

/-- A process moves on, with the lock or without it as before. -/
theorem stay (h : Guarded lock holds place) (hx : holds x ↔ holds (place c)) :
    Guarded lock holds (Function.update place c x) := by
  intro d
  by_cases hd : d = c
  · subst hd
    rw [Function.update_self]
    exact hx.trans (h d)
  · rw [Function.update_of_ne hd]
    exact h d

/-- A process takes the lock that nobody holds. -/
theorem take (h : Guarded none holds place) (hx : holds x) :
    Guarded (some c) holds (Function.update place c x) := by
  intro d
  by_cases hd : d = c
  · subst hd
    rw [Function.update_self]
    exact iff_of_true hx rfl
  · rw [Function.update_of_ne hd]
    refine iff_of_false (h.free d) fun heq => ?_
    exact hd (Option.some.inj heq).symm

/-- A process gives the lock back, if it had it. -/
theorem drop (h : Guarded lock holds place) (hx : ¬ holds x) :
    Guarded (release lock c) holds (Function.update place c x) := by
  intro d
  unfold release
  by_cases hd : d = c
  · subst hd
    rw [Function.update_self]
    refine iff_of_false hx fun heq => ?_
    split_ifs at heq with hlock
    exact hlock heq
  · rw [Function.update_of_ne hd, h d]
    split_ifs with hlock
    · rw [hlock]
      refine iff_of_false (fun heq => ?_) nofun
      exact hd (Option.some.inj heq).symm
    · exact Iff.rfl

end Guarded

end Agmem.Transition
