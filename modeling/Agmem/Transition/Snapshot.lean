import Agmem.Transition.Run
import Mathlib.Logic.Function.Basic

/-! Callers that each run one transaction, and try once. A transaction decides on what it saw when
it was opened whether it writes. The engine lets one that writes nothing commit, and one that
writes if the part of the store it looked at still reads as it did; another one loses to the
caller that changed it. -/

namespace Agmem.Transition.Snapshot

variable {ι σ κ ε : Type*}

structure Tx (σ κ ε : Type*) where
  view : σ → κ
  writes : κ → Bool
  body : σ → Except ε σ
  /-- How the engine reports a lost race. -/
  lost : ε → Bool

inductive Phase (κ ε : Type*) where
  | waiting
  | opened (seen : κ)
  | done (result : Except ε Unit)

structure State (ι σ κ ε : Type*) where
  store : σ
  phase : ι → Phase κ ε

/-- A caller opens its transaction, or commits it; `error` is what it is told if it loses. -/
inductive Action (ι ε : Type*) where
  | begin (caller : ι)
  | commit (caller : ι) (error : ε)

def initial (s : σ) : State ι σ κ ε := ⟨s, fun _ => .waiting⟩

/-- What the transaction saw no longer holds, and it writes. -/
def Tx.Clashes (tx : Tx σ κ ε) (seen : κ) (s : σ) : Prop := tx.writes seen = true ∧ tx.view s ≠ seen

instance [DecidableEq κ] (tx : Tx σ κ ε) (seen : κ) (s : σ) : Decidable (tx.Clashes seen s) :=
  inferInstanceAs (Decidable (_ ∧ _))

variable [DecidableEq ι] [DecidableEq κ]

def step (tx : ι → Tx σ κ ε) (S : State ι σ κ ε) : Action ι ε → Option (State ι σ κ ε)
  | .begin i =>
    match S.phase i with
    | .waiting => some ⟨S.store, Function.update S.phase i (.opened ((tx i).view S.store))⟩
    | _ => none
  | .commit i e =>
    match S.phase i with
    | .opened seen =>
      if (tx i).Clashes seen S.store then
        if (tx i).lost e then some ⟨S.store, Function.update S.phase i (.done (.error e))⟩ else none
      else
        match (tx i).body S.store with
        | .ok t => some ⟨t, Function.update S.phase i (.done (.ok ()))⟩
        | .error e => some ⟨S.store, Function.update S.phase i (.done (.error e))⟩
    | _ => none

omit [DecidableEq ι] [DecidableEq κ] in
/-- A caller commits a write that rests on what no longer holds. -/
def Overtaken (tx : ι → Tx σ κ ε) (e : Step (State ι σ κ ε) (Action ι ε)) : Prop :=
  ∃ i error seen, e.action = .commit i error ∧ e.source.phase i = .opened seen ∧
    (tx i).Clashes seen e.source.store

omit [DecidableEq ι] [DecidableEq κ] in
/-- No caller was sent away with an error. -/
def Served (S : State ι σ κ ε) : Prop := ∀ i e, S.phase i ≠ .done (.error e)

variable {tx : ι → Tx σ κ ε} {S T : State ι σ κ ε} {a : Action ι ε} {s : σ}
  {steps : List (Step (State ι σ κ ε) (Action ι ε))}

omit [DecidableEq κ] in
theorem served_update {i : ι} {p : Phase κ ε} {t : σ} (hopen : ∀ r, S.phase i ≠ .done r) :
    Served ⟨t, Function.update S.phase i p⟩ ↔ Served S ∧ ∀ e, p ≠ .done (.error e) := by
  constructor
  · intro h
    constructor
    · intro j e
      by_cases hji : j = i
      · exact hji ▸ hopen _
      · simpa only [Function.update_of_ne hji] using h j e
    · intro e
      simpa using h i e
  · rintro ⟨h, hp⟩ j e
    by_cases hji : j = i
    · subst hji
      simpa using hp e
    · simpa only [Function.update_of_ne hji] using h j e

/-- Where the transactions go through on any store, a caller is turned away just when another was
faster. -/
theorem served_step (hbody : ∀ i s, ∃ t, (tx i).body s = .ok t) (h : step tx S a = some T) :
    Served T ↔ Served S ∧ ¬ Overtaken tx ⟨S, a, T⟩ := by
  cases a with
  | begin i =>
    have hnot : ¬ Overtaken tx ⟨S, .begin i, T⟩ := by
      rintro ⟨j, e, seen, hact, -⟩
      cases hact
    simp only [step] at h
    split at h
    · next hat =>
      cases h
      rw [served_update (by simp [hat])]
      simp [hnot]
    · cases h
  | commit i e =>
    simp only [step] at h
    split at h
    · next seen hat =>
      have hover : Overtaken tx ⟨S, .commit i e, T⟩ ↔ (tx i).Clashes seen S.store := by
        constructor
        · rintro ⟨j, e', seen', hact, hat', hclash⟩
          cases hact
          rw [hat] at hat'
          cases hat'
          exact hclash
        · exact fun hclash => ⟨i, e, seen, rfl, hat, hclash⟩
      rw [hover]
      split at h
      · next hclash =>
        split_ifs at h with hlost
        cases h
        rw [served_update (by simp [hat])]
        simp [hclash]
      · next hclash =>
        obtain ⟨t, ht⟩ := hbody i S.store
        simp only [ht, Option.some.injEq] at h
        subst h
        rw [served_update (by simp [hat])]
        simp [hclash]
    · cases h

theorem served_iff (hbody : ∀ i s, ∃ t, (tx i).body s = .ok t)
    (h : Run (step tx) (initial s) steps S) : Served S ↔ ∀ e ∈ steps, ¬ Overtaken tx e := by
  rw [h.iff_forall (I := fun _ => True) (P := Served) (K := fun _ => True)
    (Q := fun e => ¬ Overtaken tx e) (fun _ _ _ _ _ _ => trivial)
    (fun S a T hs _ _ => served_step hbody hs) (fun _ _ => trivial) trivial]
  exact and_iff_right fun i e hat => by cases hat

/-- What a transaction leaves behind, and no other takes away, is there for every caller that was
let through. -/
theorem found {P : ι → σ → Prop}
    (hP : ∀ i s t, (tx i).body s = .ok t → P i t ∧ ∀ j, P j s → P j t)
    (h : Run (step tx) (initial s) steps S) : ∀ i, S.phase i = .done (.ok ()) → P i S.store := by
  refine (h.invariant (Q := fun _ => True)
    (I := fun S => ∀ i, S.phase i = .done (.ok ()) → P i S.store) (fun S a T hs _ hi => ?_)
    (fun _ _ => trivial) (fun i hat => by cases hat)).1
  have hupdate {i : ι} {p : Phase κ ε} {t : σ} (hp : p = .done (.ok ()) → P i t)
      (hkeep : ∀ j, P j S.store → P j t) :
      ∀ j, Function.update S.phase i p j = .done (.ok ()) → P j t := by
    intro j hj
    by_cases hji : j = i
    · subst hji
      exact hp (by simpa using hj)
    · exact hkeep j (hi j (by simpa [Function.update_of_ne hji] using hj))
  cases a with
  | begin i =>
    simp only [step] at hs
    split at hs
    · cases hs
      exact hupdate (fun h => by cases h) fun j hj => hj
    · cases hs
  | commit i e =>
    simp only [step] at hs
    split at hs
    · split at hs
      · split_ifs at hs
        cases hs
        exact hupdate (fun h => by cases h) fun j hj => hj
      · split at hs
        · next t ht =>
          cases hs
          obtain ⟨hnew, hkeep⟩ := hP i S.store t ht
          exact hupdate (fun _ => hnew) hkeep
        · cases hs
          exact hupdate (fun h => by cases h) fun j hj => hj
    · cases hs

end Agmem.Transition.Snapshot
