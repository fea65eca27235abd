import Mathlib.Data.Set.Insert
import Mathlib.Tactic.Common

/-! What stands after a sequence of assertions. The state is the set of claims that
stand; an assertion withdraws the claims it replaces and then makes its own stand,
also when it was among them. A claim made somewhere in a sequence stands at the end
unless something withdrew it later than it was last made. -/

namespace Agmem.Claims

variable {γ : Type*}

structure Assertion (γ : Type*) where
  claim : γ
  closes : Set γ

namespace Assertion

/-- The claims an assertion withdraws for good. -/
def Withdraws (a : Assertion γ) (c : γ) : Prop := c ∈ a.closes ∧ a.claim ≠ c

def apply (a : Assertion γ) (L : Set γ) : Set γ := (L \ a.closes) ∪ {a.claim}

theorem mem_apply {a : Assertion γ} {L : Set γ} {c : γ} :
    c ∈ a.apply L ↔ c = a.claim ∨ c ∈ L ∧ ¬ a.Withdraws c := by
  simp only [apply, Set.mem_union, Set.mem_sdiff, Set.mem_singleton_iff, Withdraws, not_and,
    not_not]
  constructor
  · rintro (⟨hL, hc⟩ | rfl)
    · exact .inr ⟨hL, fun h => absurd h hc⟩
    · exact .inl rfl
  · rintro (rfl | ⟨hL, hc⟩)
    · exact .inr rfl
    · by_cases h : c ∈ a.closes
      · exact .inr (hc h).symm
      · exact .inl ⟨hL, h⟩

end Assertion

open Assertion

/-- The claims that stand after the assertions, in order. -/
def standing (L : Set γ) : List (Assertion γ) → Set γ
  | [] => L
  | a :: as => standing (a.apply L) as

@[simp] theorem standing_nil (L : Set γ) : standing L [] = L := rfl

@[simp] theorem standing_cons (L : Set γ) (a : Assertion γ) (as : List (Assertion γ)) :
    standing L (a :: as) = standing (a.apply L) as := rfl

theorem standing_append (L : Set γ) (as bs : List (Assertion γ)) :
    standing L (as ++ bs) = standing (standing L as) bs := by
  induction as generalizing L with
  | nil => rfl
  | cons a as ih => exact ih _

/-- A claim that stands and is never withdrawn again stands at the end. -/
theorem mem_standing_of_mem {L : Set γ} {as : List (Assertion γ)} {c : γ} (h : c ∈ L)
    (hw : ∀ a ∈ as, ¬ a.Withdraws c) : c ∈ standing L as := by
  induction as generalizing L with
  | nil => exact h
  | cons a as ih =>
    refine ih (mem_apply.mpr (.inr ⟨h, hw a List.mem_cons_self⟩)) fun b hb => ?_
    exact hw b (List.mem_cons_of_mem _ hb)

/-- A claim that does not stand and is never made does not stand at the end. -/
theorem notMem_standing {L : Set γ} {as : List (Assertion γ)} {c : γ} (h : c ∉ L)
    (ha : ∀ a ∈ as, a.claim ≠ c) : c ∉ standing L as := by
  induction as generalizing L with
  | nil => exact h
  | cons a as ih =>
    refine ih (fun hc => ?_) fun b hb => ha b (List.mem_cons_of_mem _ hb)
    rcases mem_apply.mp hc with rfl | ⟨hL, -⟩
    · exact ha a List.mem_cons_self rfl
    · exact h hL

/-- Every claim made before it is withdrawn is made again afterwards. -/
def Reasserts (as : List (Assertion γ)) : Prop :=
  ∀ pre a post, as = pre ++ a :: post → ∀ c, a.Withdraws c →
    (∃ b ∈ pre, b.claim = c) → ∃ b ∈ post, b.claim = c

/-- A claim that is made has a last time it is made. -/
theorem exists_last {as : List (Assertion γ)} {c : γ} (h : ∃ a ∈ as, a.claim = c) :
    ∃ pre a post, as = pre ++ a :: post ∧ a.claim = c ∧ ∀ b ∈ post, b.claim ≠ c := by
  induction as with
  | nil => obtain ⟨a, ha, -⟩ := h; cases ha
  | cons a as ih =>
    by_cases hlater : ∃ b ∈ as, b.claim = c
    · obtain ⟨pre, b, post, rfl, hrest⟩ := ih hlater
      exact ⟨a :: pre, b, post, rfl, hrest⟩
    · obtain ⟨b, hb, hc⟩ := h
      rcases List.mem_cons.mp hb with rfl | hb
      · exact ⟨[], b, as, rfl, hc, fun b' hb' he => hlater ⟨b', hb', he⟩⟩
      · exact absurd ⟨b, hb, hc⟩ hlater

/-- All the claims made stand at the end exactly when each of them is made again after it was
withdrawn. -/
theorem forall_mem_standing_iff (L : Set γ) (as : List (Assertion γ)) :
    (∀ a ∈ as, a.claim ∈ standing L as) ↔ Reasserts as := by
  constructor
  · rintro h pre a post rfl c hw ⟨b, hb, rfl⟩
    by_contra hno
    have hgone : b.claim ∉ a.apply (standing L pre) := by
      intro hm
      rcases mem_apply.mp hm with he | ⟨-, hn⟩
      · exact hw.2 he.symm
      · exact hn hw
    have hend := h b (List.mem_append_left _ hb)
    rw [standing_append, standing_cons] at hend
    exact notMem_standing hgone (fun b' hb' he => hno ⟨b', hb', he⟩) hend
  · intro h a ha
    obtain ⟨pre, last, post, rfl, hc, hpost⟩ := exists_last ⟨a, ha, rfl⟩
    rw [standing_append, standing_cons, ← hc]
    refine mem_standing_of_mem (mem_apply.mpr (.inl rfl)) fun b hb hw => ?_
    obtain ⟨pre', post', rfl⟩ := List.append_of_mem hb
    obtain ⟨b', hb', he⟩ := h (pre ++ last :: pre') b post' (by simp) last.claim hw
      ⟨last, by simp, rfl⟩
    exact hpost b' (by simp [hb']) (he.trans hc)

/-! ### Turn by turn -/

section EachTurn

variable {α β : Type*}

/-- `P` holds of every item together with the claims that stand when its turn comes. -/
def EachTurn (f : α → Assertion γ) (P : Set γ → α → Prop) : Set γ → List α → Prop
  | _, [] => True
  | L, a :: as => P L a ∧ EachTurn f P ((f a).apply L) as

theorem eachTurn_cons {f : α → Assertion γ} {P : Set γ → α → Prop} {L : Set γ} {a : α}
    {as : List α} : EachTurn f P L (a :: as) ↔ P L a ∧ EachTurn f P ((f a).apply L) as := Iff.rfl

/-- Items that assert the same and agree on `P` may stand in for each other. -/
theorem eachTurn_congr {f : α → Assertion γ} {g : β → Assertion γ} {P : Set γ → α → Prop}
    {Q : Set γ → β → Prop} {as : List α} {bs : List β}
    (h : List.Forall₂ (fun a b => f a = g b ∧ ∀ L, P L a ↔ Q L b) as bs) (L : Set γ) :
    EachTurn f P L as ↔ EachTurn g Q L bs := by
  induction h generalizing L with
  | nil => exact Iff.rfl
  | cons h _ ih =>
    rw [eachTurn_cons, eachTurn_cons, h.1, h.2 L]
    exact and_congr_right fun _ => ih _

theorem eachTurn_append {f : α → Assertion γ} {P : Set γ → α → Prop} {L : Set γ} {as bs : List α} :
    EachTurn f P L (as ++ bs) ↔ EachTurn f P L as ∧ EachTurn f P (standing L (as.map f)) bs := by
  induction as generalizing L with
  | nil => simp [EachTurn]
  | cons a as ih =>
    rw [List.cons_append, eachTurn_cons, eachTurn_cons, ih, List.map_cons, standing_cons, and_assoc]

/-- The same, read off the places of the list. -/
theorem eachTurn_iff {f : α → Assertion γ} {P : Set γ → α → Prop} {L : Set γ} {as : List α} :
    EachTurn f P L as ↔
      ∀ pre a post, as = pre ++ a :: post → P (standing L (pre.map f)) a := by
  induction as generalizing L with
  | nil => simp [EachTurn]
  | cons a as ih =>
    rw [eachTurn_cons, ih]
    constructor
    · rintro ⟨h, hrest⟩ pre b post he
      cases pre with
      | nil =>
        obtain ⟨rfl, -⟩ := List.cons.inj he
        exact h
      | cons p pre =>
        obtain ⟨rfl, rfl⟩ := List.cons.inj he
        exact hrest pre b post rfl
    · intro h
      refine ⟨h [] a as rfl, fun pre b post he => ?_⟩
      subst he
      exact h (a :: pre) b post rfl

end EachTurn

end Agmem.Claims
