import Mathlib.Logic.Relation
import Mathlib.Tactic.Common

/-! Successor links: every node points to at most one other. A node is grounded when
following the links reaches a node that points nowhere, and a grounded node lies on no
cycle. Redirecting nodes that pointed nowhere keeps everything grounded unless the
new target ends at one of them. -/

namespace Agmem.Links

open Relation

variable {κ : Type*} {next : κ → Option κ}

/-- `b` is the successor of `a`. -/
def Link (next : κ → Option κ) (a b : κ) : Prop := next a = some b

/-- `e` is where the links from `a` stop. -/
def EndsAt (next : κ → Option κ) (a e : κ) : Prop :=
  ReflTransGen (Link next) a e ∧ next e = none

def Grounded (next : κ → Option κ) (a : κ) : Prop := ∃ e, EndsAt next a e

def Acyclic (next : κ → Option κ) : Prop := ∀ a, ¬ TransGen (Link next) a a

theorem Link.unique {a b c : κ} (hb : Link next a b) (hc : Link next a c) : b = c := by
  rw [Link, hc] at hb
  exact (Option.some.inj hb).symm

theorem EndsAt.stays {a e b : κ} (h : EndsAt next a e) (hb : ReflTransGen (Link next) e b) :
    b = e := by
  rcases hb.cases_head with rfl | ⟨c, hc, _⟩
  · rfl
  · rw [Link, h.2] at hc
    cases hc

/-- Two walks from one node run along each other. -/
theorem walks_total {a b c : κ} (hb : ReflTransGen (Link next) a b)
    (hc : ReflTransGen (Link next) a c) :
    ReflTransGen (Link next) b c ∨ ReflTransGen (Link next) c b :=
  hb.total_of_right_unique (fun _ _ _ h h' => h.unique h') hc

theorem EndsAt.unique {a e e' : κ} (h : EndsAt next a e) (h' : EndsAt next a e') : e = e' := by
  rcases walks_total h.1 h'.1 with hw | hw
  · exact (h.stays hw).symm
  · exact h'.stays hw

/-- A grounded node is on no cycle. -/
theorem Grounded.not_cycle {a : κ} (h : Grounded next a) : ¬ TransGen (Link next) a a := by
  obtain ⟨e, he⟩ := h
  intro hc
  -- the walk to the end cannot leave the cycle, and the end points nowhere
  have hcycle : ∀ b, ReflTransGen (Link next) a b → TransGen (Link next) b b := by
    intro b hb
    induction hb with
    | refl => exact hc
    | tail _ hbc ih =>
      obtain ⟨c', hc', hback⟩ := TransGen.head'_iff.mp ih
      rw [hc'.unique hbc] at hback
      exact TransGen.tail' hback hbc
  obtain ⟨c, hlink, _⟩ := TransGen.head'_iff.mp (hcycle e he.1)
  rw [Link, he.2] at hlink
  cases hlink

theorem acyclic_of_grounded (h : ∀ a, Grounded next a) : Acyclic next :=
  fun a => (h a).not_cycle

/-- Point every node of `T` at `y`. -/
def redirect (next : κ → Option κ) (T : κ → Prop) [DecidablePred T] (y : κ) : κ → Option κ :=
  fun x => if T x then some y else next x

section Redirect

variable {T : κ → Prop} [DecidablePred T] {y : κ}

theorem walk_redirect (hT : ∀ x, T x → next x = none) {a b : κ}
    (h : ReflTransGen (Link next) a b) : ReflTransGen (Link (redirect next T y)) a b := by
  induction h with
  | refl => exact .refl
  | @tail b c _ hbc ih =>
    refine ih.tail ?_
    have : ¬ T b := fun hb => by rw [Link, hT b hb] at hbc; cases hbc
    rw [Link, redirect, if_neg this]
    exact hbc

/-- Redirecting ends of walks towards a node that ends elsewhere keeps every node
grounded; towards a node that ends at one of them it closes a cycle. -/
theorem grounded_redirect_iff (hg : ∀ a, Grounded next a) (hT : ∀ x, T x → next x = none)
    {e : κ} (he : EndsAt next y e) : (∀ a, Grounded (redirect next T y) a) ↔ ¬ T e := by
  constructor
  · intro h hTe
    refine (h y).not_cycle (TransGen.tail' (walk_redirect hT he.1) ?_)
    rw [Link, redirect, if_pos hTe]
  · intro hTe a
    have hy : EndsAt (redirect next T y) y e :=
      ⟨walk_redirect hT he.1, by rw [redirect, if_neg hTe, he.2]⟩
    obtain ⟨b, hb⟩ := hg a
    by_cases hTb : T b
    · refine ⟨e, ReflTransGen.trans ((walk_redirect hT hb.1).tail ?_) hy.1, hy.2⟩
      rw [Link, redirect, if_pos hTb]
    · exact ⟨b, walk_redirect hT hb.1, by rw [redirect, if_neg hTb, hb.2]⟩

end Redirect

/-- Where some nodes lose their link, a walk stops at the first of them or where it did. -/
theorem Grounded.of_fewer {next' : κ → Option κ} (h : ∀ a, next' a = next a ∨ next' a = none)
    {a : κ} (hg : Grounded next a) : Grounded next' a := by
  obtain ⟨e, hw, he⟩ := hg
  induction hw using ReflTransGen.head_induction_on with
  | refl => exact ⟨e, .refl, (h e).elim (fun h => h.trans he) fun h => h⟩
  | @head a c hac _ ih =>
    rcases h a with hsame | hnone
    · obtain ⟨e', hw', he'⟩ := ih
      exact ⟨e', .head (hsame.trans hac) hw', he'⟩
    · exact ⟨a, .refl, hnone⟩

end Agmem.Links
