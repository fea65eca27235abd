import Mathlib.Data.List.Chain
import Mathlib.Order.WellFounded

/-! Loops that take an input each turn. A turn leaves a mark, and either goes on with a state or
ends with a result. Where every turn that goes on goes down in a well-founded order, the loop ends
whatever its inputs are. -/

namespace Agmem.Transition

variable {ι σ ω ρ : Type*}

/-- From the state the loop comes to the result, and its turns leave the marks. -/
inductive Loop (turn : ι → σ → ω × (σ ⊕ ρ)) : (ℕ → ι) → σ → List ω → ρ → Prop
  | last {inputs : ℕ → ι} {s : σ} {w : ω} {r : ρ} (h : turn (inputs 0) s = (w, .inr r)) :
      Loop turn inputs s [w] r
  | next {inputs : ℕ → ι} {s t : σ} {w : ω} {marks : List ω} {r : ρ}
      (h : turn (inputs 0) s = (w, .inl t))
      (rest : Loop turn (fun n => inputs (n + 1)) t marks r) : Loop turn inputs s (w :: marks) r

namespace Loop

variable {turn : ι → σ → ω × (σ ⊕ ρ)} {inputs : ℕ → ι} {s : σ} {marks : List ω} {r : ρ}

theorem ends {α : Type*} [Preorder α] [WellFoundedLT α] (measure : σ → α)
    (h : ∀ i s w t, turn i s = (w, .inl t) → measure t < measure s) (inputs : ℕ → ι) (s : σ) :
    ∃ marks r, Loop turn inputs s marks r := by
  induction hm : measure s using WellFoundedLT.induction generalizing inputs s with
  | _ m ih =>
    rcases hturn : turn (inputs 0) s with ⟨w, t | r⟩
    · obtain ⟨marks, r, hrest⟩ := ih _ (hm ▸ h _ _ _ _ hturn) (fun n => inputs (n + 1)) t rfl
      exact ⟨w :: marks, r, .next hturn hrest⟩
    · exact ⟨[w], r, .last hturn⟩

theorem unique (h : Loop turn inputs s marks r) {marks' : List ω} {r' : ρ}
    (h' : Loop turn inputs s marks' r') : marks = marks' ∧ r = r' := by
  induction h generalizing marks' with
  | last hturn =>
    cases h' with
    | last hturn' =>
      cases hturn.symm.trans hturn'
      exact ⟨rfl, rfl⟩
    | next hturn' => cases hturn.symm.trans hturn'
  | next hturn _ ih =>
    cases h' with
    | last hturn' => cases hturn.symm.trans hturn'
    | next hturn' hrest' =>
      cases hturn.symm.trans hturn'
      obtain ⟨rfl, rfl⟩ := ih hrest'
      exact ⟨rfl, rfl⟩

/-- What the turns keep holds where the loop ends. -/
theorem keeps {I : σ → Prop} {P : ρ → Prop}
    (hnext : ∀ i s w t, turn i s = (w, .inl t) → I s → I t)
    (hlast : ∀ i s w r, turn i s = (w, .inr r) → I s → P r)
    (h : Loop turn inputs s marks r) (h₀ : I s) : P r := by
  induction h with
  | last hturn => exact hlast _ _ _ _ hturn h₀
  | next hturn _ ih => exact ih (hnext _ _ _ _ hturn h₀)

/-- If each turn is marked with the measure of the state it finds, the marks go down as the measure
does. -/
theorem marks_chain {m : σ → ω} {R : ω → ω → Prop} (hmark : ∀ i s, (turn i s).1 = m s)
    (hdown : ∀ i s w t, turn i s = (w, .inl t) → R (m t) (m s)) (h : Loop turn inputs s marks r) :
    marks.head? = some (m s) ∧ marks.IsChain fun w w' => R w' w := by
  induction h with
  | @last inputs s w r hturn =>
    have hw : w = m s := by rw [← hmark (inputs 0) s, hturn]
    exact ⟨by rw [hw]; rfl, .singleton w⟩
  | @next inputs s t w marks r hturn hrest ih =>
    have hw : w = m s := by rw [← hmark (inputs 0) s, hturn]
    obtain ⟨hhead, hchain⟩ := ih
    refine ⟨by rw [hw]; rfl, ?_⟩
    cases marks with
    | nil => cases hhead
    | cons w' marks =>
      rw [List.isChain_cons_cons]
      refine ⟨?_, hchain⟩
      rw [Option.some.inj hhead, hw]
      exact hdown _ _ _ _ hturn

end Loop

end Agmem.Transition
