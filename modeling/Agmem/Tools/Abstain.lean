import Mathlib.Algebra.Order.Ring.Rat
import Mathlib.Data.List.Infix

/-! The cut of a page that did not match well. The floor empties a page whose best measured hit is
no answer; the knee trims the tail below the largest drop in quality, of which only rows under the
floor fall. -/

namespace Agmem.Tools.Abstain

/-- The smallest drop the knee cuts at. -/
def MIN_GAP : ℚ := 10 / 100

/-- How many times the largest drop has to go into the whole spread at most. -/
def DOMINANCE : ℚ := 2

/-- What the cut did to the page. -/
structure Verdict where
  kept : ℕ
  considered : ℕ
  bestSimilarity : Option ℚ

/-- The least quality down to each row. -/
def envelopeFrom (running : ℚ) : List ℚ → List ℚ
  | [] => []
  | x :: xs => min running x :: envelopeFrom (min running x) xs

def envelope : List ℚ → List ℚ
  | [] => []
  | x :: xs => x :: envelopeFrom x xs

/-- `max_by`: of several largest entries the last. -/
def lastMax : List (ℚ × ℕ) → Option (ℚ × ℕ)
  | [] => none
  | x :: xs =>
    match lastMax xs with
    | none => some x
    | some y => some (if x.1 ≤ y.1 then y else x)

/-- The largest drop and the row above it, if it is a knee. -/
def knee (quality : List ℚ) : Option ℕ :=
  let envelope := envelope quality
  match lastMax (List.zipWith (fun above below => above - below) envelope envelope.tail).zipIdx with
  | none => none
  | some (widest, knee) =>
    let spread := envelope.head?.getD 0 - envelope.getLast?.getD 0
    if widest < MIN_GAP ∨ widest * DOMINANCE ≤ spread then none else some knee

variable {α : Type*}

/-- Whether a row stays: above the knee, protected, or not measured under the floor. -/
def stays (floor : ℚ) (signals : α → Option ℚ × ℚ) (isProtected : α → Bool) (knee : ℕ)
    (row : α × ℕ) : Bool :=
  decide (row.2 ≤ knee) || isProtected row.1 || !(signals row.1).1.any fun s => decide (s < floor)

/-- Cut `page` at the knee, or clear it under the floor. -/
def apply (page : List α) (floor : ℚ) (signals : α → Option ℚ × ℚ) (isProtected : α → Bool) :
    List α × Option Verdict :=
  match page with
  | [] => (page, none)
  | top :: _ =>
    let best := (page.filterMap fun row => (signals row).1).max?
    if ((signals top).1.isSome && best.any fun b => decide (b < floor)) = true then
      ([], some ⟨0, page.length, best⟩)
    else if page.length < 3 then (page, none)
    else
      match knee (page.map fun row => (signals row).2) with
      | none => (page, none)
      | some knee =>
        let kept := (page.zipIdx.filter (stays floor signals isProtected knee)).map Prod.fst
        if kept.length < page.length then (kept, some ⟨kept.length, page.length, best⟩)
        else (page, none)

/-- A cut takes rows off the page and leaves the others in their order. -/
theorem apply_sublist (page : List α) (floor : ℚ) (signals : α → Option ℚ × ℚ)
    (isProtected : α → Bool) : (apply page floor signals isProtected).1.Sublist page := by
  cases page with
  | nil => exact .slnil
  | cons top rest =>
    simp only [apply]
    split_ifs
    · exact List.nil_sublist _
    · exact List.Sublist.refl _
    · split
      · exact List.Sublist.refl _
      · rename_i knee _
        have h := (List.filter_sublist (p := stays floor signals isProtected knee)
          (l := (top :: rest).zipIdx)).map Prod.fst
        rw [List.zipIdx_map_fst] at h
        split_ifs
        · exact h
        · exact List.Sublist.refl _

theorem apply_none {page : List α} {floor : ℚ} {signals : α → Option ℚ × ℚ}
    {isProtected : α → Bool} (h : (apply page floor signals isProtected).2 = none) :
    (apply page floor signals isProtected).1 = page := by
  cases page with
  | nil => rfl
  | cons top rest =>
    simp only [apply] at h ⊢
    split_ifs at h ⊢
    · rfl
    · split at h
      · rfl
      · split_ifs at h ⊢
        rfl

end Agmem.Tools.Abstain
