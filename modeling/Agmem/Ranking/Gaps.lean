import Mathlib.Algebra.Order.Ring.Defs
import Mathlib.Data.List.Basic
import Mathlib.Order.Monotone.Basic
import Mathlib.Tactic.Linarith
import Mathlib.Tactic.Ring

/-! The least entry of a list so far. It falls in drops that make up the whole spread, so a drop of
over half of the spread is the only one of its size. -/

namespace Agmem.Ranking.Gaps

variable {K : Type*} [CommRing K] [LinearOrder K]

/-- The least of the entries down to place `i`. -/
def low (q : List K) (i : ℕ) : K := ((q.take (i + 1)).min?).getD 0

/-- The drop under place `i`. -/
def gap (q : List K) (i : ℕ) : K := low q i - low q (i + 1)

/-- The drop from the first place to the last one. -/
def spread (q : List K) : K := low q 0 - low q (q.length - 1)

theorem low_cons (x : K) (xs : List K) (i : ℕ) : low (x :: xs) i = (xs.take i).foldl min x := rfl

theorem low_antitone (q : List K) : Antitone (low q) := by
  refine antitone_nat_of_succ_le fun i => ?_
  cases q with
  | nil => exact le_refl _
  | cons x xs =>
    rw [low_cons, low_cons]
    by_cases hi : i < xs.length
    · rw [List.take_succ_eq_append_getElem hi, List.foldl_append]
      exact min_le_left _ _
    · rw [List.take_of_length_le (by omega), List.take_of_length_le (by omega)]

variable [IsStrictOrderedRing K]

/-- Two drops fit into the spread. -/
theorem gap_add_gap_le {q : List K} {i j : ℕ} (hij : i < j) (hj : j + 1 < q.length) :
    gap q i + gap q j ≤ spread q := by
  have hfirst := low_antitone q (Nat.zero_le i)
  have hbetween := low_antitone q (Nat.succ_le_of_lt hij)
  have hlast := low_antitone q (show j + 1 ≤ q.length - 1 by omega)
  unfold gap spread
  linarith

/-- A drop of over half of the spread is larger than every other one. -/
theorem gap_lt_of_dominant {q : List K} {i j : ℕ} (hi : i + 1 < q.length) (hj : j + 1 < q.length)
    (hne : j ≠ i) (h : spread q < gap q i * 2) : gap q j < gap q i := by
  rcases Nat.lt_or_gt_of_ne hne with hlt | hlt
  · have := gap_add_gap_le hlt hi
    linarith
  · have := gap_add_gap_le hlt hj
    linarith

theorem eq_of_dominant {q : List K} {i j : ℕ} (hi : i + 1 < q.length) (hj : j + 1 < q.length)
    (h : spread q < gap q i * 2) (hle : gap q i ≤ gap q j) : j = i := by
  by_contra hne
  exact absurd (gap_lt_of_dominant hi hj hne h) (not_lt.mpr hle)

/-! ### Even steps -/

/-- Every entry lies the same step under the one before it. -/
def Evenly (d : K) (q : List K) : Prop := q.IsChain fun above below => above - below = d

theorem low_even {d : K} (hd : 0 ≤ d) {x : K} {xs : List K} (h : Evenly d (x :: xs)) {i : ℕ}
    (hi : i ≤ xs.length) : low (x :: xs) i = x - i * d := by
  induction xs generalizing x i with
  | nil =>
    obtain rfl : i = 0 := Nat.le_zero.mp hi
    simp [low_cons]
  | cons y ys ih =>
    obtain ⟨hstep, hrest⟩ := List.isChain_cons_cons.mp h
    cases i with
    | zero => simp [low_cons]
    | succ i =>
      have hmin : min x y = y := min_eq_right (by linarith)
      rw [low_cons, List.take_succ_cons, List.foldl_cons, hmin, ← low_cons,
        ih hrest (Nat.le_of_succ_le_succ hi)]
      push_cast
      linarith

/-- With three entries or more no even step is over half of the spread. -/
theorem not_dominant_of_even {d : K} (hd : 0 ≤ d) {q : List K} (h : Evenly d q) {i : ℕ}
    (hlen : 3 ≤ q.length) (hi : i + 1 < q.length) : gap q i * 2 ≤ spread q := by
  cases q with
  | nil => cases hi
  | cons x xs =>
    rw [List.length_cons] at hlen hi
    have hstep : gap (x :: xs) i = d := by
      rw [gap, low_even hd h (by omega), low_even hd h (by omega)]
      push_cast
      ring
    have hspread : spread (x :: xs) = xs.length * d := by
      rw [spread, low_even hd h (Nat.zero_le _), low_even hd h (by simp), List.length_cons]
      simp
    have htwo : (2 : K) ≤ xs.length := by exact_mod_cast (by omega : 2 ≤ xs.length)
    rw [hstep, hspread, mul_comm]
    exact mul_le_mul_of_nonneg_right htwo hd

end Agmem.Ranking.Gaps
