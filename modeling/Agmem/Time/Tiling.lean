import Mathlib.Order.MinMax
import Mathlib.Data.List.Basic
import Mathlib.Tactic.Common

/-! A list of starting points over a linear order cuts the line into intervals: each
one runs from its own start to the next one's, and the last never ends. The
intervals cover everything from the earliest start on. They cover it once exactly
when no start lies above both an earlier and a later one. -/

namespace Agmem.Time

variable {τ : Type*} [LinearOrder τ]

/-- The `i`-th interval contains `t`. -/
def Covers (starts : List τ) (i : ℕ) (t : τ) : Prop :=
  ∃ v, starts[i]? = some v ∧ v ≤ t ∧ ∀ w, starts[i + 1]? = some w → t < w

/-- From the earliest start on, exactly one interval contains each point. -/
def Tiles (starts : List τ) : Prop :=
  ∀ t, (∃ v ∈ starts, v ≤ t) → ∃! i, Covers starts i t

/-- No start lies above both an earlier and a later one. -/
def Valley (starts : List τ) : Prop :=
  ∀ (i j k : ℕ) (u v w : τ), i < j → j < k → starts[i]? = some u → starts[j]? = some v →
    starts[k]? = some w → v ≤ max u w

/-- From a start at or before `t` a covering interval lies at it or after it. -/
theorem exists_covers_from {starts : List τ} {t : τ} {i : ℕ} {v : τ} (hi : starts[i]? = some v)
    (hv : v ≤ t) : ∃ k, i ≤ k ∧ Covers starts k t := by
  -- induction on what is left of the list after `i`
  induction hn : starts.length - i generalizing i v with
  | zero =>
    obtain ⟨hlt, -⟩ := List.getElem?_eq_some_iff.mp hi
    omega
  | succ n ih =>
    by_cases hnext : ∃ w, starts[i + 1]? = some w ∧ w ≤ t
    · obtain ⟨w, hw, hwt⟩ := hnext
      obtain ⟨k, hk, hc⟩ := ih hw hwt (by omega)
      exact ⟨k, by omega, hc⟩
    · exact ⟨i, le_rfl, v, hi, hv, fun w hw => lt_of_not_ge fun hwt => hnext ⟨w, hw, hwt⟩⟩

/-- Between a start at or before `t` and a later one above it an interval covers `t`. -/
theorem exists_covers_between {starts : List τ} {t : τ} {i j : ℕ} {u v : τ} (hij : i < j)
    (hi : starts[i]? = some u) (hu : u ≤ t) (hj : starts[j]? = some v) (hv : t < v) :
    ∃ a, a < j ∧ Covers starts a t := by
  obtain ⟨hjl, -⟩ := List.getElem?_eq_some_iff.mp hj
  induction hn : j - i generalizing i u with
  | zero => omega
  | succ n ih =>
    have hw : starts[i + 1]? = some starts[i + 1] := List.getElem?_eq_getElem (by omega)
    by_cases hwt : starts[i + 1] ≤ t
    · have hne : i + 1 ≠ j := by
        rintro rfl
        rw [hj] at hw
        exact absurd hv (not_lt.mpr (Option.some.inj hw ▸ hwt))
      exact ih (by omega) hw hwt (by omega)
    · refine ⟨i, hij, u, hi, hu, fun w hw' => ?_⟩
      rw [hw] at hw'
      exact Option.some.inj hw' ▸ not_le.mp hwt

theorem exists_covers {starts : List τ} {t : τ} (h : ∃ v ∈ starts, v ≤ t) :
    ∃ i, Covers starts i t := by
  obtain ⟨v, hv, hvt⟩ := h
  obtain ⟨i, hi⟩ := List.mem_iff_getElem?.mp hv
  obtain ⟨k, -, hk⟩ := exists_covers_from hi hvt
  exact ⟨k, hk⟩

/-- A later start above `t` is met between two covering intervals. -/
theorem Covers.next_lt {starts : List τ} {t : τ} {i k : ℕ} (hi : Covers starts i t)
    (hk : Covers starts k t) (hik : i < k) : ∃ w, starts[i + 1]? = some w ∧ t < w ∧ i + 1 < k := by
  obtain ⟨u, hu, _, hlt⟩ := hi
  obtain ⟨v, hv, hvt, _⟩ := hk
  obtain ⟨hkl, -⟩ := List.getElem?_eq_some_iff.mp hv
  have hw : starts[i + 1]? = some starts[i + 1] := List.getElem?_eq_getElem (by omega)
  refine ⟨_, hw, hlt _ hw, ?_⟩
  rcases Nat.lt_or_eq_of_le (Nat.succ_le_of_lt hik) with h | h
  · exact h
  · rw [← h, Nat.succ_eq_add_one, hw] at hv
    have := hlt _ hw
    rw [Option.some.inj hv] at this
    exact absurd hvt (not_le.mpr this)

theorem tiles_iff_valley (starts : List τ) : Tiles starts ↔ Valley starts := by
  constructor
  · intro h i j k u v w hij hjk hu hv hw
    by_contra hlt
    obtain ⟨huv, hwv⟩ := max_lt_iff.mp (not_le.mp hlt)
    -- at the larger of the two outer starts both flanks of `j` are covered
    obtain ⟨a, haj, ha⟩ := exists_covers_between hij hu (le_max_left u w) hv (max_lt huv hwv)
    obtain ⟨b, hkb, hb⟩ := exists_covers_from hw (le_max_right u w)
    have := (h _ ⟨u, List.mem_of_getElem? hu, le_max_left u w⟩).unique ha hb
    omega
  · intro h t ht
    have hno : ∀ i k, Covers starts i t → Covers starts k t → ¬ i < k := by
      intro i k hi hk hik
      obtain ⟨v, hv, htv, hlt⟩ := hi.next_lt hk hik
      obtain ⟨u, hu, hut, -⟩ := hi
      obtain ⟨w, hw, hwt, -⟩ := hk
      exact absurd (h i (i + 1) k u v w (Nat.lt_succ_self i) hlt hu hv hw)
        (not_le.mpr ((max_le hut hwt).trans_lt htv))
    obtain ⟨i, hi⟩ := exists_covers ht
    refine ⟨i, hi, fun k hk => ?_⟩
    rcases Nat.lt_trichotomy k i with hlt | heq | hlt
    · exact absurd hlt (hno k i hk hi)
    · exact heq
    · exact absurd hlt (hno i k hi hk)

end Agmem.Time
