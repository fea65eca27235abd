import Mathlib.Analysis.SpecialFunctions.Log.Basic
import Agmem.Core.Scoring

/-! The curve of decay and its inverse, over any ordered field with an exponential and a logarithm:
over the rationals it is the one that pages are scored by, over the reals the two are inverse to
each other. A row falls below a threshold when it has been idle for longer than the horizon of unit
strength, times its own stability. -/

namespace Agmem.Core.Scoring

/-- Retention below which a memory of the class with a TTL is closed. -/
def PRUNE_RETENTION : ℚ := 5 / 100

section Field

variable {K : Type*} [Field K] [LinearOrder K]

/-- `strength.clamp(MIN_STABILITY, MAX_STABILITY)` -/
def stability (strength : ℚ) : K :=
  max (MIN_STABILITY : K) (min (strength : K) (MAX_STABILITY : K))

/-- `later.duration_since(earlier).as_secs_f64()` -/
def idleSecs (earlier later : Timestamp) : K := (later - earlier : ℤ) / 10 ^ 9

/-- `days_between` -/
def idleDays (earlier later : Timestamp) : K :=
  max (idleSecs earlier later / (SECONDS_PER_DAY : K)) 0

/-- `retention` -/
def remaining (exp : K → K) (decayClass : DecayClass) (strength : ℚ)
    (lastAccessed now : Timestamp) : K :=
  if rate decayClass = 0 then 1
  else exp (-(idleDays lastAccessed now * (rate decayClass : K) / stability strength))

/-- `decay_horizon_secs`: how long a memory of unit strength may sit untouched before it falls to
the threshold. -/
def decayHorizonSecs (log : K → K) (decayClass : DecayClass) (threshold : K) : Option K :=
  if rate decayClass = 0 ∨ threshold ≤ 0 ∨ 1 ≤ threshold then none
  else some (-(log threshold) / (rate decayClass : K) * (SECONDS_PER_DAY : K))

end Field

variable {decayClass : DecayClass} {strength : ℚ} {lastAccessed now : Timestamp}

theorem idleDays_rat (earlier later : Timestamp) :
    (idleDays earlier later : ℚ) = daysBetween earlier later := by
  rw [idleDays, idleSecs, daysBetween, Rat.cast_id, div_div, mul_comm (10 ^ 9) SECONDS_PER_DAY]

/-- Over the rationals it is the retention of a page's signals. -/
theorem remaining_rat (exp : ℚ → ℚ) : remaining exp decayClass strength lastAccessed now =
    retention exp decayClass strength lastAccessed now := by
  simp only [remaining, retention, idleDays_rat, stability, Rat.cast_id]

theorem stability_pos (strength : ℚ) : 0 < (stability strength : ℝ) := by
  refine lt_max_of_lt_left ?_
  rw [Rat.cast_pos]
  norm_num [MIN_STABILITY]

theorem stability_eq (hlow : MIN_STABILITY ≤ strength) (hhigh : strength ≤ MAX_STABILITY) :
    (stability strength : ℝ) = strength := by
  unfold stability
  rw [min_eq_left (Rat.cast_le.mpr hhigh), max_eq_right (Rat.cast_le.mpr hlow)]

/-- Only the strength up to its ceiling counts. -/
theorem stability_mono {weak strong : ℚ}
    (h : min weak MAX_STABILITY ≤ min strong MAX_STABILITY) :
    (stability weak : ℝ) ≤ stability strong := by
  unfold stability
  refine max_le_max_left _ ?_
  exact_mod_cast h

theorem rate_nonneg (decayClass : DecayClass) : 0 ≤ rate decayClass := by
  cases decayClass <;> norm_num [rate]

theorem idleDays_anti {early late : Timestamp} (h : early ≤ late) (now : Timestamp) :
    (idleDays late now : ℝ) ≤ idleDays early now := by
  have hday : (0 : ℝ) < (SECONDS_PER_DAY : ℝ) := by norm_num [SECONDS_PER_DAY]
  have hsecs : (idleSecs late now : ℝ) ≤ idleSecs early now := by
    refine div_le_div_of_nonneg_right ?_ (by norm_num)
    exact_mod_cast sub_le_sub_left h now
  exact max_le_max_right _ (div_le_div_of_nonneg_right hsecs hday.le)

/-- A memory that was accessed later, or is stronger, survives better. -/
theorem remaining_mono {weak strong : ℚ} {early late : Timestamp}
    (hstrength : min weak MAX_STABILITY ≤ min strong MAX_STABILITY) (haccess : early ≤ late)
    (now : Timestamp) : remaining Real.exp decayClass weak early now ≤
      remaining Real.exp decayClass strong late now := by
  unfold remaining
  split_ifs
  · exact le_refl _
  · have hrate : (0 : ℝ) ≤ (rate decayClass : ℝ) := Rat.cast_nonneg.mpr (rate_nonneg decayClass)
    have hidle : (0 : ℝ) ≤ idleDays early now := le_max_right _ _
    refine Real.exp_le_exp.mpr (neg_le_neg ?_)
    calc idleDays late now * (rate decayClass : ℝ) / stability strong
        ≤ idleDays early now * rate decayClass / stability strong :=
          div_le_div_of_nonneg_right (mul_le_mul_of_nonneg_right (idleDays_anti haccess now) hrate)
            (stability_pos strong).le
      _ ≤ idleDays early now * rate decayClass / stability weak :=
          div_le_div_of_nonneg_left (mul_nonneg hidle hrate) (stability_pos weak)
            (stability_mono hstrength)

/-- A memory is below the threshold exactly if it has been idle for longer than its horizon. -/
theorem remaining_lt_iff {threshold horizon : ℝ}
    (h : decayHorizonSecs Real.log decayClass threshold = some horizon) :
    remaining Real.exp decayClass strength lastAccessed now < threshold ↔
      horizon * stability strength < idleSecs lastAccessed now := by
  unfold decayHorizonSecs at h
  split_ifs at h with hnone
  push Not at hnone
  obtain ⟨hdecays, hpos, hlt⟩ := hnone
  cases h
  have hrate : 0 < (rate decayClass : ℝ) :=
    Rat.cast_pos.mpr (lt_of_le_of_ne (rate_nonneg decayClass) (Ne.symm hdecays))
  have hstable : 0 < (stability strength : ℝ) := stability_pos strength
  have hday : 0 < (SECONDS_PER_DAY : ℝ) := by norm_num [SECONDS_PER_DAY]
  have hneeds : 0 < -Real.log threshold * stability strength / (rate decayClass : ℝ) :=
    div_pos (mul_pos (neg_pos.mpr (Real.log_neg hpos hlt)) hstable) hrate
  rw [remaining, if_neg hdecays]
  calc Real.exp (-(idleDays lastAccessed now * rate decayClass / stability strength)) < threshold
      ↔ -Real.log threshold < idleDays lastAccessed now * rate decayClass / stability strength := by
        rw [← Real.lt_log_iff_exp_lt hpos, neg_lt]
    _ ↔ -Real.log threshold * stability strength / (rate decayClass : ℝ) <
          idleDays lastAccessed now := by
        rw [lt_div_iff₀ hstable, div_lt_iff₀ hrate]
    _ ↔ -Real.log threshold * stability strength / (rate decayClass : ℝ) <
          idleSecs lastAccessed now / SECONDS_PER_DAY :=
        lt_max_iff.trans (or_iff_left hneeds.not_gt)
    _ ↔ -Real.log threshold / (rate decayClass : ℝ) * SECONDS_PER_DAY * stability strength <
          idleSecs lastAccessed now := by
        rw [lt_div_iff₀ hday]
        ring_nf

end Agmem.Core.Scoring
