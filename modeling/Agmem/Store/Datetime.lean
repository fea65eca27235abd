import Agmem.Core.Model

/-! How an instant stands in a column. A datetime of the engine counts its second and a fraction
that is never below zero, while the second of a timestamp is taken towards zero. The fraction of an
instant before 1970 is therefore lost on the way in, and nothing else is. -/

namespace Agmem.Store.Columns

open Core

/-- A datetime of the engine, in nanoseconds. -/
abbrev Datetime := ℤ

def SECOND : ℤ := 10 ^ 9

/-- `Timestamp::MIN` -/
def MIN : Timestamp := -377705023201 * SECOND

/-- `Timestamp::MAX` -/
def MAX : Timestamp := 253402207200 * SECOND + 999999999

/-- The second of a timestamp is its second towards zero, and its fraction has its sign. -/
def toDatetime (stamp : Timestamp) : Datetime :=
  let nanos := if stamp.tmod SECOND < 0 then 0 else stamp.tmod SECOND
  stamp.tdiv SECOND * SECOND + nanos

def toTimestamp (value : Datetime) : Timestamp :=
  if MIN ≤ value ∧ value ≤ MAX then value else if value / SECOND < 0 then MIN else MAX

/-- An instant before 1970 loses its fraction. -/
def whole (stamp : ℤ) : ℤ :=
  if 0 ≤ stamp then stamp else stamp.tdiv SECOND * SECOND

def InRange (stamp : Timestamp) : Prop := MIN ≤ stamp ∧ stamp ≤ MAX

/-- The instants a column keeps. -/
def Exact (stamp : Timestamp) : Prop := 0 ≤ stamp ∨ SECOND ∣ stamp

variable {stamp : ℤ}

theorem tdiv_of_neg (h : stamp < 0) : stamp.tdiv SECOND = -(-stamp / SECOND) := by
  have hneg : 0 ≤ -stamp := by omega
  rw [← neg_neg stamp, Int.neg_tdiv, Int.tdiv_eq_ediv_of_nonneg hneg, neg_neg]

theorem tmod_of_neg (h : stamp < 0) : stamp.tmod SECOND = -(-stamp % SECOND) := by
  have hneg : 0 ≤ -stamp := by omega
  rw [← neg_neg stamp, Int.neg_tmod, Int.tmod_eq_emod_of_nonneg hneg, neg_neg]

theorem toDatetime_eq (stamp : ℤ) : toDatetime stamp = whole stamp := by
  have hpos : (0 : ℤ) < SECOND := by decide
  unfold toDatetime whole
  dsimp only
  rcases lt_or_ge stamp 0 with h | h
  · have hnonneg := Int.emod_nonneg (-stamp) hpos.ne'
    have hnanos : (if -(-stamp % SECOND) < 0 then 0 else -(-stamp % SECOND)) = 0 := by
      split_ifs <;> omega
    rw [if_neg (not_le.mpr h), tmod_of_neg h, hnanos, add_zero]
  · rw [if_pos h, Int.tdiv_eq_ediv_of_nonneg h, Int.tmod_eq_emod_of_nonneg h,
      if_neg (not_lt.mpr (Int.emod_nonneg _ hpos.ne')), Int.ediv_mul_add_emod]

/-- Before 1970 an instant moves on to the next second, if it is not one. -/
theorem whole_of_neg (h : stamp < 0) :
    stamp ≤ whole stamp ∧ whole stamp ≤ 0 ∧ whole stamp < stamp + SECOND := by
  have hpos : (0 : ℤ) < SECOND := by decide
  have hwhole : whole stamp = -(-stamp / SECOND * SECOND) := by
    rw [whole, if_neg (not_le.mpr h), tdiv_of_neg h, neg_mul]
  have hsplit := Int.ediv_mul_add_emod (-stamp) SECOND
  have hlow := Int.emod_nonneg (-stamp) hpos.ne'
  have hhigh := Int.emod_lt_of_pos (-stamp) hpos
  have hdiv : 0 ≤ -stamp / SECOND * SECOND :=
    Int.mul_nonneg (Int.ediv_nonneg (by omega) hpos.le) hpos.le
  rw [hwhole]
  omega

theorem inRange_whole (h : InRange stamp) : InRange (whole stamp) := by
  rcases lt_or_ge stamp 0 with hneg | hpos
  · obtain ⟨hle, hzero, -⟩ := whole_of_neg hneg
    exact ⟨h.1.trans hle, hzero.trans (by decide)⟩
  · rwa [whole, if_pos hpos]

theorem toTimestamp_toDatetime (h : InRange stamp) :
    toTimestamp (toDatetime stamp) = whole stamp := by
  rw [toDatetime_eq]
  exact if_pos (inRange_whole h)

theorem inRange_toTimestamp (value : Datetime) : InRange (toTimestamp value) := by
  unfold toTimestamp
  split_ifs with hin
  · exact hin
  · exact ⟨le_refl MIN, by decide⟩
  · exact ⟨by decide, le_refl MAX⟩

/-- Exactly the instants from 1970 on and the whole seconds are kept. -/
theorem whole_eq_self : whole stamp = stamp ↔ Exact stamp := by
  unfold whole Exact
  split_ifs with h
  · simp [h]
  · rw [or_iff_right h]
    constructor
    · intro heq
      exact ⟨stamp.tdiv SECOND, by rw [mul_comm, heq]⟩
    · exact Int.tdiv_mul_cancel

theorem whole_whole : whole (whole stamp) = whole stamp := by
  rw [whole_eq_self]
  rcases lt_or_ge stamp 0 with h | h
  · rw [whole, if_neg (not_le.mpr h)]
    exact .inr (Int.dvd_mul_left _ SECOND)
  · exact .inl (by rwa [whole, if_pos h])

end Agmem.Store.Columns
