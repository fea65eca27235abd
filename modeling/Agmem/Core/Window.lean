import Agmem.Core.Decay

/-! The fit of a window, over any ordered field with an exponential. It is the distance between two
closed intervals that is scored, so a memory fits in full if the window meets its validity, the
instant it was closed at included. -/

namespace Agmem.Core.Scoring

section Field

variable {K : Type*} [Field K] [LinearOrder K]

/-- How many days lie between the validity and the window. -/
def windowGap (query : TemporalQuery) (valid : Interval) : K :=
  max
    (match query.until_ with
      | none => 0
      | some until_ => idleDays until_ valid.start)
    (match query.since, valid.stop with
      | some since, some stop => idleDays stop since
      | _, _ => 0)

/-- The window part of `temporal_fit`. -/
def windowFit (exp : K → K) (query : TemporalQuery) (valid : Interval) : K :=
  if query.since.isSome || query.until_.isSome then
    min 1 (exp (-(windowGap query valid / (TEMPORAL_TAU_DAYS : K)))) else 1

/-- `temporal_fit` -/
def fit (exp : K → K) (query : TemporalQuery) (valid : Interval) (changed : Timestamp) : K :=
  match query.changedSince with
  | none => windowFit exp query valid
  | some cutoff =>
    min (windowFit exp query valid) (exp (-(idleDays changed cutoff / (TEMPORAL_TAU_DAYS : K))))

end Field

/-- Over the rationals it is the fit of a page's signals. -/
theorem fit_rat (exp : ℚ → ℚ) (query : TemporalQuery) (valid : Interval) (changed : Timestamp) :
    fit exp query valid changed = temporalFit exp query valid changed := by
  obtain ⟨since, until_, changedSince⟩ := query
  obtain ⟨start, stop⟩ := valid
  cases since <;> cases until_ <;> cases stop <;> cases changedSince <;>
    simp only [fit, windowFit, windowGap, idleDays_rat, temporalFit, Rat.cast_id]

/-! ### The gap -/

/-- An instant within the window. -/
def InWindow (query : TemporalQuery) (instant : Timestamp) : Prop :=
  (∀ since ∈ query.since, since ≤ instant) ∧ ∀ until_ ∈ query.until_, instant ≤ until_

/-- The window meets the closed interval from the start of the validity to its end. -/
def Meets (query : TemporalQuery) (valid : Interval) : Prop :=
  (∀ until_ ∈ query.until_, valid.start ≤ until_) ∧
    ∀ since ∈ query.since, ∀ stop ∈ valid.stop, since ≤ stop

/-- The validity is empty, or it ends at the very instant the window starts. -/
def Edge (query : TemporalQuery) (valid : Interval) : Prop :=
  ∃ stop ∈ valid.stop, stop ≤ valid.start ∨ query.since = some stop

theorem idleDays_nonpos_iff {earlier later : Timestamp} :
    (idleDays earlier later : ℝ) ≤ 0 ↔ later ≤ earlier := by
  have hday : (0 : ℝ) < (SECONDS_PER_DAY : ℝ) := by norm_num [SECONDS_PER_DAY]
  have hsecs : (idleSecs earlier later : ℝ) ≤ 0 ↔ later ≤ earlier := by
    rw [idleSecs, div_le_iff₀ (by norm_num), zero_mul]
    norm_cast
    exact sub_nonpos
  rw [idleDays, max_le_iff, and_iff_left (le_refl _), div_le_iff₀ hday, zero_mul, hsecs]

theorem windowGap_nonpos_iff {query : TemporalQuery} {valid : Interval} :
    (windowGap query valid : ℝ) ≤ 0 ↔ Meets query valid := by
  unfold windowGap Meets
  rw [max_le_iff]
  refine and_congr ?_ ?_
  · cases query.until_ with
    | none => simp
    | some until_ => simp [idleDays_nonpos_iff]
  · cases query.since with
    | none => simp
    | some since =>
      cases valid.stop with
      | none => simp
      | some stop => simp [idleDays_nonpos_iff]

theorem min_one_exp_eq_one_iff {x : ℝ} : min 1 (Real.exp x) = 1 ↔ 0 ≤ x := by
  rw [min_eq_left_iff, Real.one_le_exp_iff]

theorem windowFit_eq_one_iff {query : TemporalQuery} {valid : Interval} :
    windowFit Real.exp query valid = 1 ↔ Meets query valid := by
  have htau : (0 : ℝ) < (TEMPORAL_TAU_DAYS : ℝ) := by norm_num [TEMPORAL_TAU_DAYS]
  unfold windowFit
  split_ifs with hbounded
  · rw [min_one_exp_eq_one_iff, ← windowGap_nonpos_iff, neg_nonneg, div_le_iff₀ htau, zero_mul]
  · refine iff_of_true rfl ?_
    cases hsince : query.since with
    | some since => simp [hsince] at hbounded
    | none =>
      cases huntil : query.until_ with
      | some until_ => simp [huntil] at hbounded
      | none => simp [Meets, hsince, huntil]

/-! ### Validity within the window -/

theorem isValidAt_iff {memory : MemoryRecord} {instant : Timestamp} :
    isValidAt memory instant = true ↔
      memory.validFrom ≤ instant ∧ ∀ closed ∈ memory.invalidAt, instant < closed := by
  rw [isValidAt, Bool.and_eq_true, decide_eq_true_eq, Option.all_eq_true]
  simp only [decide_eq_true_eq]
  rfl

/-- The first instant from the start of a validity on that is not before the window. -/
def entry (query : TemporalQuery) (start : Timestamp) : Timestamp :=
  query.since.elim start fun since => max since start

theorem le_entry (query : TemporalQuery) (start : Timestamp) :
    start ≤ entry query start ∧ ∀ since ∈ query.since, since ≤ entry query start := by
  unfold entry
  cases query.since with
  | none => exact ⟨le_refl _, nofun⟩
  | some since =>
    refine ⟨le_max_right _ _, fun s hs => ?_⟩
    obtain rfl := Option.some.inj hs
    exact le_max_left _ _

theorem entry_le {query : TemporalQuery} {start bound : Timestamp} (hstart : start ≤ bound)
    (hsince : ∀ since ∈ query.since, since ≤ bound) : entry query start ≤ bound := by
  unfold entry
  cases h : query.since with
  | none => exact hstart
  | some since => exact max_le (hsince since h) hstart

theorem entry_lt {query : TemporalQuery} {start bound : Timestamp} (hstart : start < bound)
    (hsince : ∀ since ∈ query.since, since < bound) : entry query start < bound := by
  unfold entry
  cases h : query.since with
  | none => exact hstart
  | some since => exact max_lt (hsince since h) hstart

theorem exists_valid_iff {query : TemporalQuery} {memory : MemoryRecord}
    (hordered : ∀ since ∈ query.since, ∀ until_ ∈ query.until_, since ≤ until_) :
    (∃ instant, InWindow query instant ∧ isValidAt memory instant = true) ↔
      Meets query ⟨memory.validFrom, memory.invalidAt⟩ ∧
        ¬ Edge query ⟨memory.validFrom, memory.invalidAt⟩ := by
  constructor
  · rintro ⟨instant, ⟨hsince, huntil⟩, hvalid⟩
    obtain ⟨hfrom, hclosed⟩ := isValidAt_iff.mp hvalid
    refine ⟨⟨fun u hu => hfrom.trans (huntil u hu), fun s hs c hc => ?_⟩, ?_⟩
    · exact (hsince s hs).trans (hclosed c hc).le
    · rintro ⟨c, hc, hempty | htouch⟩
      · exact absurd (hempty.trans hfrom) (not_le.mpr (hclosed c hc))
      · exact absurd (hsince c htouch) (not_le.mpr (hclosed c hc))
  · rintro ⟨⟨huntil, hsince⟩, hedge⟩
    have hentry := le_entry query memory.validFrom
    refine ⟨entry query memory.validFrom, ⟨hentry.2, fun u hu => ?_⟩,
      isValidAt_iff.mpr ⟨hentry.1, fun c hc => ?_⟩⟩
    · exact entry_le (huntil u hu) fun s hs => hordered s hs u hu
    · have hfrom : memory.validFrom < c := not_le.mp fun h => hedge ⟨c, hc, .inl h⟩
      have hbefore : ∀ s ∈ query.since, s < c := fun s hs =>
        lt_of_le_of_ne (hsince s hs c hc) fun heq => hedge ⟨c, hc, .inr (heq ▸ hs)⟩
      exact entry_lt hfrom hbefore

/-- The window part is full exactly if the window meets the validity, its end included; apart from
an empty validity, and from one that ends where the window starts, this is to be valid at some
instant within the window. -/
theorem windowFit_full_iff {query : TemporalQuery} {memory : MemoryRecord}
    (hordered : ∀ since ∈ query.since, ∀ until_ ∈ query.until_, since ≤ until_) :
    (windowFit Real.exp query ⟨memory.validFrom, memory.invalidAt⟩ = 1 ↔
      Meets query ⟨memory.validFrom, memory.invalidAt⟩) ∧
    (¬ Edge query ⟨memory.validFrom, memory.invalidAt⟩ →
      (windowFit Real.exp query ⟨memory.validFrom, memory.invalidAt⟩ = 1 ↔
        ∃ instant, InWindow query instant ∧ isValidAt memory instant = true)) := by
  refine ⟨windowFit_eq_one_iff, fun hedge => ?_⟩
  rw [windowFit_eq_one_iff, exists_valid_iff hordered, and_iff_left hedge]

/-- A memory that held over this time. -/
def heldOver (validFrom : Timestamp) (invalidAt : Option Timestamp) : MemoryRecord where
  id := ⟨0⟩
  space := .user
  kind := .fact
  content := ['a']
  contentHash := ['a']
  entities := []
  tags := []
  embedding := none
  decayClass := .normal
  strength := 1
  lastAccessed := 0
  accessCount := 0
  validFrom := validFrom
  invalidAt := invalidAt
  invalidReason := none
  supersedes := []
  supersededBy := none
  source := .agent
  writer := none
  novelty := none
  derivedFrom := []
  createdAt := 0

/-- Closed within the window, it fits in full and was valid at some instant in it. -/
theorem overlap_full :
    windowFit Real.exp ⟨some 5, some 20, none⟩
      ⟨(heldOver 0 (some 10)).validFrom, (heldOver 0 (some 10)).invalidAt⟩ = 1 ∧
    ∃ instant, InWindow ⟨some 5, some 20, none⟩ instant ∧
      isValidAt (heldOver 0 (some 10)) instant = true := by
  have hfull := @windowFit_full_iff ⟨some 5, some 20, none⟩ (heldOver 0 (some 10)) (by simp)
  have hfits := hfull.1.mpr (by simp [Meets, heldOver])
  exact ⟨hfits, (hfull.2 (by simp [Edge, heldOver])).mp hfits⟩

/-- Closed at the instant the window starts, it fits in full and was valid at no instant in it. -/
theorem touching_full :
    windowFit Real.exp ⟨some 10, some 20, none⟩
      ⟨(heldOver 0 (some 10)).validFrom, (heldOver 0 (some 10)).invalidAt⟩ = 1 ∧
    ¬ ∃ instant, InWindow ⟨some 10, some 20, none⟩ instant ∧
      isValidAt (heldOver 0 (some 10)) instant = true := by
  refine ⟨windowFit_eq_one_iff.mpr (by simp [Meets, heldOver]), ?_⟩
  rintro ⟨instant, ⟨hsince, -⟩, hvalid⟩
  have hafter := hsince 10 rfl
  have hbefore := (isValidAt_iff.mp hvalid).2 10 rfl
  exact absurd hafter (not_le.mpr hbefore)

end Agmem.Core.Scoring
