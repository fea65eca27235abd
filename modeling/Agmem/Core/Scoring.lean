import Agmem.Core.Model
import Mathlib.Data.List.Sort
import Mathlib.Data.Rat.Floor

/-! Ranking: validity, decay, the fit of a window, and the order of a pool. Decay is computed when a
row is read; the exponential is taken from outside, and numbers are exact. -/

namespace Agmem.Core.Scoring

/-- Floor on Ebbinghaus stability. -/
def MIN_STABILITY : ℚ := 1 / 100

/-- Ceiling on Ebbinghaus stability. -/
def MAX_STABILITY : ℚ := 5

/-- Whether a memory was live at `instant`: `valid_from ≤ instant < invalid_at`. -/
def isValidAt (memory : MemoryRecord) (instant : Timestamp) : Bool :=
  decide (memory.validFrom ≤ instant) &&
    memory.invalidAt.all (fun closed => decide (instant < closed))

/-! ### Decay -/

def WEIGHT_RRF : ℚ := 6 / 10

def WEIGHT_RETENTION : ℚ := 25 / 100

def WEIGHT_IMPORTANCE : ℚ := 15 / 100

def WEIGHT_TEMPORAL : ℚ := 15 / 100

def WEIGHT_NOVELTY : ℚ := 0

def TEMPORAL_TAU_DAYS : ℚ := 30

def SECONDS_PER_DAY : ℚ := 86400

/-- The rate of decay of a class, for a day. -/
def rate : DecayClass → ℚ
  | .pinned => 0
  | .slow => 5 / 1000
  | .normal => 2 / 100
  | .fast => 15 / 100

def importance : DecayClass → ℚ
  | .pinned => 1
  | .slow => 75 / 100
  | .normal => 50 / 100
  | .fast => 25 / 100

/-- Elapsed days, none where the later instant is the earlier one. -/
def daysBetween (earlier later : Timestamp) : ℚ :=
  max ((later - earlier : ℤ) / (SECONDS_PER_DAY * 10 ^ 9)) 0

/-- How much of a memory survives at `now`. -/
def retention (exp : ℚ → ℚ) (decayClass : DecayClass) (strength : ℚ)
    (lastAccessed now : Timestamp) : ℚ :=
  if rate decayClass = 0 then 1
  else
    exp (-(daysBetween lastAccessed now * rate decayClass /
      max MIN_STABILITY (min strength MAX_STABILITY)))

/-! ### The window of a call -/

structure TemporalQuery where
  since : Option Timestamp
  until_ : Option Timestamp
  changedSince : Option Timestamp

/-- When a candidate was true. -/
structure Interval where
  start : Timestamp
  stop : Option Timestamp

/-- How well a candidate fits the window; of several conditions the worst fit decides. -/
def temporalFit (exp : ℚ → ℚ) (query : TemporalQuery) (valid : Interval) (changed : Timestamp) :
    ℚ :=
  let startsLate := match query.until_ with
    | none => 0
    | some until_ => daysBetween until_ valid.start
  let endedEarly := match query.since, valid.stop with
    | some since, some stop => daysBetween stop since
    | _, _ => 0
  let window := if query.since.isSome || query.until_.isSome then
    min 1 (exp (-(max startsLate endedEarly / TEMPORAL_TAU_DAYS))) else 1
  match query.changedSince with
  | none => window
  | some cutoff => min window (exp (-(daysBetween changed cutoff / TEMPORAL_TAU_DAYS)))

/-! ### The order of a pool -/

/-- The raw signals behind the rank of a candidate. -/
structure Signals where
  rrf : ℚ
  similarity : Option ℚ
  temporal : Option ℚ
  novelty : Option ℚ
  retention : ℚ
  importance : ℚ

def Signals.forMemory (exp : ℚ → ℚ) (rrf : ℚ) (memory : MemoryRecord) (now : Timestamp) :
    Signals where
  rrf := rrf
  similarity := none
  temporal := none
  novelty := memory.novelty
  retention := Scoring.retention exp memory.decayClass memory.strength memory.lastAccessed now
  importance := Scoring.importance memory.decayClass

/-- Verbatim text does not decay. -/
def Signals.forEpisodeChunk (rrf : ℚ) : Signals where
  rrf := rrf
  similarity := none
  temporal := none
  novelty := none
  retention := 1
  importance := Scoring.importance .normal

structure Ranked where
  signals : Signals
  rrfNormalized : ℚ
  score : ℚ

/-- What a pool is measured against: the weakest and the best match, and the mean novelty. -/
structure Pool where
  worst : ℚ
  best : ℚ
  noveltyMean : ℚ

def Pool.of (signals : List Signals) : Pool where
  worst := (signals.map Signals.rrf).min?.getD 0
  best := (signals.map Signals.rrf).max?.getD 0
  noveltyMean := if (signals.filterMap Signals.novelty).isEmpty then 0 else
    (signals.filterMap Signals.novelty).foldl (· + ·) 0 / (signals.filterMap Signals.novelty).length

/-- `rrf` stretched over the pool. -/
def Pool.normalize (pool : Pool) (rrf : ℚ) : ℚ :=
  if pool.best ≤ 0 then 0
  else if 0 < pool.best - pool.worst then (rrf - pool.worst) / (pool.best - pool.worst)
  else 1

def Pool.ranked (pool : Pool) (signals : Signals) : Ranked where
  signals := signals
  rrfNormalized := pool.normalize signals.rrf
  score := WEIGHT_RRF * pool.normalize signals.rrf + WEIGHT_RETENTION * signals.retention +
    WEIGHT_IMPORTANCE * signals.importance + WEIGHT_TEMPORAL * signals.temporal.getD 0 +
    WEIGHT_NOVELTY * match signals.novelty with
      | none => 0
      | some novelty => novelty - pool.noveltyMean

/-- Candidates with their scores, best first; ties keep the order they came in. -/
def rank {α : Type*} (candidates : List (α × Signals)) : List (α × Ranked) :=
  let pool := Pool.of (candidates.map Prod.snd)
  (candidates.map fun c => (c.1, pool.ranked c.2)).insertionSort fun a b => b.2.score ≤ a.2.score

variable {α : Type*}

theorem rank_perm (candidates : List (α × Signals)) :
    ((rank candidates).map Prod.fst).Perm (candidates.map Prod.fst) := by
  have hsort := (List.perm_insertionSort (fun a b : α × Ranked => b.2.score ≤ a.2.score)
    (candidates.map fun c => (c.1, (Pool.of (candidates.map Prod.snd)).ranked c.2))).map Prod.fst
  rw [List.map_map] at hsort
  exact hsort

/-- No row is ranked before one of a higher score. -/
theorem rank_sorted (candidates : List (α × Signals)) :
    (rank candidates).Pairwise fun a b => b.2.score ≤ a.2.score := by
  have : Std.Total (fun a b : α × Ranked => b.2.score ≤ a.2.score) :=
    ⟨fun a b => le_total b.2.score a.2.score⟩
  have : IsTrans (α × Ranked) fun a b => b.2.score ≤ a.2.score := ⟨fun a b c h h' => h'.trans h⟩
  exact List.pairwise_insertionSort _ _

end Agmem.Core.Scoring
