import Agmem.Store.Expiry

/-! Two histories of a memory, one of which has a recall more. From then on its row is as strong as
the other or stronger, was accessed no earlier and is closed no sooner; every later recall and every
later sweep keeps it so. -/

namespace Agmem.Store

open Core Relational Scoring

/-- What happens to a row, with the readings of the clock: a sweep reads it once for its condition
and once for the rows it closes. -/
inductive Event where
  | recalled (now : Timestamp)
  | sweep (asked now : Timestamp)

def Event.instants : Event → List Timestamp
  | .recalled now => [now]
  | .sweep asked now => [asked, now]

section Field

variable {K : Type*} [Field K] [LinearOrder K] [FloorRing K]

/-- `REINFORCE` and `PRUNE_EXPIRED`, on one row. -/
def Event.apply (horizon : K) (r : MemoryRecord) : Event → MemoryRecord
  | .recalled now => reinforced (fun _ => now) r
  | .sweep asked now =>
    if expires horizon (fun _ => asked) r = true then closedAs .expired now r else r

/-- A row after its history. -/
def history (horizon : K) (r : MemoryRecord) (events : List Event) : MemoryRecord :=
  events.foldl (Event.apply horizon) r

end Field

/-! ### The row of a store -/

section Row

variable {db db' : Db} {ids : List MemoryId} {asked now : MemoryId → Timestamp} {n : ℕ}
  {r : MemoryRecord}

theorem reinforce_row (h : reinforce db ids now = .ok (db', n)) (hids : ids.Nodup)
    (hr : r ∈ db.memory) (hmem : r.id ∈ ids) :
    (Event.recalled (now r.id)).apply pruneHorizon r ∈ db'.memory := by
  unfold reinforce at h
  split at h
  · cases h
  · next t touched hu =>
    cases h
    have hrows := Table.update?_rows (f := reinforced now) (fun _ => rfl) _ _ _ _ (.inl hids) hu
    rw [Table.mem_iff, hrows]
    refine List.mem_map.mpr ⟨r, hr, ?_⟩
    rw [if_pos ⟨rfl, hmem⟩]
    rfl

theorem sweep_row {closed : List MemoryId}
    (h : pruneExpiredBy Real.log db asked now = .ok (db', closed)) (hr : r ∈ db.memory) :
    (Event.sweep (asked r.id) (now r.id)).apply pruneHorizon r ∈ db'.memory := by
  rw [Table.mem_iff, pruneExpiredBy_rows h]
  exact List.mem_map.mpr ⟨r, hr, rfl⟩

end Row

/-! ### Ahead -/

theorem live_of_expires {asked : MemoryId → Timestamp} {r : MemoryRecord}
    (h : expires pruneHorizon asked r = true) : r.isLive = true :=
  (Bool.and_eq_true_iff.mp (Bool.and_eq_true_iff.mp h).1).2

/-- At an instant `t`, the row `a` is ahead of `b`. -/
structure Ahead (t : Timestamp) (a b : MemoryRecord) : Prop where
  decayClass : a.decayClass = b.decayClass
  strength : min b.strength MAX_STABILITY ≤ min a.strength MAX_STABILITY
  lastAccessed : b.lastAccessed ≤ a.lastAccessed
  closed : ∀ v ∈ a.invalidAt, ∃ u ∈ b.invalidAt, u ≤ v
  past : a.invalidAt = none → ∀ u ∈ b.invalidAt, u ≤ t

theorem pruneHorizon_nonneg : 0 ≤ pruneHorizon := by
  have hlog : Real.log (PRUNE_RETENTION : ℝ) ≤ 0 :=
    Real.log_nonpos (by norm_num [PRUNE_RETENTION]) (by norm_num [PRUNE_RETENTION])
  have hrate : (0 : ℝ) ≤ (rate PRUNE_CLASS : ℝ) := Rat.cast_nonneg.mpr (rate_nonneg PRUNE_CLASS)
  have hday : (0 : ℝ) ≤ (SECONDS_PER_DAY : ℝ) := by norm_num [SECONDS_PER_DAY]
  exact mul_nonneg (div_nonneg (neg_nonneg.mpr hlog) hrate) hday

/-- One more recall buys strength up to the ceiling, and what it is added to does not matter. -/
theorem min_add_one_mono {weak strong : ℚ}
    (h : min weak MAX_STABILITY ≤ min strong MAX_STABILITY) :
    min (weak + 1) MAX_STABILITY ≤ min (strong + 1) MAX_STABILITY := by
  refine le_min ?_ (min_le_right _ _)
  rcases min_le_iff.mp (h.trans (min_le_left _ _)) with hle | hle
  · exact (min_le_left _ _).trans (add_le_add_left hle 1)
  · exact (min_le_right _ _).trans (hle.trans (le_add_of_nonneg_right zero_le_one))

namespace Ahead

variable {t u : Timestamp} {a b : MemoryRecord}

/-- The cut-off of the row behind comes no later. -/
theorem expires (h : Ahead t a b) {asked : MemoryId → Timestamp} (hsame : asked a.id = asked b.id)
    (hlive : b.isLive = true) (hexpires : Store.expires pruneHorizon asked a = true) :
    Store.expires pruneHorizon asked b = true := by
  have hcutoff : cutoffSecs pruneHorizon b ≤ cutoffSecs pruneHorizon a :=
    Int.floor_le_floor (by
      have := mul_le_mul_of_nonneg_left (stability_mono h.strength) pruneHorizon_nonneg
      linarith)
  have := h.lastAccessed
  simp only [Store.expires, Bool.and_eq_true, decide_eq_true_eq] at hexpires ⊢
  obtain ⟨⟨hclass, -⟩, hlt⟩ := hexpires
  refine ⟨⟨h.decayClass ▸ hclass, hlive⟩, ?_⟩
  rw [← hsame]
  linarith

theorem mono (h : Ahead t a b) (hu : t ≤ u) : Ahead u a b :=
  { h with past := fun hlive v hv => (h.past hlive v hv).trans hu }

theorem recalled (h : Ahead t a b) (now : Timestamp) : Ahead t
    ((Event.recalled now).apply pruneHorizon a) ((Event.recalled now).apply pruneHorizon b) where
  decayClass := h.decayClass
  strength := by
    have := min_add_one_mono h.strength
    simpa [Event.apply, reinforced] using this
  lastAccessed := le_refl _
  closed := h.closed
  past := h.past

/-- The row ahead may be closed where the row behind was closed no later. -/
theorem close (h : Ahead t a b) {v : Timestamp} (hb : ∃ u ∈ b.invalidAt, u ≤ v) :
    Ahead t (closedAs .expired v a) b where
  decayClass := h.decayClass
  strength := h.strength
  lastAccessed := h.lastAccessed
  closed w hw := by
    obtain rfl := Option.some.inj hw
    exact hb
  past hlive := absurd hlive (Option.some_ne_none v)

theorem closeBehind (h : Ahead t a b) (hlive : b.isLive = true) (now : Timestamp) :
    Ahead now a (closedAs .expired now b) where
  decayClass := h.decayClass
  strength := h.strength
  lastAccessed := h.lastAccessed
  closed v hv := by
    obtain ⟨u, hu, -⟩ := h.closed v hv
    rw [MemoryRecord.isLive_iff.mp hlive] at hu
    cases hu
  past _ u hu := (Option.some.inj hu).symm.le

theorem sweep (h : Ahead t a b) (asked : Timestamp) {now : Timestamp} (hnow : t ≤ now) :
    Ahead now ((Event.sweep asked now).apply pruneHorizon a)
      ((Event.sweep asked now).apply pruneHorizon b) := by
  have h := h.mono hnow
  unfold Event.apply
  dsimp only
  by_cases ha : Store.expires pruneHorizon (fun _ => asked) a = true
  · have hlive : a.invalidAt = none := MemoryRecord.isLive_iff.mp (live_of_expires ha)
    rw [if_pos ha]
    by_cases hb : b.isLive = true
    · rw [if_pos (h.expires rfl hb ha)]
      exact (h.closeBehind hb now).close ⟨now, rfl, le_refl now⟩
    · rw [if_neg fun hexp => hb (live_of_expires hexp)]
      obtain ⟨u, hu⟩ := Option.ne_none_iff_exists'.mp (mt MemoryRecord.isLive_iff.mpr hb)
      exact h.close ⟨u, hu, h.past hlive u hu⟩
  · rw [if_neg ha]
    split_ifs with hb
    · exact h.closeBehind (live_of_expires hb) now
    · exact h

/-- What one event keeps. -/
theorem step (h : Ahead t a b) (e : Event) (ht : ∀ u ∈ e.instants, t ≤ u) :
    ∃ u ∈ e.instants, Ahead u (e.apply pruneHorizon a) (e.apply pruneHorizon b) := by
  cases e with
  | recalled now =>
    have hnow : t ≤ now := ht now (List.mem_singleton_self now)
    exact ⟨now, List.mem_singleton_self now, (h.recalled now).mono hnow⟩
  | sweep asked now =>
    have hmem : now ∈ (Event.sweep asked now).instants := by simp [Event.instants]
    exact ⟨now, hmem, h.sweep asked (ht now hmem)⟩

/-- What the rest of a history keeps, with a clock that does not run backwards. -/
theorem run (h : Ahead t a b) (events : List Event)
    (hclock : (t :: events.flatMap Event.instants).Pairwise (· ≤ ·)) :
    ∃ u, Ahead u (history pruneHorizon a events) (history pruneHorizon b events) := by
  induction events generalizing t a b with
  | nil => exact ⟨t, h⟩
  | cons e events ih =>
    rw [List.flatMap_cons] at hclock
    obtain ⟨hfrom, hrest⟩ := List.pairwise_cons.mp hclock
    obtain ⟨u, hu, hnext⟩ := h.step e fun u hu => hfrom u (List.mem_append_left _ hu)
    obtain ⟨-, hlater, hbetween⟩ := List.pairwise_append.mp hrest
    exact ih hnext (List.pairwise_cons.mpr ⟨hbetween u hu, hlater⟩)

end Ahead

/-! ### One more recall -/

theorem history_cons (r : MemoryRecord) (e : Event) (events : List Event) :
    history pruneHorizon r (e :: events) = history pruneHorizon (e.apply pruneHorizon r) events :=
  rfl

theorem history_append {K : Type*} [Field K] [LinearOrder K] [FloorRing K] (horizon : K)
    (r : MemoryRecord) (before after : List Event) :
    history horizon r (before ++ after) = history horizon (history horizon r before) after :=
  List.foldl_append

/-- A row was accessed at the start or at an instant of its history. -/
theorem lastAccessed_history (r : MemoryRecord) (events : List Event) :
    (history pruneHorizon r events).lastAccessed ∈
      r.lastAccessed :: events.flatMap Event.instants := by
  induction events generalizing r with
  | nil => exact List.mem_singleton_self _
  | cons e events ih =>
    have hstep : (e.apply pruneHorizon r).lastAccessed ∈ r.lastAccessed :: e.instants := by
      cases e with
      | recalled now => exact List.mem_cons_of_mem _ (List.mem_singleton_self now)
      | sweep asked now =>
        unfold Event.apply
        dsimp only
        split_ifs <;> exact List.mem_cons_self ..
    have hrest := ih (e.apply pruneHorizon r)
    rw [List.flatMap_cons, ← List.cons_append]
    rcases List.mem_cons.mp hrest with heq | hmem
    · rw [history_cons, heq]
      exact List.mem_append_left _ hstep
    · exact List.mem_append_right _ hmem

/-- The extra recall puts its history ahead. -/
theorem ahead_of_recall {r : MemoryRecord} {now : Timestamp} (h : r.lastAccessed ≤ now) :
    Ahead now ((Event.recalled now).apply pruneHorizon r) r where
  decayClass := rfl
  strength := by simp [Event.apply, reinforced]
  lastAccessed := h
  closed v hv := ⟨v, hv, le_refl v⟩
  past hlive u hu := by
    have hnone : r.invalidAt = none := hlive
    rw [hnone] at hu
    cases hu

/-- The retention of a row. -/
noncomputable def retentionOf (r : MemoryRecord) (now : Timestamp) : ℝ :=
  remaining Real.exp r.decayClass r.strength r.lastAccessed now

/-- Of two histories that differ in one recall, the one that has it keeps the memory better at every
instant, and closes it no sooner. -/
theorem recall_never_hurts {r : MemoryRecord} {before after : List Event} {instant : Timestamp}
    (hclock : (r.lastAccessed ::
      (before ++ .recalled instant :: after).flatMap Event.instants).Pairwise (· ≤ ·)) :
    (∀ now, retentionOf (history pruneHorizon r (before ++ after)) now ≤
      retentionOf (history pruneHorizon r (before ++ .recalled instant :: after)) now) ∧
    ∀ t, (history pruneHorizon r (before ++ .recalled instant :: after)).invalidAt = some t →
      ∃ u, (history pruneHorizon r (before ++ after)).invalidAt = some u ∧ u ≤ t := by
  rw [List.flatMap_append, List.flatMap_cons, ← List.cons_append] at hclock
  obtain ⟨-, hlater, hbetween⟩ := List.pairwise_append.mp hclock
  have haccess : (history pruneHorizon r before).lastAccessed ≤ instant :=
    hbetween _ (lastAccessed_history r before) instant (List.mem_cons_self ..)
  obtain ⟨u, hahead⟩ := (ahead_of_recall haccess).run after hlater
  rw [history_append, history_append, history_cons]
  refine ⟨fun now => ?_, hahead.closed⟩
  unfold retentionOf
  rw [hahead.decayClass]
  exact remaining_mono hahead.strength hahead.lastAccessed now

/-- A note of the class with a TTL. -/
def note : MemoryRecord :=
  MemoryRow.record ⟨.user, .fact, ['a'], ['a'], [], [], none, .fast, 0, [], [], ⟨[], none, [], []⟩,
    none⟩ ⟨0⟩ .agent 0

theorem history_sweep_of_expires {r : MemoryRecord} {asked now : Timestamp} {events : List Event}
    (h : expires pruneHorizon (fun _ => asked) r = true) :
    history pruneHorizon r (.sweep asked now :: events) =
      history pruneHorizon (closedAs .expired now r) events := by
  rw [history_cons, Event.apply, if_pos h]

theorem history_sweep_of_not {r : MemoryRecord} {asked now : Timestamp} {events : List Event}
    (h : ¬ expires pruneHorizon (fun _ => asked) r = true) :
    history pruneHorizon r (.sweep asked now :: events) = history pruneHorizon r events := by
  rw [history_cons, Event.apply, if_neg h]

/-- In one of the histories the note is recalled on the tenth day. The sweep of the twenty-fifth
closes the note of the other, and the sweep of the hundredth closes this one. -/
theorem recalled_note_kept :
    let sweeps : List Event := [.sweep (day 25) (day 25), .sweep (day 100) (day 100)]
    let neglected := history pruneHorizon note sweeps
    let recalled := history pruneHorizon note (.recalled (day 10) :: sweeps)
    neglected.invalidAt = some (day 25) ∧ recalled.invalidAt = some (day 100) ∧
      (∀ now, retentionOf neglected now ≤ retentionOf recalled now) ∧
      ∀ t, recalled.invalidAt = some t → ∃ u, neglected.invalidAt = some u ∧ u ≤ t := by
  intro sweeps neglected recalled
  let again : MemoryRecord := reinforced (fun _ => day 10) note
  have hfirst : (stability note.strength : ℝ) = 1 := by
    rw [stability_eq (by decide +kernel) (by decide +kernel), note, MemoryRow.record, Rat.cast_one]
  have hagain : (stability again.strength : ℝ) = 2 := by
    have htwo : again.strength = 2 := by decide +kernel
    rw [stability_eq (htwo ▸ by decide +kernel) (htwo ▸ by decide +kernel), htwo, Rat.cast_ofNat]
  have hnote : note.lastAccessed = day 0 := by decide
  have hneglected : expires pruneHorizon (fun _ => day 25) note = true := by
    refine expires_of_idle rfl rfl ?_
    rw [hfirst, hnote, idleSecs_day]
    norm_num
  have hkept : ¬ expires pruneHorizon (fun _ => day 25) again = true := by
    refine not_expires_of_idle ?_
    rw [hagain, show again.lastAccessed = day 10 from rfl, idleSecs_day]
    norm_num
  have hlast : expires pruneHorizon (fun _ => day 100) again = true := by
    refine expires_of_idle rfl rfl ?_
    rw [hagain, show again.lastAccessed = day 10 from rfl, idleSecs_day]
    norm_num
  have hclosed : ¬ expires pruneHorizon (fun _ => day 100) (closedAs .expired (day 25) note) = true :=
    fun h => Bool.false_ne_true (live_of_expires h)
  have hcomes : neglected = closedAs .expired (day 25) note := by
    rw [show neglected = _ from history_sweep_of_expires hneglected, history_sweep_of_not hclosed]
    rfl
  have hstays : recalled = closedAs .expired (day 100) again := by
    rw [show recalled = history pruneHorizon again sweeps from history_cons _ _ _,
      history_sweep_of_not hkept, history_sweep_of_expires hlast]
    rfl
  obtain ⟨hretained, hno⟩ := @recall_never_hurts note [] sweeps (day 10) (by decide)
  exact ⟨by rw [hcomes]; rfl, by rw [hstays]; rfl, hretained, hno⟩

end Agmem.Store
