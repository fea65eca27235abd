import Mathlib.Algebra.Order.Floor.Ring
import Mathlib.Analysis.Complex.ExponentialBounds
import Mathlib.Tactic.Linarith
import Agmem.Core.Decay
import Agmem.Store.Op

/-! The sweep and the curve. The engine compares timestamps: a row goes when its last access, moved
on by a horizon in whole seconds, is past. The curve is not repeated there, so the two agree up to
what rounding the horizon can do. The rows go in one statement: where one of them would meet an
earlier copy of its claim that was closed at the same instant, the statement is refused and none of
them goes. -/

namespace Agmem.Store

open Core Relational Scoring

section Field

variable {K : Type*} [Field K] [LinearOrder K] [FloorRing K]

/-- The idle time of a row, in seconds, after which the sweep takes it. -/
def cutoffSecs (horizon : K) (r : MemoryRecord) : ℤ := ⌊horizon * stability r.strength + 1 / 2⌋

/-- The condition of `PRUNE_EXPIRED`. -/
def expires (horizon : K) (asked : MemoryId → Timestamp) (r : MemoryRecord) : Bool :=
  decide (r.decayClass = PRUNE_CLASS) && r.isLive &&
    decide (r.lastAccessed + cutoffSecs horizon r * 1000000000 < asked r.id)

/-- `prune_expired`, with the logarithm the horizon is taken from. -/
def pruneExpiredBy (log : K → K) (db : Db) (asked now : MemoryId → Timestamp) :
    Except StoreError (Db × List MemoryId) :=
  match decayHorizonSecs log PRUNE_CLASS (PRUNE_RETENTION : K) with
  | none => .ok (db, [])
  | some horizon =>
    match db.memory.update? (expires horizon asked) (fun r => closedAs .expired (now r.id) r)
        (db.memory.rows.map MemoryRecord.id) with
    | none => .error (.db (.indexExists .memHashLive))
    | some (memory, closed) => .ok ({ db with memory := memory }, closed.map MemoryRecord.id)

end Field

variable {db db' : Db} {asked now : MemoryId → Timestamp} {r : MemoryRecord}

/-- Over the rationals it is the sweep of the store's operations. -/
theorem pruneExpiredBy_rat {log : ℚ → ℚ} {horizon : ℚ}
    (h : decayHorizonSecs log PRUNE_CLASS (PRUNE_RETENTION : ℚ) = some horizon) :
    pruneExpiredBy log db asked now = pruneExpired db horizon asked now := by
  have hcutoff (r : MemoryRecord) : cutoffSecs horizon r * 1000000000 = rowHorizon horizon r := by
    have hclamp : (stability r.strength : ℚ) =
        min (max r.strength MIN_STABILITY) MAX_STABILITY := by
      have hle : MIN_STABILITY ≤ MAX_STABILITY := by norm_num [MIN_STABILITY, MAX_STABILITY]
      rw [stability, Rat.cast_id, Rat.cast_id, Rat.cast_id, max_min_distrib_left,
        max_eq_right hle, max_comm]
    rw [cutoffSecs, rowHorizon, mathRound, hclamp]
  have hexpires : expires horizon asked = fun r => decide (r.decayClass = PRUNE_CLASS) &&
      r.isLive && decide (r.lastAccessed + rowHorizon horizon r < asked r.id) := by
    funext r
    rw [expires, hcutoff]
  rw [pruneExpiredBy, Rat.cast_id, h]
  dsimp only
  rw [hexpires]
  rfl

/-! ### The rule and the curve -/

/-- The curve has the row below the threshold, and its class has a TTL. -/
def Expired (r : MemoryRecord) (now : Timestamp) : Prop :=
  r.decayClass = PRUNE_CLASS ∧
    remaining Real.exp r.decayClass r.strength r.lastAccessed now < (PRUNE_RETENTION : ℝ)

/-- The horizon of the class with a TTL, in seconds. -/
noncomputable def pruneHorizon : ℝ :=
  -(Real.log (PRUNE_RETENTION : ℝ)) / (rate PRUNE_CLASS : ℝ) * (SECONDS_PER_DAY : ℝ)

/-- The row has been idle for its horizon, to within half a second. -/
def OnTheEdge (r : MemoryRecord) (now : Timestamp) : Prop :=
  r.decayClass = PRUNE_CLASS ∧
    |idleSecs r.lastAccessed now - pruneHorizon * stability r.strength| ≤ 1 / 2

theorem decayHorizonSecs_prune :
    decayHorizonSecs Real.log PRUNE_CLASS (PRUNE_RETENTION : ℝ) = some pruneHorizon := by
  have hno : ¬ (rate PRUNE_CLASS = 0 ∨ (PRUNE_RETENTION : ℝ) ≤ 0 ∨ 1 ≤ (PRUNE_RETENTION : ℝ)) := by
    norm_num [PRUNE_CLASS, rate, PRUNE_RETENTION]
  rw [decayHorizonSecs, if_neg hno, pruneHorizon]

/-- Rounding moves the horizon by half a second at most. -/
theorem cutoffSecs_near (horizon : ℝ) (r : MemoryRecord) :
    (cutoffSecs horizon r : ℝ) ≤ horizon * stability r.strength + 1 / 2 ∧
      horizon * stability r.strength - 1 / 2 < cutoffSecs horizon r := by
  have hle := Int.floor_le (horizon * stability r.strength + 1 / 2)
  have hlt := Int.lt_floor_add_one (horizon * stability r.strength + 1 / 2)
  rw [cutoffSecs]
  constructor
  · exact hle
  · linarith

theorem moved_lt_iff {last now : Timestamp} {cutoff : ℤ} :
    last + cutoff * 1000000000 < now ↔ (cutoff : ℝ) < idleSecs last now := by
  have hnanos : (0 : ℝ) < 10 ^ 9 := by norm_num
  rw [idleSecs, lt_div_iff₀ hnanos, ← Int.cast_lt (R := ℝ)]
  push_cast
  constructor <;> intro h <;> linarith

theorem expires_iff_cutoff (hclass : r.decayClass = PRUNE_CLASS) (hlive : r.isLive = true) :
    expires pruneHorizon asked r = true ↔
      (cutoffSecs pruneHorizon r : ℝ) < idleSecs r.lastAccessed (asked r.id) := by
  simp [expires, hclass, hlive, moved_lt_iff]

theorem expired_iff_idle (hclass : r.decayClass = PRUNE_CLASS) {now : Timestamp} :
    Expired r now ↔ pruneHorizon * stability r.strength < idleSecs r.lastAccessed now := by
  rw [Expired, and_iff_right hclass, hclass, remaining_lt_iff decayHorizonSecs_prune]

/-- A live row meets the condition of the sweep exactly if the curve has it below the threshold,
unless it has been idle for its horizon to within half a second. -/
theorem expires_iff (hlive : r.isLive = true) :
    (expires pruneHorizon asked r = true ↔ Expired r (asked r.id)) ∨ OnTheEdge r (asked r.id) := by
  by_cases hclass : r.decayClass = PRUNE_CLASS
  · obtain ⟨hle, hlt⟩ := cutoffSecs_near pruneHorizon r
    by_cases hedge : OnTheEdge r (asked r.id)
    · exact .inr hedge
    · left
      rw [OnTheEdge, and_iff_right hclass, abs_le, not_and_or, not_le, not_le] at hedge
      rw [expires_iff_cutoff hclass hlive, expired_iff_idle hclass]
      rcases hedge with hbefore | hafter
      · exact iff_of_false (by linarith) (by linarith)
      · exact iff_of_true (by linarith) (by linarith)
  · exact .inl (iff_of_false (by simp [expires, hclass]) fun h => hclass h.1)

/-- The horizon lies between thirteen days and twenty. -/
theorem pruneHorizon_near : 13 * 86400 < pruneHorizon ∧ pruneHorizon < 20 * 86400 := by
  have hlow := Real.exp_one_gt_d9
  have hhigh := Real.exp_one_lt_d9
  have hlog : Real.log (PRUNE_RETENTION : ℝ) = -Real.log 20 := by
    rw [← Real.log_inv]
    norm_num [PRUNE_RETENTION]
  have htwo : 2 < Real.log 20 := by
    rw [Real.lt_log_iff_exp_lt (by norm_num), show (2 : ℝ) = ((2 : ℕ) : ℝ) * 1 by norm_num,
      Real.exp_nat_mul]
    nlinarith
  have hthree : Real.log 20 < 3 := by
    rw [Real.log_lt_iff_lt_exp (by norm_num), show (3 : ℝ) = ((3 : ℕ) : ℝ) * 1 by norm_num,
      Real.exp_nat_mul]
    calc (20 : ℝ) < 2.7182 ^ 3 := by norm_num
      _ ≤ Real.exp 1 ^ 3 := by gcongr; linarith
  have hhorizon : pruneHorizon = Real.log 20 * 576000 := by
    rw [pruneHorizon, hlog, neg_neg, div_mul_eq_mul_div, mul_div_assoc]
    norm_num [PRUNE_CLASS, rate, SECONDS_PER_DAY]
  rw [hhorizon]
  constructor <;> linarith

theorem le_stability (strength : ℚ) : 1 / 100 ≤ (stability strength : ℝ) :=
  (by norm_num [MIN_STABILITY] : (1 / 100 : ℝ) = MIN_STABILITY).trans_le (le_max_left ..)

/-- Twenty-one days for each unit of strength are past the horizon, and not only by rounding. -/
theorem expired_of_idle (hclass : r.decayClass = PRUNE_CLASS) {now : Timestamp}
    (hidle : 21 * 86400 * (stability r.strength : ℝ) ≤ idleSecs r.lastAccessed now) :
    Expired r now ∧ ¬ OnTheEdge r now := by
  have hstrong := le_stability r.strength
  have hhorizon : pruneHorizon * stability r.strength ≤ 20 * 86400 * stability r.strength :=
    mul_le_mul_of_nonneg_right pruneHorizon_near.2.le (stability_pos r.strength).le
  refine ⟨(expired_iff_idle hclass).mpr (by linarith), fun hedge => ?_⟩
  have hnear := (abs_le.mp hedge.2).2
  linarith

theorem expires_of_idle (hclass : r.decayClass = PRUNE_CLASS) (hlive : r.isLive = true)
    (hidle : 21 * 86400 * (stability r.strength : ℝ) ≤ idleSecs r.lastAccessed (asked r.id)) :
    expires pruneHorizon asked r = true := by
  obtain ⟨hexpired, hedge⟩ := expired_of_idle hclass hidle
  exact ((expires_iff hlive).resolve_right hedge).mpr hexpired

/-- Twelve days for each unit of strength are not. -/
theorem not_expires_of_idle
    (hidle : idleSecs r.lastAccessed (asked r.id) ≤ 12 * 86400 * (stability r.strength : ℝ)) :
    ¬ expires pruneHorizon asked r = true := by
  intro hexpires
  have hstrong := le_stability r.strength
  have hhorizon : 13 * 86400 * stability r.strength ≤ pruneHorizon * stability r.strength :=
    mul_le_mul_of_nonneg_right pruneHorizon_near.1.le (stability_pos r.strength).le
  obtain ⟨-, hcutoff⟩ := cutoffSecs_near pruneHorizon r
  have hpast := moved_lt_iff.mp (of_decide_eq_true (Bool.and_eq_true_iff.mp hexpires).2)
  linarith

/-! ### What the sweep leaves -/

theorem closes_expires : Closes (expires pruneHorizon asked)
    (fun r => closedAs .expired (now r.id) r) fun r => now r.id :=
  closes_closedAs (fun _ hr => (Bool.and_eq_true_iff.mp (Bool.and_eq_true_iff.mp hr).1).2) _ _

theorem pruneExpiredBy_rows {closed : List MemoryId}
    (h : pruneExpiredBy Real.log db asked now = .ok (db', closed)) :
    db'.memory.rows = db.memory.rows.map fun r =>
      if expires pruneHorizon asked r = true then closedAs .expired (now r.id) r else r := by
  rw [pruneExpiredBy, decayHorizonSecs_prune] at h
  dsimp only at h
  split at h
  · cases h
  · next t rows hu =>
    cases h
    rw [rows_of_update closes_expires hu]
    refine List.map_congr_left fun _ hr => ?_
    rw [decide_eq_true (List.mem_map_of_mem hr), Bool.and_true]

/-- The sweep goes through unless an expired row would land on the closing instant of an earlier
copy. -/
theorem pruneExpiredBy_ok_iff : (∃ out, pruneExpiredBy Real.log db asked now = .ok out) ↔
    ∀ r ∈ db.memory, expires pruneHorizon asked r = true → ¬ Twin db.memory r (now r.id) := by
  have hsome : (db.memory.update? (expires pruneHorizon asked)
      (fun r => closedAs .expired (now r.id) r) (db.memory.rows.map MemoryRecord.id)).isSome ↔
      ∀ r ∈ db.memory, expires pruneHorizon asked r = true → ¬ Twin db.memory r (now r.id) := by
    rw [closes_expires.isSome]
    exact forall₂_congr fun _ hr => forall_prop_of_true (List.mem_map_of_mem hr)
  rw [← hsome, pruneExpiredBy, decayHorizonSecs_prune]
  dsimp only
  split
  · next hu => simp [hu]
  · next t rows hu => simp [hu]

/-- The sweep ends one way or the other. -/
theorem pruneExpiredBy_cases : (∃ out, pruneExpiredBy Real.log db asked now = .ok out) ∨
    pruneExpiredBy Real.log db asked now = .error (.db (.indexExists .memHashLive)) := by
  rw [pruneExpiredBy, decayHorizonSecs_prune]
  dsimp only
  split
  · exact .inr rfl
  · exact .inl ⟨_, rfl⟩

/-- The condition of the sweep is the curve's, up to rounding. The sweep goes through exactly if no
row that meets it would be closed at the instant an earlier copy was, and then closes those rows and
no others. -/
theorem prune_agrees (hr : r ∈ db.memory) (hlive : r.isLive = true) :
    ((expires pruneHorizon asked r = true ↔ Expired r (asked r.id)) ∨ OnTheEdge r (asked r.id)) ∧
      ((∃ out, pruneExpiredBy Real.log db asked now = .ok out) ↔ ∀ q ∈ db.memory,
        expires pruneHorizon asked q = true → ¬ Twin db.memory q (now q.id)) ∧
      ∀ db' closed, pruneExpiredBy Real.log db asked now = .ok (db', closed) →
        (closedAs .expired (now r.id) r ∈ db'.memory ↔ expires pruneHorizon asked r = true) := by
  refine ⟨expires_iff hlive, pruneExpiredBy_ok_iff, fun db' closed h => ?_⟩
  rw [Table.mem_iff, pruneExpiredBy_rows h, List.mem_map]
  constructor
  · rintro ⟨q, hq, heq⟩
    split_ifs at heq with hexpires
    · have hid := congrArg MemoryRecord.id heq
      rwa [← Table.eq_of_key hq hr hid]
    · have hid := congrArg MemoryRecord.id heq
      rw [← Table.eq_of_key hq hr hid, heq] at hlive
      cases hlive
  · exact fun hexpires => ⟨r, hr, if_pos hexpires⟩

/-! ### A month later -/

/-- The start of a day, counted from the epoch. -/
def day (n : ℤ) : Timestamp := n * (86400 * 10 ^ 9)

theorem idleSecs_day (m n : ℤ) : idleSecs (day m) (day n) = ((n - m) * 86400 : ℝ) := by
  rw [idleSecs, day, day]
  push_cast
  ring

/-- A one-letter claim of the class with a TTL. -/
def passing (letter : Char) : NewMemory := { claim letter [] none with decayClass := some .fast }

/-- A row of that class as it was written at the epoch. -/
def Untouched (r : MemoryRecord) : Prop :=
  r.isLive = true ∧ r.decayClass = PRUNE_CLASS ∧ r.strength = 1 ∧ r.lastAccessed = day 0

instance (r : MemoryRecord) : Decidable (Untouched r) :=
  inferInstanceAs (Decidable (_ ∧ _ ∧ _ ∧ _))

theorem Untouched.idle (h : Untouched r) :
    21 * 86400 * (stability r.strength : ℝ) ≤ idleSecs r.lastAccessed (day 30) := by
  obtain ⟨-, -, hstrength, haccess⟩ := h
  rw [hstrength, haccess, idleSecs_day, stability_eq (by decide +kernel) (by decide +kernel)]
  norm_num

/-- A claim of the class with a TTL, stored at the epoch and swept a month later. -/
theorem prune_agrees_month : ∃ db r out, @Db.Reachable plain db ∧ r ∈ db.memory ∧
    Expired r (day 30) ∧ ¬ OnTheEdge r (day 30) ∧
    pruneExpiredBy Real.log db (fun _ => day 30) (fun _ => day 30) = .ok out ∧
    closedAs .expired (day 30) r ∈ out.1.memory := by
  obtain ⟨steps, ⟨db, hrun, -, hp⟩⟩ := Transition.exists_run_of_exec (@step plain) (Db.empty 0)
    [remember 0 [passing 'a']]
    (fun u => u.2.memory.rows.any (fun r => decide (Untouched r)) &&
      u.2.memory.rows.all fun r => r.invalidAt.isNone) (by decide +kernel)
  obtain ⟨hany, hopen⟩ := Bool.and_eq_true_iff.mp hp
  obtain ⟨r, hr, huntouched⟩ := List.any_eq_true.mp hany
  have huntouched := of_decide_eq_true huntouched
  obtain ⟨hexpired, hedge⟩ := expired_of_idle huntouched.2.1 huntouched.idle
  have hagrees := @prune_agrees db (fun _ => day 30) (fun _ => day 30) r hr huntouched.1
  obtain ⟨out, hout⟩ := hagrees.2.1.mpr fun q _ _ htwin => by
    obtain ⟨copy, hcopy, -, -, hclosed⟩ := htwin
    have := List.all_eq_true.mp hopen copy hcopy
    rw [hclosed] at this
    cases this
  exact ⟨db, r, out, ⟨0, steps, hrun⟩, hr, hexpired, hedge, hout,
    (hagrees.2.2 out.1 out.2 hout).mpr ((hagrees.1.resolve_right hedge).mpr hexpired)⟩

/-- A claim that was closed as of the very instant of the sweep, and said again before. -/
theorem expired_left_open : ∃ db r, @Db.Reachable plain db ∧ r ∈ db.memory ∧ r.isLive = true ∧
    Expired r (day 30) ∧ ¬ OnTheEdge r (day 30) ∧
    pruneExpiredBy Real.log db (fun _ => day 30) (fun _ => day 30) =
      .error (.db (.indexExists .memHashLive)) := by
  obtain ⟨steps, ⟨db, hrun, -, hp⟩⟩ := Transition.exists_run_of_exec (@step plain) (Db.empty 0)
    [remember 0 [passing 'a'], remember 0 [claim 'b' [0] (some (day 30))],
      remember 0 [passing 'a']]
    (fun u => u.2.memory.rows.any fun r => decide (Untouched r) &&
      u.2.memory.rows.any fun q => decide (q.space = r.space ∧ q.contentHash = r.contentHash ∧
        q.invalidAt = some (day 30))) (by decide +kernel)
  obtain ⟨r, hr, hboth⟩ := List.any_eq_true.mp hp
  obtain ⟨huntouched, htwin⟩ := Bool.and_eq_true_iff.mp hboth
  have huntouched := of_decide_eq_true huntouched
  obtain ⟨q, hq, hcopy⟩ := List.any_eq_true.mp htwin
  have hexpires : expires pruneHorizon (fun _ => day 30) r = true :=
    expires_of_idle huntouched.2.1 huntouched.1 huntouched.idle
  obtain ⟨hexpired, hedge⟩ := expired_of_idle huntouched.2.1 huntouched.idle
  exact ⟨db, r, ⟨0, steps, hrun⟩, hr, huntouched.1, hexpired, hedge,
    pruneExpiredBy_cases.resolve_left fun hok => pruneExpiredBy_ok_iff.mp hok r hr hexpires
      ⟨q, hq, of_decide_eq_true hcopy⟩⟩

end Agmem.Store
