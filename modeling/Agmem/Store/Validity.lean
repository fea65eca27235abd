import Agmem.Store.Lineage
import Agmem.Time.Tiling

/-! When the wordings of a claim were true. A row that names another in `supersedes`
is the one that closed it, and closed it at its own `valid_from`; so along a line of
supersessions each validity interval ends where the next one starts, wherever that
is. The intervals cover every instant from the earliest start on, and cover it once
exactly when no link of the line starts later than both an earlier and a later one. -/

namespace Agmem.Store.Validity

open Core Relational Scoring Time

variable {db : Db}

/-! ### Lines -/

/-- Stored rows, each superseding exactly the one before it, the last of them open. -/
structure Line (db : Db) (rows : List MemoryRecord) : Prop where
  stored : ∀ r ∈ rows, r ∈ db.memory
  links : rows.IsChain fun x y => y.supersedes = [x.id]
  last : ∀ r, rows.getLast? = some r → r.isLive = true

theorem Line.chained {rows : List MemoryRecord} (h : Line db rows) (hw : db.WellFormed) :
    Chained db rows :=
  ⟨h.stored, h.links, fun r hr => hw.live r (h.stored r (List.mem_of_getLast? hr)) (h.last r hr)⟩

theorem Line.live_iff {rows : List MemoryRecord} (h : Line db rows) (hw : db.WellFormed)
    (hl : LinkedBack db) {i : ℕ} {x : MemoryRecord} (hx : rows[i]? = some x) :
    x.isLive = true ↔ i + 1 = rows.length := by
  obtain ⟨hi, rfl⟩ := List.getElem?_eq_some_iff.mp hx
  constructor
  · intro hlive
    by_contra hne
    have hy : rows[i + 1]? = some rows[i + 1] := List.getElem?_eq_getElem (by omega)
    rw [MemoryRecord.isLive, ((h.chained hw).next hl hx hy).2] at hlive
    cases hlive
  · intro he
    exact h.last _ (by rw [List.getLast?_eq_getElem?, ← he]; exact hx)

theorem Line.covers_iff {rows : List MemoryRecord} (h : Line db rows) (hw : db.WellFormed)
    (hl : LinkedBack db) {i : ℕ} {x : MemoryRecord} (hx : rows[i]? = some x) (t : Timestamp) :
    Covers (rows.map MemoryRecord.validFrom) i t ↔ isValidAt x t = true := by
  have hv : (rows.map MemoryRecord.validFrom)[i]? = some x.validFrom := by simp [hx]
  simp only [Covers, hv, Option.some.injEq, exists_eq_left', isValidAt, Bool.and_eq_true,
    decide_eq_true_eq, List.getElem?_map, Option.map_eq_some_iff]
  refine and_congr_right fun _ => ?_
  cases hn : rows[i + 1]? with
  | none =>
    have hlen : i + 1 = rows.length := by
      obtain ⟨hi, -⟩ := List.getElem?_eq_some_iff.mp hx
      have := List.getElem?_eq_none_iff.mp hn
      omega
    rw [MemoryRecord.isLive_iff.mp ((h.live_iff hw hl hx).mpr hlen)]
    simp
  | some y => simp [((h.chained hw).next hl hx hn).2]

/-- From its earliest start on, a line has exactly one link valid at each instant precisely when
no link starts later than both an earlier and a later one. -/
theorem exactly_one_valid_iff [Hashing] (hdb : db.Reachable) {rows : List MemoryRecord}
    (h : Line db rows) :
    (∀ t, (∃ r ∈ rows, r.validFrom ≤ t) → ∃! r, r ∈ rows ∧ isValidAt r t = true) ↔
      ∀ (i j k : ℕ) (x y z : MemoryRecord), i < j → j < k → rows[i]? = some x →
        rows[j]? = some y → rows[k]? = some z → y.validFrom ≤ max x.validFrom z.validFrom := by
  have hw := hdb.wellFormed
  have hl := linkedBack_reachable hdb
  have hvalley : Valley (rows.map MemoryRecord.validFrom) ↔
      ∀ (i j k : ℕ) (x y z : MemoryRecord), i < j → j < k → rows[i]? = some x →
        rows[j]? = some y → rows[k]? = some z → y.validFrom ≤ max x.validFrom z.validFrom := by
    simp only [Valley, List.getElem?_map, Option.map_eq_some_iff]
    constructor
    · intro hv i j k x y z hij hjk hx hy hz
      exact hv i j k _ _ _ hij hjk ⟨x, hx, rfl⟩ ⟨y, hy, rfl⟩ ⟨z, hz, rfl⟩
    · rintro hv i j k _ _ _ hij hjk ⟨x, hx, rfl⟩ ⟨y, hy, rfl⟩ ⟨z, hz, rfl⟩
      exact hv i j k x y z hij hjk hx hy hz
  rw [← hvalley, ← tiles_iff_valley]
  refine forall_congr' fun t => imp_congr (by simp) ?_
  -- the positions of a line and its rows determine each other
  constructor
  · rintro ⟨r, ⟨hr, hv⟩, huniq⟩
    obtain ⟨i, hi⟩ := List.mem_iff_getElem?.mp hr
    refine ⟨i, (h.covers_iff hw hl hi t).mpr hv, fun k hk => ?_⟩
    obtain ⟨v, hkv, -⟩ := id hk
    obtain ⟨q, hq, -⟩ := Option.map_eq_some_iff.mp (List.getElem?_map .. ▸ hkv)
    have hqr := huniq q ⟨List.mem_of_getElem? hq, (h.covers_iff hw hl hq t).mp hk⟩
    subst hqr
    obtain ⟨hi', hi⟩ := List.getElem?_eq_some_iff.mp hi
    obtain ⟨hk', hk⟩ := List.getElem?_eq_some_iff.mp hq
    exact (List.Nodup.getElem_inj_iff ((h.chained hw).nodup hl)).mp (hk.trans hi.symm)
  · rintro ⟨i, hi, huniq⟩
    obtain ⟨v, hiv, -⟩ := id hi
    obtain ⟨r, hr, -⟩ := Option.map_eq_some_iff.mp (List.getElem?_map .. ▸ hiv)
    refine ⟨r, ⟨List.mem_of_getElem? hr, (h.covers_iff hw hl hr t).mp hi⟩, ?_⟩
    rintro q ⟨hq, hqv⟩
    obtain ⟨k, hk⟩ := List.mem_iff_getElem?.mp hq
    rw [huniq k ((h.covers_iff hw hl hk t).mpr hqv), hr] at hk
    exact (Option.some.inj hk).symm

/-- A table whose rows, in order, are a line. -/
theorem line_rows (links : db.memory.rows.IsChain fun x y => y.supersedes = [x.id])
    (last : db.memory.rows.getLast?.all MemoryRecord.isLive = true) : Line db db.memory.rows where
  stored _ hr := hr
  links := links
  last r hr := by rw [hr] at last; exact last

/-- A claim is replaced by one that starts before it. -/
theorem exactly_one_valid_iff_backdated : ∃ db rows, @Db.Reachable plain db ∧ Line db rows ∧
    rows.length = 2 ∧
    ((∀ t, (∃ r ∈ rows, r.validFrom ≤ t) → ∃! r, r ∈ rows ∧ isValidAt r t = true) ↔
      ∀ (i j k : ℕ) (x y z : MemoryRecord), i < j → j < k → rows[i]? = some x →
        rows[j]? = some y → rows[k]? = some z → y.validFrom ≤ max x.validFrom z.validFrom) := by
  obtain ⟨steps, db, hrun, -, hp⟩ := Transition.exists_run_of_exec (@step plain)
    (Db.empty 0)
    [remember 0 [claim 'a' [] (some 20)], remember 9 [claim 'b' [0] (some 10)]]
    (fun u => decide (u.2.memory.rows.length = 2 ∧
      u.2.memory.rows.IsChain (fun (x y : MemoryRecord) => y.supersedes = [x.id]) ∧
      u.2.memory.rows.getLast?.all MemoryRecord.isLive = true)) (by decide)
  obtain ⟨hlen, hlinks, hlast⟩ := of_decide_eq_true hp
  have hreach : @Db.Reachable plain db := ⟨0, steps, hrun⟩
  have hline := line_rows hlinks hlast
  exact ⟨db, _, hreach, hline, hlen, @exactly_one_valid_iff db plain hreach _ hline⟩

/-- A claim valid from 0 is replaced by one valid from 20, and that by one valid from 10: at 15 the
first and the last are both valid. -/
theorem backdated_overlap : ∃ db rows, @Db.Reachable plain db ∧ Line db rows ∧
    ∃ t, (∃ r ∈ rows, r.validFrom ≤ t) ∧ ¬ ∃! r, r ∈ rows ∧ isValidAt r t = true := by
  obtain ⟨steps, db, hrun, -, hp⟩ := Transition.exists_run_of_exec (@step plain)
    (Db.empty 0) [remember 0 [claim 'a' [] (some 0)],
      remember 9 [claim 'b' [0] (some 20)], remember 18 [claim 'c' [1] (some 10)]]
    (fun u => decide (u.2.memory.rows.IsChain (fun (x y : MemoryRecord) => y.supersedes = [x.id]) ∧
      u.2.memory.rows.getLast?.all MemoryRecord.isLive = true ∧
      ∃ x ∈ u.2.memory.rows, isValidAt x 15 = true ∧
        ∃ y ∈ u.2.memory.rows, isValidAt y 15 = true ∧ x.id ≠ y.id)) (by decide)
  obtain ⟨hlinks, hlast, x, hx, hxv, y, hy, hyv, hne⟩ := of_decide_eq_true hp
  refine ⟨db, _, ⟨0, steps, hrun⟩, line_rows hlinks hlast, 15, ⟨x, hx, ?_⟩, fun h => ?_⟩
  · exact of_decide_eq_true (Bool.and_eq_true_iff.mp hxv).1
  · exact hne (congrArg MemoryRecord.id (h.unique ⟨hx, hxv⟩ ⟨hy, hyv⟩))

end Agmem.Store.Validity
