import Agmem.Store.Landing

/-! History refused as a duplicate. The unique index tells closed copies of a claim apart
by the instant they were closed at, and that instant is the start of the row that
closes them, which the caller may choose. So an open row cannot be closed at an instant
at which an earlier copy of its claim was closed already, and a batch that comes to
this on each of its attempts is refused. -/

namespace Agmem.Store.Collision

open Core Relational Claims Transition Landing

variable {db : Db} {space : SpaceName} [Hashing]

/-- A standalone supersede comes to close an open row of which a copy was closed at the start of
its successor. -/
def SupersedeCollides (db : Db) (space : SpaceName) (old new : MemoryId) : Prop :=
  ∃ o ∈ db.memory, ∃ n ∈ db.memory, o.id = old ∧ n.id = new ∧ o.space = space ∧ n.space = space ∧
    o.isLive = true ∧ Twin db.memory o n.validFrom

omit [Hashing] in
/-- Closing an open row is refused if a copy of it was closed at that instant. -/
theorem closed_isSome {o : MemoryRecord} (ho : o ∈ db.memory) (hl : o.isLive = true)
    (new : MemoryId) (boundary : Timestamp) :
    (db.memory.update? MemoryRecord.isLive (supersededBy new boundary) [o.id]).isSome ↔
      ¬ Twin db.memory o boundary := by
  rw [(closes_supersededBy new boundary).isSome [o.id]]
  constructor
  · exact fun h => h o ho (List.mem_singleton_self _) hl
  · intro h r hr hid _
    rwa [Table.eq_of_key hr ho (List.mem_singleton.mp hid)]

omit [Hashing] in
/-- The check refuses no call with the error of an index. -/
theorem ensureMemoriesExist_error {ids : List MemoryId} {e : StoreError} {index : Index}
    (h : ensureMemoriesExist db space ids = .error e) : e ≠ .db (.indexExists index) := by
  unfold ensureMemoriesExist at h
  split at h
  · cases h
    exact fun h => nomatch h
  · cases h

omit [Hashing] in
/-- Ids name rows, so a supersede of two stored rows is about these. -/
theorem supersedeCollides_iff {o n : MemoryRecord} (ho : o ∈ db.memory) (hn : n ∈ db.memory)
    (hos : o.space = space) (hns : n.space = space) :
    SupersedeCollides db space o.id n.id ↔ o.isLive = true ∧ Twin db.memory o n.validFrom := by
  constructor
  · rintro ⟨o', ho', n', hn', hko, hkn, -, -, hl, htw⟩
    rw [Table.eq_of_key ho' ho hko, Table.eq_of_key hn' hn hkn] at *
    exact ⟨hl, htw⟩
  · exact fun h => ⟨o, ho, n, hn, rfl, rfl, hos, hns, h.1, h.2⟩

omit [Hashing] in
theorem inSpace_of_supersedeCollides {old new : MemoryId}
    (h : SupersedeCollides db space old new) : InSpace db.memory space [old, new] := by
  obtain ⟨o, ho, n, hn, rfl, rfl, hos, hns, -⟩ := h
  simp only [InSpace, List.forall_mem_cons]
  exact ⟨⟨o, ho, rfl, hos⟩, ⟨n, hn, rfl, hns⟩, by simp⟩

omit [Hashing] in
theorem supersede_index_iff {old new : MemoryId} {index : Index} :
    supersede db space old new = .error (.db (.indexExists index)) ↔
      index = .memHashLive ∧ SupersedeCollides db space old new := by
  unfold supersede
  cases hex : ensureMemoriesExist db space [old, new] with
  | error e =>
    refine iff_of_false (fun h => ensureMemoriesExist_error hex (Except.error.inj h)) ?_
    rintro ⟨-, hcollides⟩
    rw [ensureMemoriesExist_ok.mpr (inSpace_of_supersedeCollides hcollides)] at hex
    cases hex
  | ok u =>
    have hin := ensureMemoriesExist_ok.mp hex
    obtain ⟨o, ho, rfl, hos⟩ := hin old (by simp)
    obtain ⟨n, hn, rfl, hns⟩ := hin new (by simp)
    rw [supersedeCollides_iff ho hn hos hns]
    dsimp only
    cases hl : o.isLive with
    | false =>
      obtain ⟨c, hc, -⟩ := mem_closedMemories.mpr
        (⟨o, ho, rfl, hos, List.mem_singleton_self _, hl⟩ : ∃ r ∈ db.memory, r.id = o.id ∧
          r.space = space ∧ r.id ∈ [o.id] ∧ r.isLive = false)
      cases hlast : (closedMemories db space [o.id]).getLast? with
      | none =>
        rw [List.getLast?_eq_none_iff] at hlast
        simp [hlast] at hc
      | some closed => simp
    | true =>
      have hnil : closedMemories db space [o.id] = [] := by
        refine closedMemories_eq_nil.mpr fun r hr _ hid => ?_
        rwa [Table.eq_of_key hr ho (List.mem_singleton.mp hid)]
      have hget : db.memory.get? n.id = some n := Table.get?_eq_some.mpr ⟨hn, rfl⟩
      have hsome := closed_isSome ho hl n.id n.validFrom
      rw [hnil]
      unfold supersedeTransaction
      rw [hget]
      dsimp only [List.getLast?_nil]
      cases hu : db.memory.update? MemoryRecord.isLive (supersededBy n.id n.validFrom) [o.id] with
      | none =>
        have htw : Twin db.memory o n.validFrom := by simpa [hu] using hsome
        simp [htw, eq_comm]
      | some u =>
        have htw : ¬ Twin db.memory o n.validFrom := by simpa [hu] using hsome
        dsimp only
        split_ifs <;> simp [htw]

/-- Closing an open row runs into the unique index exactly when an earlier copy of the row's claim
was closed at that very instant, in a batch on each of its three attempts. -/
theorem never_duplicate_key_iff (hdb : db.Reachable) :
    (∀ space old new, (∀ index, supersede db space old new ≠ .error (.db (.indexExists index))) ↔
      ¬ SupersedeCollides db space old new) ∧
    ∀ (batch : Batch) (clock : ℕ → Clock), InSpace db.memory batch.space batch.targets →
      ((∀ index, insertBatch db batch clock ≠ .error (.db (.indexExists index))) ↔
        ∃ k < 3, ¬ Collides db batch (clock k)) := by
  refine ⟨fun space old new => ?_, fun batch clock hin => ?_⟩
  · simp only [ne_eq, supersede_index_iff, not_and]
    exact ⟨fun h => h _ rfl, fun h _ _ => h⟩
  · have hiff (index : Index) : insertBatch db batch clock = .error (.db (.indexExists index)) ↔
        index = .memHashLive ∧ ∀ j, 0 ≤ j → j ≤ 0 + 2 → Collides db batch (clock j) :=
      insertBatchFrom_index_iff hdb.wellFormed hin
    simp only [ne_eq, hiff, not_and]
    constructor
    · intro h
      by_contra hno
      refine h _ rfl fun j _ hj => ?_
      by_contra hcol
      exact hno ⟨j, by omega, hcol⟩
    · rintro ⟨k, hk, hcol⟩ _ _ hall
      exact hcol (hall k (Nat.zero_le k) (by omega))

omit [Hashing] in
/-- A claim is said, and asked to make way for another. -/
theorem never_duplicate_key_iff_correction : ∃ db batch clock, @Db.Reachable plain db ∧
    InSpace db.memory batch.space batch.targets ∧ batch.targets ≠ [] ∧
    (∀ space old new, (∀ index, supersede db space old new ≠ .error (.db (.indexExists index))) ↔
      ¬ SupersedeCollides db space old new) ∧
    ((∀ index, @insertBatch plain db batch clock ≠ .error (.db (.indexExists index))) ↔
      ∃ k < 3, ¬ @Collides plain db batch (clock k)) := by
  obtain ⟨steps, db, hrun, -, hp⟩ := exists_run_of_exec (@step plain) (Db.empty 0)
    [remember 0 [claim 'a' [] none]] (fun u => u.2.memory.rows.any fun r =>
      decide (r.id = ⟨0⟩ ∧ r.space = agmem)) (by decide)
  simp only [List.any_eq_true, decide_eq_true_eq] at hp
  have hreach : @Db.Reachable plain db := ⟨0, steps, hrun⟩
  have hin : InSpace db.memory agmem (batchOf [claim 'b' [0] (some 5)]).targets := by
    intro id hid
    rw [show (batchOf [claim 'b' [0] (some 5)]).targets = [⟨0⟩] from rfl,
      List.mem_singleton] at hid
    exact hid ▸ hp
  obtain ⟨hsupersede, hbatch⟩ := @never_duplicate_key_iff db plain hreach
  exact ⟨db, batchOf [claim 'b' [0] (some 5)], ticking 9, hreach, hin, by decide, hsupersede,
    hbatch _ (ticking 9) hin⟩

omit [Hashing] in
/-- A claim that was closed at 10 is said again, and is to be closed at 10 again. -/
theorem closed_twice_at_one_instant : ∃ db batch clock, @Db.Reachable plain db ∧
    (∀ id ∈ batch.targets, ∃ r ∈ db.memory, r.id = id ∧ r.space = batch.space ∧ r.isLive = true) ∧
    @insertBatch plain db batch clock = .error (.db (.indexExists .memHashLive)) := by
  obtain ⟨steps, db, hrun, -, hp⟩ := exists_run_of_exec (@step plain) (Db.empty 0)
    [remember 0 [claim 'a' [] none], remember 9 [claim 'b' [0] (some 10)],
      remember 20 [claim 'a' [] none]]
    (fun u => decide ((∀ id ∈ (batchOf [claim 'c' [2] (some 10)]).targets,
        ∃ r ∈ u.2.memory.rows, r.id = id ∧ r.space = agmem ∧ r.isLive = true) ∧
      failsWith (.db (.indexExists .memHashLive))
        (@insertBatch plain u.2 (batchOf [claim 'c' [2] (some 10)]) (ticking 30)) = true))
    (by decide)
  obtain ⟨htargets, hfail⟩ := of_decide_eq_true hp
  exact ⟨db, _, _, ⟨0, steps, hrun⟩, htargets, eq_error_of_failsWith hfail⟩

end Agmem.Store.Collision
