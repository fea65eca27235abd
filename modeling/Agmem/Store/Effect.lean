import Agmem.Store.Write
import Mathlib.Logic.Relation

/-! What the write half does to the memory table, said once. Closing rows in favour of
another is a map over the table; it succeeds exactly when every row named is open,
none is named twice, and none would land on the closing instant of an earlier copy
of its own claim. A block of the batch either creates a row and closes what it
names, or closes the same rows, less one, in favour of the row it found. -/

namespace Agmem.Store

open Core Relational

variable {db db' : Db}

/-! ### Closing -/

/-- What closing the open rows of `T` in favour of `new` makes of a row. -/
def closing (T : List MemoryId) (new : MemoryId) (boundary : Timestamp) (r : MemoryRecord) :
    MemoryRecord :=
  if r.isLive = true ∧ r.id ∈ T then supersededBy new boundary r else r

section Closing

variable {T : List MemoryId} {new : MemoryId} {boundary : Timestamp} {r : MemoryRecord}

@[simp] theorem closing_id : (closing T new boundary r).id = r.id := by
  unfold closing; split_ifs <;> rfl

@[simp] theorem closing_space : (closing T new boundary r).space = r.space := by
  unfold closing; split_ifs <;> rfl

@[simp] theorem closing_contentHash : (closing T new boundary r).contentHash = r.contentHash := by
  unfold closing; split_ifs <;> rfl

@[simp] theorem closing_supersedes : (closing T new boundary r).supersedes = r.supersedes := by
  unfold closing; split_ifs <;> rfl

@[simp] theorem closing_validFrom : (closing T new boundary r).validFrom = r.validFrom := by
  unfold closing; split_ifs <;> rfl

theorem closing_of_mem (hl : r.isLive = true) (hT : r.id ∈ T) :
    closing T new boundary r = supersededBy new boundary r := if_pos ⟨hl, hT⟩

theorem closing_of_notMem (hT : r.id ∉ T) : closing T new boundary r = r :=
  if_neg fun h => hT h.2

theorem closing_of_closed (hl : r.isLive = false) : closing T new boundary r = r :=
  if_neg fun h => by simp [hl] at h

theorem closing_isLive :
    (closing T new boundary r).isLive = true ↔ r.isLive = true ∧ r.id ∉ T := by
  unfold closing
  split_ifs with h
  · simp [supersededBy, h.2]
  · exact ⟨fun hl => ⟨hl, fun hT => h ⟨hl, hT⟩⟩, fun hl => hl.1⟩

end Closing

/-- Every id names an open row of the table. -/
def Open (memory : Table MemoryRecord) (ids : List MemoryId) : Prop :=
  ∀ id ∈ ids, ∃ r ∈ memory, r.id = id ∧ r.isLive = true

/-- An earlier copy of the row's claim was closed at that very instant. -/
def Twin (memory : Table MemoryRecord) (r : MemoryRecord) (boundary : Timestamp) : Prop :=
  ∃ q ∈ memory, q.space = r.space ∧ q.contentHash = r.contentHash ∧ q.invalidAt = some boundary

theorem dedupKey_live {r : MemoryRecord} (h : r.isLive = true) : dedupKey r = .live := by
  rw [dedupKey, MemoryRecord.isLive_iff.mp h]

theorem dedupKey_eq_closed {r : MemoryRecord} {t : Timestamp} :
    dedupKey r = .closed t ↔ r.invalidAt = some t := by
  unfold dedupKey; cases r.invalidAt <;> simp

/-- At most one row of a space holds a claim and is open. -/
theorem live_unique {r q : MemoryRecord} (hr : r ∈ db.memory) (hq : q ∈ db.memory)
    (hrl : r.isLive = true) (hql : q.isLive = true) (hs : r.space = q.space)
    (hh : r.contentHash = q.contentHash) : r = q := by
  refine Table.eq_of_index hr hq ?_
  simp only [index_memory, hs, hh, dedupKey_live hrl, dedupKey_live hql]

/-- A rewrite that closes the rows it is let at, each at its own instant. -/
structure Closes (p : MemoryRecord → Bool) (f : MemoryRecord → MemoryRecord)
    (at_ : MemoryRecord → Timestamp) : Prop where
  guard : ∀ r, p r = true → r.isLive = true
  id : ∀ r, (f r).id = r.id
  space : ∀ r, (f r).space = r.space
  contentHash : ∀ r, (f r).contentHash = r.contentHash
  invalidAt : ∀ r, (f r).invalidAt = some (at_ r)

section Closes

variable {p : MemoryRecord → Bool} {f : MemoryRecord → MemoryRecord}
  {at_ : MemoryRecord → Timestamp} (hc : Closes p f at_)
include hc

theorem Closes.oneShot : Table.OneShot p f where
  key := hc.id
  once r _ := by
    by_contra h
    have := MemoryRecord.isLive_iff.mp (hc.guard _ ((Bool.not_eq_false _).mp h))
    simp [hc.invalidAt r] at this

theorem Closes.isSome (ids : List MemoryId) :
    (db.memory.update? p f ids).isSome ↔
      ∀ r ∈ db.memory, r.id ∈ ids → p r = true → ¬ Twin db.memory r (at_ r) := by
  have hkey (r : MemoryRecord) : dedupKey (f r) = .closed (at_ r) :=
    dedupKey_eq_closed.mpr (hc.invalidAt r)
  rw [hc.oneShot.isSome ids db.memory]
  · refine forall₂_congr fun r _ => imp_congr_right fun _ => imp_congr_right fun hp => ?_
    simp only [index_memory, hc.space, hc.contentHash, hkey, ne_eq, Prod.mk.injEq, Twin]
    constructor
    · rintro h ⟨q, hq, hs, hh, hat⟩
      refine h q hq ?_ ⟨hs.symm, hh.symm, (dedupKey_eq_closed.mpr hat).symm⟩
      by_contra hpq
      have := MemoryRecord.isLive_iff.mp (hc.guard q ((Bool.not_eq_false _).mp hpq))
      simp [hat] at this
    · rintro h q hq - ⟨hs, hh, hk⟩
      exact h ⟨q, hq, hs.symm, hh.symm, dedupKey_eq_closed.mp hk.symm⟩
  · intro r _ q _ _ hpq he
    simp only [index_memory, Prod.mk.injEq, hkey, dedupKey_live (hc.guard q hpq)] at he
    cases he.2.2
  · intro r hr q hq hpr hpq he
    simp only [index_memory, Prod.mk.injEq, hc.space, hc.contentHash] at he
    exact live_unique hr hq (hc.guard r hpr) (hc.guard q hpq) he.1 he.2.1

end Closes

theorem closes_supersededBy (new : MemoryId) (boundary : Timestamp) :
    Closes MemoryRecord.isLive (supersededBy new boundary) (fun _ => boundary) where
  guard _ h := h
  id _ := rfl
  space _ := rfl
  contentHash _ := rfl
  invalidAt _ := rfl

theorem closes_closedAs {p : MemoryRecord → Bool} (hp : ∀ r, p r = true → r.isLive = true)
    (reason : InvalidReason) (now : MemoryId → Timestamp) :
    Closes p (fun r => closedAs reason (now r.id) r) (fun r => now r.id) where
  guard := hp
  id _ := rfl
  space _ := rfl
  contentHash _ := rfl
  invalidAt _ := rfl

/-- No open row of `T` would land on the closing instant of an earlier copy. -/
def Untwinned (memory : Table MemoryRecord) (T : List MemoryId) (boundary : Timestamp) : Prop :=
  ∀ r ∈ memory, r.id ∈ T → r.isLive = true → ¬ Twin memory r boundary

section CloseTargets

variable {named old : List MemoryId} {new : MemoryId} {boundary : Timestamp}

theorem closeTargets_ok (h : closeTargets db named old new boundary = .ok db') :
    old.Nodup ∧ Open db.memory old ∧ Untwinned db.memory old boundary ∧ ∃ t : Table MemoryRecord,
      t.rows = db.memory.rows.map (closing old new boundary) ∧ db' = { db with memory := t } := by
  have hc := closes_supersededBy new boundary
  unfold closeTargets at h
  split at h
  · cases h
  · next t sup hu =>
    split_ifs at h with hlen
    obtain ⟨hnd, hopen⟩ := ((hc.oneShot.length _ _ _ _ hu).2).mp hlen
    refine ⟨hnd, hopen, (hc.isSome old).mp (by simp [hu]), t, hc.oneShot.rows _ _ _ _ hu, ?_⟩
    exact (Except.ok.inj h).symm

/-- When the closing of targets goes through. -/
theorem closeTargets_isOk_iff : (∃ db', closeTargets db named old new boundary = .ok db') ↔
    old.Nodup ∧ Open db.memory old ∧ Untwinned db.memory old boundary := by
  constructor
  · rintro ⟨db', h⟩
    obtain ⟨hnd, hopen, htw, -⟩ := closeTargets_ok h
    exact ⟨hnd, hopen, htw⟩
  · rintro ⟨hnd, hopen, htw⟩
    have hc := closes_supersededBy new boundary
    obtain ⟨⟨t, sup⟩, hu⟩ := Option.isSome_iff_exists.mp ((hc.isSome old).mpr htw)
    refine ⟨{ db with memory := t }, ?_⟩
    unfold closeTargets
    simp only [hu]
    exact if_pos (((hc.oneShot.length _ _ _ _ hu).2).mpr ⟨hnd, hopen⟩)

/-- The closing of targets is refused by the index exactly when one of them has a twin. -/
theorem closeTargets_error_iff {index : Index} :
    closeTargets db named old new boundary = .error (.indexExists index) ↔
      index = .memHashLive ∧ ¬ Untwinned db.memory old boundary := by
  have hc := closes_supersededBy new boundary
  have hiff : (db.memory.update? MemoryRecord.isLive (supersededBy new boundary) old).isSome ↔ _ :=
    hc.isSome old
  unfold closeTargets
  cases hu : db.memory.update? MemoryRecord.isLive (supersededBy new boundary) old with
  | none =>
    simp only [hu, Option.isSome_none, Bool.false_eq_true, false_iff] at hiff
    simp only [Except.error.injEq, EngineError.indexExists.injEq]
    exact ⟨fun h => ⟨h.symm, hiff⟩, fun h => h.1.symm⟩
  | some u =>
    simp only [hu, Option.isSome_some, true_iff] at hiff
    have hunt : Untwinned db.memory old boundary := hiff
    dsimp only
    split_ifs <;> simp [hunt]

end CloseTargets

/-! ### One block of the batch -/

/-- What one block does when it goes through. -/
inductive Wrote (space : SpaceName) (m : MemoryBinds) : Db → Written MemoryId → Db → Prop
  | created {db : Db} (source : Source) (now : Timestamp) {t : Table MemoryRecord}
      (fits : fits db.dimension m.row.embedding = true)
      (holder : ∀ q ∈ db.memory, q.space = space → q.contentHash = m.hash → q.isLive = false)
      (nodup : m.old.Nodup) (targets : Open db.memory m.old)
      (untwinned : Untwinned db.memory m.old m.row.validFrom)
      (rows : t.rows = db.memory.rows.map (closing m.old ⟨db.minted⟩ m.row.validFrom) ++
        [m.row.record ⟨db.minted⟩ source now]) :
      Wrote space m db (.created ⟨db.minted⟩) { db with memory := t, minted := db.minted + 1 }
  | duplicate {db : Db} {dup : MemoryRecord} {t : Table MemoryRecord} (mem : dup ∈ db.memory)
      (inSpace : dup.space = space) (hash : dup.contentHash = m.hash) (live : dup.isLive = true)
      (nodup : (complement m.old [dup.id]).Nodup)
      (targets : Open db.memory (complement m.old [dup.id]))
      (untwinned : Untwinned db.memory (complement m.old [dup.id]) m.row.validFrom)
      (rows : t.rows = db.memory.rows.map
        (closing (complement m.old [dup.id]) dup.id m.row.validFrom)) :
      Wrote space m db (.duplicate dup.id) { db with memory := t }

theorem liveHolder_eq_some {space : SpaceName} {hash : Text} {id : MemoryId} :
    liveHolder db space hash = some id → ∃ r ∈ db.memory, r.id = id ∧ r.space = space ∧
      r.contentHash = hash ∧ r.isLive = true := by
  unfold liveHolder
  intro h
  obtain ⟨r, hr, rfl⟩ := Option.map_eq_some_iff.mp h
  have hp := List.find?_some hr
  simp only [Bool.and_eq_true, decide_eq_true_eq] at hp
  exact ⟨r, List.mem_of_find?_eq_some hr, rfl, hp.1.1, hp.1.2, hp.2⟩

theorem liveHolder_eq_none {space : SpaceName} {hash : Text} :
    liveHolder db space hash = none ↔
      ∀ q ∈ db.memory, q.space = space → q.contentHash = hash → q.isLive = false := by
  unfold liveHolder
  rw [Option.map_eq_none_iff, List.find?_eq_none]
  refine forall₂_congr fun q _ => ?_
  simp only [Bool.and_eq_true, decide_eq_true_eq, not_and, and_imp, Bool.not_eq_true]

theorem mem_complement {ids without : List MemoryId} {id : MemoryId} :
    id ∈ complement ids without ↔ id ∈ ids ∧ id ∉ without := by
  simp [complement]

theorem createMemory_ok {row : MemoryRow} {source : Source} {now : Timestamp} {id : MemoryId}
    (h : createMemory db row source now = .ok (db', id)) :
    fits db.dimension row.embedding = true ∧ id = ⟨db.minted⟩ ∧ ∃ t : Table MemoryRecord,
      t.rows = db.memory.rows ++ [row.record ⟨db.minted⟩ source now] ∧
      db' = { db with memory := t, minted := db.minted + 1 } := by
  unfold createMemory at h
  split_ifs at h with hf
  split at h
  · next t ht =>
    simp only [Except.ok.injEq, Prod.mk.injEq] at h
    exact ⟨hf, h.2.symm, t, Table.insert?_eq_some.mp ht, h.1.symm⟩
  · cases h

theorem createMemory_isOk (hmem : ∀ r ∈ db.memory, r.id.ulid < db.minted) (row : MemoryRow)
    (source : Source) (now : Timestamp) (hfits : fits db.dimension row.embedding = true)
    (hnone : ∀ q ∈ db.memory, q.space = row.space → q.contentHash = row.contentHash →
      q.isLive = false) : ∃ db' id, createMemory db row source now = .ok (db', id) := by
  have hins : (db.memory.insert? (row.record ⟨db.minted⟩ source now)).isSome := by
    rw [Table.insert?_isSome]
    intro q hq
    refine ⟨fun h => ?_, fun h => ?_⟩
    · have := hmem q hq
      rw [key_memory, key_memory] at h
      simp [h, MemoryRow.record] at this
    · simp only [index_memory, Prod.mk.injEq, MemoryRow.record] at h
      have := dedupKey_live (r := row.record ⟨db.minted⟩ source now) (by simp [MemoryRow.record])
      have hql := hnone q hq h.1 h.2.1
      simp only [dedupKey] at h
      cases hq' : q.invalidAt with
      | none => simp [MemoryRecord.isLive, hq'] at hql
      | some t => simp [hq'] at h
  obtain ⟨t, ht⟩ := Option.isSome_iff_exists.mp hins
  exact ⟨_, _, by unfold createMemory; rw [if_pos hfits, ht]⟩

/-- Each id names a row of the space. -/
def InSpace (memory : Table MemoryRecord) (space : SpaceName) (ids : List MemoryId) : Prop :=
  ∀ id ∈ ids, ∃ r ∈ memory, r.id = id ∧ r.space = space

/-- What a query binds for one memory belongs together. -/
structure MemoryBinds.Coherent (space : SpaceName) (m : MemoryBinds) : Prop where
  space : m.row.space = space
  hash : m.row.contentHash = m.hash
  supersedes : m.row.supersedes = m.old

section Block

variable {space : SpaceName} {episode : Option EpisodeId} {m : MemoryBinds} {now : Timestamp}
  {w : Written MemoryId}

/-- A row just appended is none of the targets, so they are open, and free of twins, after the
insert exactly when they were before. -/
theorem open_append {t u : Table MemoryRecord} {row : MemoryRecord} {old : List MemoryId}
    (hu : u.rows = t.rows ++ [row]) (hrow : row.id ∉ old) : Open u old ↔ Open t old := by
  refine forall₂_congr fun id hid => ?_
  simp only [Table.mem_iff, hu, List.mem_append, List.mem_singleton]
  constructor
  · rintro ⟨r, hr | rfl, he, hl⟩
    · exact ⟨r, hr, he, hl⟩
    · exact absurd (he ▸ hid) hrow
  · rintro ⟨r, hr, he, hl⟩
    exact ⟨r, .inl hr, he, hl⟩

theorem untwinned_append {t u : Table MemoryRecord} {row : MemoryRecord} {old : List MemoryId}
    {boundary : Timestamp} (hu : u.rows = t.rows ++ [row]) (hrow : row.id ∉ old)
    (hlive : row.invalidAt = none) : Untwinned u old boundary ↔ Untwinned t old boundary := by
  have htwin (r : MemoryRecord) : Twin u r boundary ↔ Twin t r boundary := by
    simp only [Twin, Table.mem_iff, hu, List.mem_append, List.mem_singleton]
    constructor
    · rintro ⟨q, hq | rfl, hs, hh, hat⟩
      · exact ⟨q, hq, hs, hh, hat⟩
      · rw [hlive] at hat; cases hat
    · rintro ⟨q, hq, h⟩
      exact ⟨q, .inl hq, h⟩
  simp only [Untwinned, htwin, Table.mem_iff, hu, List.mem_append, List.mem_singleton]
  constructor
  · exact fun h r hr => h r (.inl hr)
  · rintro h r (hr | rfl) hid
    · exact h r hr hid
    · exact absurd hid hrow

/-- A block that goes through did what `Wrote` says. -/
theorem writeMemory_ok (hold : ∀ id ∈ m.old, id.ulid < db.minted)
    (h : writeMemory db space episode m now = .ok (db', w)) : Wrote space m db w db' := by
  unfold writeMemory at h
  split at h
  · next dup hdup =>
    obtain ⟨r, hr, rfl, hs, hh, hl⟩ := liveHolder_eq_some hdup
    split at h
    · cases h
    · next db₁ hclose =>
      simp only [Except.ok.injEq, Prod.mk.injEq] at h
      obtain ⟨hnd, hopen, htw, t, ht, rfl⟩ := closeTargets_ok hclose
      obtain ⟨rfl, rfl⟩ := h
      exact .duplicate hr hs hh hl hnd hopen htw ht
  · next hnone =>
    split at h
    · cases h
    · next db₁ new hcreate =>
      split at h
      · cases h
      · next db₂ hclose =>
        simp only [Except.ok.injEq, Prod.mk.injEq] at h
        obtain ⟨hf, rfl, t, ht, rfl⟩ := createMemory_ok hcreate
        obtain ⟨hnd, hopen, htw, t', ht', rfl⟩ := closeTargets_ok hclose
        obtain ⟨rfl, rfl⟩ := h
        have hnew : (⟨db.minted⟩ : MemoryId) ∉ m.old := fun hid =>
          absurd (hold _ hid) (lt_irrefl _)
        refine .created (m.src.getD (episode.elim .agent .episode)) now hf
          (liveHolder_eq_none.mp hnone) hnd ((open_append ht hnew).mp hopen)
          ((untwinned_append ht hnew rfl).mp htw) ?_
        rw [ht', ht, List.map_append, List.map_singleton, closing_of_notMem]
        exact hnew

end Block

end Agmem.Store
