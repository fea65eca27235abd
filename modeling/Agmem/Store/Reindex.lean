import Mathlib.Data.List.Nodup
import Agmem.Store.Db

/-! Giving rows their vectors. A batch takes some of the rows that have none, embeds their texts,
writes the vectors back and counts what is left, while other writers may be at work on the store.
What it has written waits no more, so a later batch takes other rows. -/

namespace Agmem.Store.Reindex

open Core Relational

/-! ### Rows without a vector -/

/-- A row of one of the tables that carry vectors. -/
inductive RecordId where
  | memory (id : MemoryId)
  | episodeChunk (id : ChunkId)
deriving DecidableEq

/-- One row waiting for a vector. -/
structure Passage where
  id : RecordId
  text : Text
deriving DecidableEq

/-- `SELECT id, content AS text FROM memory WHERE embedding IS NONE` -/
def memoryPassages (db : Db) : List Passage :=
  (db.memory.rows.filter fun r => r.embedding.isNone).map fun r => ⟨.memory r.id, r.content⟩

/-- `SELECT id, text FROM episode_chunk WHERE embedding IS NONE` -/
def chunkPassages (db : Db) : List Passage :=
  (db.episodeChunk.rows.filter fun c => c.embedding.isNone).map fun c =>
    ⟨.episodeChunk c.id, c.text⟩

/-- How many rows across the store have no vector. -/
def pendingCount (db : Db) : ℕ := (memoryPassages db).length + (chunkPassages db).length

/-- The next rows to embed: both tables are asked, and the answer is cut. -/
def pending (db : Db) (limit : ℕ) : List Passage :=
  let rows := (memoryPassages db).take limit
  (if limit ≤ rows.length then rows else rows ++ (chunkPassages db).take limit).take limit

/-! ### Writing vectors -/

def withMemoryVector (db : Db) (id : MemoryId) (vector : Embedding) : Db :=
  { db with memory := db.memory.rewriteAt id (fun r => { r with embedding := some vector })
              (fun _ => rfl) fun _ => rfl }

def withChunkVector (db : Db) (id : ChunkId) (vector : Embedding) : Db :=
  { db with episodeChunk := db.episodeChunk.rewriteAt id
              (fun c => { c with embedding := some vector }) (fun _ => rfl) fun _ => rfl }

/-- `UPDATE $row.id SET embedding = $row.vector`: an id that names nothing changes nothing, and an
index takes vectors of its own width only. -/
def update (db : Db) (id : RecordId) (vector : Embedding) : Except EngineError Db :=
  match id with
  | .memory id =>
    if (db.memory.get? id).isSome && !fits db.dimension (some vector) then .error .vectorWidth
    else .ok (withMemoryVector db id vector)
  | .episodeChunk id =>
    if (db.episodeChunk.get? id).isSome && !fits db.dimension (some vector) then .error .vectorWidth
    else .ok (withChunkVector db id vector)

/-- `FOR $row IN $rows` -/
def updateAll (db : Db) : List (RecordId × Embedding) → Except EngineError Db
  | [] => .ok db
  | row :: rows =>
    match update db row.1 row.2 with
    | .error e => .error e
    | .ok db => updateAll db rows

/-- What stops a batch. -/
inductive BatchError where
  | db (error : EngineError)
  | embedding (message : Text)
  | vectorCount (want got : ℕ)

/-- Attach the vectors to the passages, positionally. -/
def writeVectors (db : Db) (passages : List Passage) (vectors : List Embedding) :
    Except BatchError Db :=
  if passages.length ≠ vectors.length then .error (.vectorCount passages.length vectors.length)
  else if passages.isEmpty then .ok db
  else
    match updateAll db ((passages.map Passage.id).zip vectors) with
    | .error e => .error (.db e)
    | .ok db => .ok db

/-! ### What a write leaves pending -/

variable {db db' : Db} {passages : List Passage} {vectors : List Embedding}

/-- All rows without a vector, in the order in which they are taken. -/
def waiting (db : Db) : List Passage := memoryPassages db ++ chunkPassages db

theorem pending_eq (db : Db) (limit : ℕ) : pending db limit = (waiting db).take limit := by
  unfold pending waiting
  dsimp only
  rw [List.take_append, List.length_take]
  split_ifs with hlimit
  · rw [List.take_take, min_self, Nat.sub_eq_zero_of_le (by omega), List.take_zero, List.append_nil]
  · rw [List.take_append, List.length_take, List.take_take, min_self, List.take_take,
      show min limit (memoryPassages db).length = (memoryPassages db).length by omega,
      min_eq_left (Nat.sub_le _ _)]

theorem pendingCount_eq (db : Db) : pendingCount db = (waiting db).length :=
  List.length_append.symm

theorem waiting_nodup (db : Db) : ((waiting db).map Passage.id).Nodup := by
  have hmemory : (memoryPassages db).map Passage.id =
      ((db.memory.rows.filter fun r => r.embedding.isNone).map Row.key).map .memory := by
    simp [memoryPassages]
  have hchunk : (chunkPassages db).map Passage.id =
      ((db.episodeChunk.rows.filter fun c => c.embedding.isNone).map Row.key).map
        .episodeChunk := by
    simp [chunkPassages, Row.key]
  rw [waiting, List.map_append, hmemory, hchunk, List.nodup_append]
  refine ⟨?_, ?_, ?_⟩
  · exact (db.memory.keys.sublist (List.filter_sublist.map _)).map fun _ _ h => by cases h; rfl
  · exact (db.episodeChunk.keys.sublist (List.filter_sublist.map _)).map fun _ _ h => by
      cases h; rfl
  · rintro _ hm _ hc rfl
    obtain ⟨m, -, rfl⟩ := List.mem_map.mp hm
    obtain ⟨c, -, hcm⟩ := List.mem_map.mp hc
    cases hcm

theorem memoryPassages_withMemoryVector (db : Db) (id : MemoryId) (vector : Embedding) :
    memoryPassages (withMemoryVector db id vector) =
      (memoryPassages db).filter fun p => decide (p.id ≠ .memory id) := by
  have hrows : (withMemoryVector db id vector).memory.rows.filter (fun r => r.embedding.isNone) =
      (db.memory.rows.filter fun r => r.embedding.isNone).filter fun r =>
        decide (Row.key r ≠ id) := by
    refine Table.filter_rewriteAt _ _ ?_ ?_ ?_ <;> exact fun _ => rfl
  rw [memoryPassages, hrows, memoryPassages, List.filter_map]
  refine congrArg (List.map _) (List.filter_congr fun r _ => ?_)
  simp [key_memory]

theorem chunkPassages_withChunkVector (db : Db) (id : ChunkId) (vector : Embedding) :
    chunkPassages (withChunkVector db id vector) =
      (chunkPassages db).filter fun p => decide (p.id ≠ .episodeChunk id) := by
  have hrows : (withChunkVector db id vector).episodeChunk.rows.filter
        (fun c => c.embedding.isNone) =
      (db.episodeChunk.rows.filter fun c => c.embedding.isNone).filter fun c =>
        decide (Row.key c ≠ id) := by
    refine Table.filter_rewriteAt _ _ ?_ ?_ ?_ <;> exact fun _ => rfl
  rw [chunkPassages, hrows, chunkPassages, List.filter_map]
  refine congrArg (List.map _) (List.filter_congr fun c _ => ?_)
  simp [Row.key]

/-- A row that was given a vector waits no more. -/
theorem waiting_update {id : RecordId} {vector : Embedding} (h : update db id vector = .ok db') :
    waiting db' = (waiting db).filter fun p => decide (p.id ≠ id) := by
  cases id with
  | memory id =>
    have hchunk : (chunkPassages db).filter (fun p => decide (p.id ≠ .memory id)) =
        chunkPassages db :=
      List.filter_eq_self.mpr fun p hp => by
        obtain ⟨c, -, rfl⟩ := List.mem_map.mp hp
        simp
    simp only [update] at h
    split_ifs at h
    cases h
    rw [waiting, memoryPassages_withMemoryVector, waiting, List.filter_append, hchunk]
    rfl
  | episodeChunk id =>
    have hmemory : (memoryPassages db).filter (fun p => decide (p.id ≠ .episodeChunk id)) =
        memoryPassages db :=
      List.filter_eq_self.mpr fun p hp => by
        obtain ⟨r, -, rfl⟩ := List.mem_map.mp hp
        simp
    simp only [update] at h
    split_ifs at h
    cases h
    rw [waiting, chunkPassages_withChunkVector, waiting, List.filter_append, hmemory]
    rfl

theorem waiting_updateAll {rows : List (RecordId × Embedding)} (h : updateAll db rows = .ok db') :
    waiting db' = (waiting db).filter fun p => decide (p.id ∉ rows.map Prod.fst) := by
  induction rows generalizing db with
  | nil =>
    cases h
    exact (List.filter_eq_self.mpr fun p _ => by simp).symm
  | cons row rows ih =>
    unfold updateAll at h
    split at h
    · cases h
    · next hupdate =>
      rw [ih h, waiting_update hupdate, List.filter_filter]
      refine List.filter_congr fun p _ => ?_
      simp only [List.map_cons, List.mem_cons, not_or, Bool.decide_and, Bool.and_comm]

/-- The passages that were written wait no more, and the others do. -/
theorem waiting_writeVectors (h : writeVectors db passages vectors = .ok db') :
    waiting db' = (waiting db).filter fun p => decide (p.id ∉ passages.map Passage.id) := by
  unfold writeVectors at h
  split_ifs at h with hlength hempty
  · cases h
    rw [List.isEmpty_iff.mp hempty]
    exact (List.filter_eq_self.mpr fun p _ => by simp).symm
  · split at h
    · cases h
    · next hupdates =>
      cases h
      rw [waiting_updateAll hupdates, List.map_fst_zip]
      rw [List.length_map]
      omega

theorem filter_rest {taken rest : List Passage} (h : ((taken ++ rest).map Passage.id).Nodup) :
    (taken ++ rest).filter (fun p => decide (p.id ∉ taken.map Passage.id)) = rest := by
  rw [List.map_append, List.nodup_append] at h
  have htaken : taken.filter (fun p => decide (p.id ∉ taken.map Passage.id)) = [] :=
    List.filter_eq_nil_iff.mpr fun p hp => by simpa using ⟨p, hp, rfl⟩
  have hrest : rest.filter (fun p => decide (p.id ∉ taken.map Passage.id)) = rest :=
    List.filter_eq_self.mpr fun p hp => decide_eq_true fun htaken =>
      h.2.2 _ htaken _ (List.mem_map_of_mem hp) rfl
  rw [List.filter_append, htaken, hrest, List.nil_append]

/-- What a batch has stored is not selected again. -/
theorem waiting_after_batch {limit : ℕ} (h : writeVectors db (pending db limit) vectors = .ok db') :
    waiting db' = (waiting db).drop limit := by
  have hrest := @filter_rest ((waiting db).take limit) ((waiting db).drop limit)
  rw [List.take_append_drop] at hrest
  rw [waiting_writeVectors h, pending_eq, hrest (waiting_nodup db)]

/-! ### A batch -/

inductive Request where
  | pending
  | write
  | count
deriving DecidableEq

/-- All that a batch depends on beside the store: what other writers do before its rows are read,
while they are embedded, and before the rows are counted; which requests the engine refuses; and
what the model answers. -/
structure Round where
  before : Db → Db
  during : Db → Db
  after : Db → Db
  refuses : Request → Option EngineError
  embedPassages : List Text → Except Text (List Embedding)

/-- Give the next pending rows their vectors; returns how many are still pending afterwards. -/
def embedBatch (round : Round) (db : Db) (limit : ℕ) : Db × Except BatchError ℕ :=
  let db := round.before db
  match round.refuses .pending with
  | some e => (db, .error (.db e))
  | none =>
    let batch := pending db limit
    if batch.isEmpty then (db, .ok 0)
    else
      match round.embedPassages (batch.map Passage.text) with
      | .error message => (db, .error (.embedding message))
      | .ok vectors =>
        let db := round.during db
        match round.refuses .write with
        | some e => (db, .error (.db e))
        | none =>
          match writeVectors db batch vectors with
          | .error e => (db, .error e)
          | .ok db =>
            let db := round.after db
            match round.refuses .count with
            | some e => (db, .error (.db e))
            | none => (db, .ok (pendingCount db))

/-- What a batch reports as left is what is pending then. -/
theorem embedBatch_left {round : Round} {limit left : ℕ} (hlimit : 0 < limit)
    (h : embedBatch round db limit = (db', .ok left)) : pendingCount db' = left := by
  unfold embedBatch at h
  dsimp only at h
  split at h
  · cases h
  · split_ifs at h with hempty
    · cases h
      have hwaiting : waiting (round.before db) = [] := by
        rw [pending_eq, List.isEmpty_iff, List.take_eq_nil_iff] at hempty
        exact hempty.resolve_left hlimit.ne'
      rw [pendingCount_eq, hwaiting, List.length_nil]
    · split at h
      · cases h
      · split at h
        · cases h
        · split at h
          · cases h
          · split at h
            · cases h
            · cases h
              rfl

/-! ### A batch that goes well -/

/-- Nobody else writes, the engine refuses nothing, and the model answers with vectors of the
width. -/
structure Round.Quiet (round : Round) (dim : ℕ) : Prop where
  before : round.before = id
  during : round.during = id
  after : round.after = id
  refuses : ∀ request, round.refuses request = none
  embeds : ∀ texts, ∃ vectors, round.embedPassages texts = .ok vectors ∧
    vectors.length = texts.length ∧ ∀ v ∈ vectors, v.length = dim

theorem update_isOk (id : RecordId) {vector : Embedding} (h : vector.length = db.dimension) :
    ∃ db', update db id vector = .ok db' ∧ db'.dimension = db.dimension := by
  have hfits : fits db.dimension (some vector) = true := by simp [fits, h]
  cases id with
  | memory id => exact ⟨withMemoryVector db id vector, by simp [update, hfits], rfl⟩
  | episodeChunk id => exact ⟨withChunkVector db id vector, by simp [update, hfits], rfl⟩

theorem updateAll_isOk {rows : List (RecordId × Embedding)}
    (h : ∀ row ∈ rows, row.2.length = db.dimension) :
    ∃ db', updateAll db rows = .ok db' ∧ db'.dimension = db.dimension := by
  induction rows generalizing db with
  | nil => exact ⟨db, rfl, rfl⟩
  | cons row rows ih =>
    obtain ⟨hrow, hrows⟩ := List.forall_mem_cons.mp h
    obtain ⟨db₁, hupdate, hdim⟩ := update_isOk row.1 hrow
    obtain ⟨db₂, hrest, hdim'⟩ := ih fun q hq => (hrows q hq).trans hdim.symm
    exact ⟨db₂, by rw [updateAll, hupdate]; exact hrest, hdim'.trans hdim⟩

/-- A batch that goes well leaves the rows behind it. -/
theorem embedBatch_quiet {round : Round} {limit : ℕ} (h : round.Quiet db.dimension)
    (hlimit : 0 < limit) :
    ∃ db', embedBatch round db limit = (db', .ok (pendingCount db - limit)) ∧
      db'.dimension = db.dimension := by
  obtain ⟨vectors, hembed, hlength, hwidth⟩ := h.embeds ((pending db limit).map Passage.text)
  rw [List.length_map] at hlength
  unfold embedBatch
  simp only [h.before, h.during, h.after, h.refuses, hembed, id]
  split_ifs with hempty
  · rw [pending_eq, List.isEmpty_iff, List.take_eq_nil_iff] at hempty
    rw [pendingCount_eq, hempty.resolve_left hlimit.ne']
    exact ⟨db, by rw [List.length_nil, Nat.zero_sub], rfl⟩
  · obtain ⟨db', hupdates, hdim⟩ := @updateAll_isOk db
      (((pending db limit).map Passage.id).zip vectors) fun row hrow =>
        hwidth _ (List.of_mem_zip hrow).2
    have hwrite : writeVectors db (pending db limit) vectors = .ok db' := by
      rw [writeVectors, if_neg (not_not.mpr hlength.symm), if_neg hempty, hupdates]
    refine ⟨db', ?_, hdim⟩
    rw [hwrite]
    dsimp only
    rw [pendingCount_eq, waiting_after_batch hwrite, List.length_drop, pendingCount_eq]

end Agmem.Store.Reindex
