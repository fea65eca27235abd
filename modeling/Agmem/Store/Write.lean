import Agmem.Store.Db
import Agmem.Store.Datetime
import Agmem.Core.Scoring

/-! The write half. One `remember` call lands as one transaction: the episode with
its chunks, then the memories in order, each followed by the closing of what it
supersedes. Every insert is guarded by a lookup of the same content among the live
rows, so an exact duplicate is a result and never reaches the unique index. A
statement that fails aborts the transaction and leaves the database as it was. -/

namespace Agmem.Store

open Core Relational Scoring
open Columns (toDatetime)

/-! ### What the caller asks for -/

structure NewMemory where
  kind : Kind
  content : Text
  entities : List Text
  tags : List Text
  embedding : Option Embedding
  decayClass : Option DecayClass
  validFrom : Option Timestamp
  supersedes : List MemoryId
  source : Option Source
  derivedFrom : List Derivation
  novelty : Option ℚ

/-- A memory with only what it cannot do without. -/
def NewMemory.new (kind : Kind) (content : Text) : NewMemory where
  kind := kind
  content := content
  entities := []
  tags := []
  embedding := none
  decayClass := none
  validFrom := none
  supersedes := []
  source := none
  derivedFrom := []
  novelty := none

structure NewChunk where
  text : Text
  embedding : Option Embedding

structure NewEpisode where
  content : Text
  occurredAt : Option Timestamp
  session : Option Text
  chunks : List NewChunk
  title : Option Text
  docKind : Option DocKind
  tags : List Text
  mime : Option Text

structure Batch where
  space : SpaceName
  episode : Option NewEpisode
  memories : List NewMemory
  writer : Writer

/-- What became of one row a batch asked for. -/
inductive Written (ι : Type) where
  | created (id : ι)
  | duplicate (id : ι)
deriving DecidableEq

def Written.id {ι : Type} : Written ι → ι
  | .created id | .duplicate id => id

def Written.isCreated {ι : Type} : Written ι → Bool
  | .created _ => true
  | .duplicate _ => false

/-- A `supersedes` target that was closed before the call reached it. -/
structure AlreadyClosed where
  id : MemoryId
  reason : Option InvalidReason
  by_ : Option MemoryId
deriving DecidableEq

structure BatchOutcome where
  episode : Option (Written EpisodeId)
  memories : List (Written MemoryId)
  superseded : List MemoryId
  alreadyClosed : List AlreadyClosed
deriving DecidableEq

/-- The readings of the clock one attempt makes: `now()` for the fields a caller left
open, by position in the batch, and `time::now()` inside the engine. -/
structure Clock where
  validFrom : ℕ → Timestamp
  occurredAt : Timestamp
  engine : ℕ → Timestamp

/-! ### The statements of the transaction -/

/-- The content bound as `$row`. -/
structure MemoryRow where
  space : SpaceName
  kind : Kind
  content : Text
  contentHash : Text
  entities : List Text
  tags : List Text
  embedding : Option Embedding
  decayClass : DecayClass
  validFrom : Timestamp
  supersedes : List MemoryId
  derivedFrom : List Derivation
  writer : Writer
  novelty : Option ℚ

/-- What the query binds for one memory; `src` is absent when provenance is the episode
the same transaction writes. -/
structure MemoryBinds where
  hash : Text
  row : MemoryRow
  src : Option Source
  old : List MemoryId

/-- The row `CREATE … CONTENT` makes, with the defaults of the schema. -/
def MemoryRow.record (row : MemoryRow) (id : MemoryId) (source : Source) (now : Timestamp) :
    MemoryRecord where
  id := id
  space := row.space
  kind := row.kind
  content := row.content
  contentHash := row.contentHash
  entities := row.entities
  tags := row.tags
  embedding := row.embedding
  decayClass := row.decayClass
  strength := 1
  lastAccessed := now
  accessCount := 0
  validFrom := row.validFrom
  invalidAt := none
  invalidReason := none
  supersedes := row.supersedes
  supersededBy := none
  source := source
  writer := some row.writer
  novelty := row.novelty
  derivedFrom := row.derivedFrom
  createdAt := now

def createMemory (db : Db) (row : MemoryRow) (source : Source) (now : Timestamp) :
    Except EngineError (Db × MemoryId) :=
  if fits db.dimension row.embedding then
    match db.memory.insert? (row.record ⟨db.minted⟩ source now) with
    | some memory => .ok ({ db with memory := memory, minted := db.minted + 1 }, ⟨db.minted⟩)
    | none => .error (.indexExists .memHashLive)
  else .error .vectorWidth

/-- `SET superseded_by = …, invalid_at = …, invalid_reason = 'superseded'` -/
def supersededBy (new : MemoryId) (boundary : Timestamp) (r : MemoryRecord) : MemoryRecord :=
  { r with supersededBy := some new, invalidAt := some boundary, invalidReason := some .superseded }

/-- `SET invalid_at = …, invalid_reason = …` -/
def closedAs (reason : InvalidReason) (at_ : Timestamp) (r : MemoryRecord) : MemoryRecord :=
  { r with invalidAt := some at_, invalidReason := some reason }

/-- One `UPDATE` closes every target at once; fewer rows back than ids sent aborts the
transaction. `named` are the ids the message names. -/
def closeTargets (db : Db) (named old : List MemoryId) (new : MemoryId) (boundary : Timestamp) :
    Except EngineError Db :=
  match db.memory.update? MemoryRecord.isLive (supersededBy new boundary) old with
  | none => .error (.indexExists .memHashLive)
  | some (memory, sup) =>
    if sup.length = old.length then .ok { db with memory := memory }
    else .error (.thrown (.targetsGone named))

/-- The live row that already holds the content. -/
def liveHolder (db : Db) (space : SpaceName) (hash : Text) : Option MemoryId :=
  (db.memory.rows.find? fun r => decide (r.space = space ∧ r.contentHash = hash) && r.isLive).map
    MemoryRecord.id

/-- `array::complement` -/
def complement (ids without : List MemoryId) : List MemoryId := ids.filter (fun id => id ∉ without)

/-- The block of one memory: the lookup, and either the closings in favour of the row it
found, less that row itself, or the `CREATE` and the closings in favour of the new row. -/
def writeMemory (db : Db) (space : SpaceName) (episode : Option EpisodeId) (m : MemoryBinds)
    (now : Timestamp) : Except EngineError (Db × Written MemoryId) :=
  match liveHolder db space m.hash with
  | some dup =>
    match closeTargets db m.old (complement m.old [dup]) dup m.row.validFrom with
    | .error e => .error e
    | .ok db => .ok (db, .duplicate dup)
  | none =>
    match createMemory db m.row (m.src.getD (episode.elim .agent .episode)) now with
    | .error e => .error e
    | .ok (db, new) =>
      match closeTargets db m.old m.old new m.row.validFrom with
      | .error e => .error e
      | .ok db => .ok (db, .created new)

/-- The blocks in order, from the given position on. -/
def writeMemories (space : SpaceName) (episode : Option EpisodeId) (now : ℕ → Timestamp) :
    ℕ → Db → List MemoryBinds → Except EngineError (Db × List (Written MemoryId))
  | _, db, [] => .ok (db, [])
  | i, db, m :: ms =>
    match writeMemory db space episode m (now i) with
    | .error e => .error e
    | .ok (db, w) =>
      match writeMemories space episode now (i + 1) db ms with
      | .error e => .error e
      | .ok (db, ws) => .ok (db, w :: ws)

theorem writeMemories_cons_ok {space : SpaceName} {episode : Option EpisodeId}
    {now : ℕ → Timestamp} {i : ℕ} {db db' : Db} {m : MemoryBinds} {ms : List MemoryBinds}
    {ws : List (Written MemoryId)}
    (h : writeMemories space episode now i db (m :: ms) = .ok (db', ws)) :
    ∃ db₁ w ws', writeMemory db space episode m (now i) = .ok (db₁, w) ∧
      writeMemories space episode now (i + 1) db₁ ms = .ok (db', ws') ∧ ws = w :: ws' := by
  unfold writeMemories at h
  split at h
  · cases h
  · next db₁ w hw =>
    split at h
    · cases h
    · next db₂ ws' hws =>
      cases h
      exact ⟨db₁, w, ws', hw, hws, rfl⟩

/-- `FOR $chunk IN $ep_chunks`, from the given position on. -/
def createChunks (space : SpaceName) (episode : EpisodeId) (occurredAt : Timestamp) :
    ℕ → Db → List NewChunk → Except EngineError Db
  | _, db, [] => .ok db
  | position, db, chunk :: chunks =>
    if fits db.dimension chunk.embedding then
      match db.episodeChunk.insert? ⟨⟨db.minted⟩, episode, space, chunk.text, position,
          chunk.embedding, occurredAt⟩ with
      | none => .error (.indexExists .episodeChunkId)
      | some episodeChunk =>
        createChunks space episode occurredAt (position + 1)
          { db with episodeChunk := episodeChunk, minted := db.minted + 1 } chunks
    else .error .vectorWidth

/-- The row of a new episode; tags are kept on documents only. -/
def NewEpisode.record [Hashing] (e : NewEpisode) (id : EpisodeId) (space : SpaceName)
    (clock : Clock) : Episode where
  id := id
  space := space
  content := e.content
  contentHash := contentHash e.content
  occurredAt := toDatetime (e.occurredAt.getD clock.occurredAt)
  session := e.session
  createdAt := clock.engine 0
  title := e.title
  docKind := e.docKind
  tags := if e.docKind.isSome then e.tags else []
  mime := e.mime

/-- The episode block: the stored episode of the same content, or a new one with its
chunks. -/
def writeEpisode [Hashing] (db : Db) (space : SpaceName) (e : NewEpisode) (clock : Clock) :
    Except EngineError (Db × Written EpisodeId) :=
  match db.episode.rows.find? fun row =>
      decide (row.space = space ∧ row.contentHash = contentHash e.content) with
  | some row => .ok (db, .duplicate row.id)
  | none =>
    match db.episode.insert? (e.record ⟨db.minted⟩ space clock) with
    | none => .error (.indexExists .episodeHash)
    | some episode =>
      match createChunks space ⟨db.minted⟩ (toDatetime (e.occurredAt.getD clock.occurredAt)) 0
          { db with episode := episode, minted := db.minted + 1 } e.chunks with
      | .error e => .error e
      | .ok db' => .ok (db', .created ⟨db.minted⟩)

/-- The episode block finds the text, or creates a row and its chunks. -/
theorem writeEpisode_eq_ok [Hashing] {db db' : Db} {space : SpaceName} {e : NewEpisode}
    {clock : Clock} {w : Written EpisodeId}
    (h : writeEpisode db space e clock = .ok (db', w)) :
    (∃ row, (db.episode.rows.find? fun row =>
        decide (row.space = space ∧ row.contentHash = contentHash e.content)) = some row ∧
      db' = db ∧ w = .duplicate row.id) ∨
    (db.episode.rows.find? fun row =>
        decide (row.space = space ∧ row.contentHash = contentHash e.content)) = none ∧
      w = .created ⟨db.minted⟩ ∧
      ∃ t, db.episode.insert? (e.record ⟨db.minted⟩ space clock) = some t ∧
        createChunks space ⟨db.minted⟩ (toDatetime (e.occurredAt.getD clock.occurredAt)) 0
          { db with episode := t, minted := db.minted + 1 } e.chunks = .ok db' := by
  unfold writeEpisode at h
  split at h
  · next row hfound =>
    cases h
    exact .inl ⟨row, hfound, rfl, rfl⟩
  · next hnone =>
    split at h
    · cases h
    · next t ht =>
      split at h
      · cases h
      · next db₁ hchunks =>
        cases h
        exact .inr ⟨hnone, rfl, t, ht, hchunks⟩

/-- What the query binds for the memory at position `i`. -/
def bindMemory [Hashing] (batch : Batch) (clock : Clock) (i : ℕ) (m : NewMemory) : MemoryBinds where
  hash := contentHash m.content
  row := { space := batch.space, kind := m.kind, content := m.content,
           contentHash := contentHash m.content, entities := m.entities, tags := m.tags,
           embedding := m.embedding, decayClass := m.decayClass.getD m.kind.defaultDecayClass,
           validFrom := toDatetime (m.validFrom.getD (clock.validFrom i)), supersedes := m.supersedes,
           derivedFrom := m.derivedFrom, writer := batch.writer, novelty := m.novelty }
  src := if m.source.isNone && batch.episode.isSome then none else some (m.source.getD .agent)
  old := m.supersedes

/-- The whole transaction of a batch. -/
def batchTransaction [Hashing] (db : Db) (batch : Batch) (clock : Clock) :
    Except EngineError (Db × Option (Written EpisodeId) × List (Written MemoryId)) :=
  match batch.episode with
  | none =>
    match writeMemories batch.space none clock.engine 0 db
        (batch.memories.mapIdx (bindMemory batch clock)) with
    | .error e => .error e
    | .ok (db, ws) => .ok (db, none, ws)
  | some e =>
    match writeEpisode db batch.space e clock with
    | .error e => .error e
    | .ok (db, ep) =>
      match writeMemories batch.space (some ep.id) clock.engine 0 db
          (batch.memories.mapIdx (bindMemory batch clock)) with
      | .error e => .error e
      | .ok (db, ws) => .ok (db, some ep, ws)

/-- A transaction that goes through wrote its episode, if it has one, and then its memories. -/
theorem batchTransaction_eq_ok [Hashing] {db db' : Db} {batch : Batch} {clock : Clock}
    {episode : Option (Written EpisodeId)} {ws : List (Written MemoryId)}
    (h : batchTransaction db batch clock = .ok (db', episode, ws)) :
    batch.episode = none ∧ episode = none ∧
      writeMemories batch.space none clock.engine 0 db
        (batch.memories.mapIdx (bindMemory batch clock)) = .ok (db', ws) ∨
    ∃ e db₁ w, batch.episode = some e ∧ writeEpisode db batch.space e clock = .ok (db₁, w) ∧
      episode = some w ∧
      writeMemories batch.space (some w.id) clock.engine 0 db₁
        (batch.memories.mapIdx (bindMemory batch clock)) = .ok (db', ws) := by
  unfold batchTransaction at h
  split at h
  · next hnone =>
    split at h
    · cases h
    · next hws =>
      cases h
      exact .inl ⟨hnone, rfl, hws⟩
  · next e he =>
    split at h
    · cases h
    · next db₁ w hep =>
      split at h
      · cases h
      · next hws =>
        cases h
        exact .inr ⟨e, db₁, w, he, hep, rfl, hws⟩

/-! ### insert_batch -/

/-- `EXISTING_MEMORIES`, and the first id it does not return. -/
def ensureMemoriesExist (db : Db) (space : SpaceName) (ids : List MemoryId) :
    Except StoreError Unit :=
  match ids.find? fun id => !(db.memory.get? id).any (fun r => decide (r.space = space)) with
  | some id => .error (.unknownMemory space id)
  | none => .ok ()

/-- `CLOSED_MEMORIES`: which of the ids in `space` are already closed, and by what. -/
def closedMemories (db : Db) (space : SpaceName) (ids : List MemoryId) : List AlreadyClosed :=
  (db.memory.rows.filter fun r => decide (r.space = space ∧ r.id ∈ ids) && !r.isLive).map
    fun r => ⟨r.id, r.invalidReason, r.supersededBy⟩

/-- Drop the targets that were already closed. -/
def NewMemory.retain (m : NewMemory) (closed : List AlreadyClosed) : NewMemory :=
  { m with supersedes := m.supersedes.filter fun id => !closed.any (fun c => decide (c.id = id)) }

/-- The targets of one memory that its outcome closed. -/
def closedTargets (m : NewMemory) : Written MemoryId → List MemoryId
  | .created _ => m.supersedes
  | .duplicate dup => m.supersedes.filter fun old => old ≠ dup

def Batch.targets (batch : Batch) : List MemoryId := batch.memories.flatMap NewMemory.supersedes

/-- The batch the transaction is built from. -/
def Batch.retain (batch : Batch) (closed : List AlreadyClosed) : Batch :=
  { batch with memories := batch.memories.map fun m => m.retain closed }

/-- Whether an engine error is this batch losing a race. -/
def isWriteRace : EngineError → Bool
  | .indexExists .memHashLive | .indexExists .episodeHash | .conflict => true
  | _ => false

/-- One attempt at the batch. -/
def insertBatchOnce [Hashing] (db : Db) (batch : Batch) (clock : Clock) :
    Except StoreError (Db × BatchOutcome) :=
  match ensureMemoriesExist db batch.space batch.targets with
  | .error e => .error e
  | .ok () =>
    let closed := closedMemories db batch.space batch.targets
    match batchTransaction db (batch.retain closed) clock with
    | .error e => .error (.db e)
    | .ok (db, episode, written) =>
      .ok (db, { episode := episode, memories := written,
                 superseded := (List.zipWith closedTargets (batch.retain closed).memories
                   written).flatten,
                 alreadyClosed := closed })

theorem insertBatchOnce_eq_ok [Hashing] {db db' : Db} {batch : Batch} {clock : Clock}
    {out : BatchOutcome} (h : insertBatchOnce db batch clock = .ok (db', out)) :
    ensureMemoriesExist db batch.space batch.targets = .ok () ∧
      out.alreadyClosed = closedMemories db batch.space batch.targets ∧
      batchTransaction db (batch.retain out.alreadyClosed) clock =
        .ok (db', out.episode, out.memories) ∧
      out.superseded = (List.zipWith closedTargets (batch.retain out.alreadyClosed).memories
        out.memories).flatten := by
  unfold insertBatchOnce at h
  split at h
  · cases h
  · next hexist =>
    dsimp only at h
    split at h
    · cases h
    · next htx =>
      cases h
      exact ⟨hexist, rfl, htx, rfl⟩

/-- Attempts from number `k` on, `left` of them retries. -/
def insertBatchFrom [Hashing] (db : Db) (batch : Batch) (clock : ℕ → Clock) :
    ℕ → ℕ → Except StoreError (Db × BatchOutcome)
  | k, 0 => insertBatchOnce db batch (clock k)
  | k, left + 1 =>
    match insertBatchOnce db batch (clock k) with
    | .error (.db e) =>
      if isWriteRace e then insertBatchFrom db batch clock (k + 1) left else .error (.db e)
    | outcome => outcome

/-- Write a whole `remember` call: a lost race is retried while fewer than two retries were
made. -/
def insertBatch [Hashing] (db : Db) (batch : Batch) (clock : ℕ → Clock) :
    Except StoreError (Db × BatchOutcome) :=
  insertBatchFrom db batch clock 0 2

/-! ### The other writers -/

/-- `ENSURE_SPACE` -/
def ensureSpace (db : Db) (space : SpaceName) (now : Timestamp) : Except StoreError Db :=
  match db.space.get? space with
  | some _ => .ok db
  | none =>
    match db.space.insert? ⟨space, now⟩ with
    | some t => .ok { db with space := t }
    | none => .error (.db (.indexExists .spaceName))

/-- The transaction `SUPERSEDE`. -/
def supersedeTransaction (db : Db) (old new : MemoryId) : Except EngineError Db :=
  match db.memory.get? new with
  | none => .error (.thrown .successorMissing)
  | some successor =>
    match db.memory.update? MemoryRecord.isLive (supersededBy new successor.validFrom) [old] with
    | none => .error (.indexExists .memHashLive)
    | some (memory, done) =>
      if done.length = 0 then .error (.thrown .supersededGone) else .ok { db with memory := memory }

/-- Close `old` in favour of `new`. -/
def supersede (db : Db) (space : SpaceName) (old new : MemoryId) : Except StoreError Db :=
  match ensureMemoriesExist db space [old, new] with
  | .error e => .error e
  | .ok () =>
    match (closedMemories db space [old]).getLast? with
    | some closed => .error (.alreadyClosed closed.id closed.reason closed.by_)
    | none =>
      match supersedeTransaction db old new with
      | .error e => .error (.db e)
      | .ok db => .ok db

structure Forget where
  spaces : List SpaceName
  memories : List MemoryId
  episodes : List EpisodeId
  purge : Bool

structure Forgotten where
  memories : List MemoryId
  episodes : List EpisodeId
  chunks : ℕ
deriving DecidableEq

/-- `FORGET_SOFT`; `now` is the reading of the clock at each row. -/
def forgetSoft (db : Db) (request : Forget) (now : MemoryId → Timestamp) :
    Except StoreError (Db × Forgotten) :=
  match db.memory.update? (fun r => decide (r.space ∈ request.spaces) && r.isLive)
      (fun r => closedAs .forgotten (now r.id) r) request.memories with
  | none => .error (.db (.indexExists .memHashLive))
  | some (memory, closed) => .ok ({ db with memory := memory }, ⟨closed.map MemoryRecord.id, [], 0⟩)

theorem forgetSoft_eq_ok {db db' : Db} {request : Forget} {now : MemoryId → Timestamp}
    {out : Forgotten} (h : forgetSoft db request now = .ok (db', out)) :
    ∃ t closed, db.memory.update? (fun r => decide (r.space ∈ request.spaces) && r.isLive)
        (fun r => closedAs .forgotten (now r.id) r) request.memories = some (t, closed) ∧
      db' = { db with memory := t } := by
  unfold forgetSoft at h
  split at h
  · cases h
  · next t closed hu =>
    cases h
    exact ⟨t, closed, hu, rfl⟩

/-- The purge transaction: an episode's chunks, the episodes, the memories. -/
def forgetPurge (db : Db) (request : Forget) : Db × Forgotten :=
  let inSpaces (space : SpaceName) : Bool := decide (space ∈ request.spaces)
  let gone (c : EpisodeChunk) : Bool := inSpaces c.space && decide (c.episode ∈ request.episodes)
  let episodes := db.episode.deleteKeys (fun e => inSpaces e.space) request.episodes
  let memories := db.memory.deleteKeys (fun r => inSpaces r.space) request.memories
  ({ db with episodeChunk := db.episodeChunk.delete gone, episode := episodes.1,
             memory := memories.1 },
    ⟨memories.2.map MemoryRecord.id, episodes.2.map Episode.id,
      (db.episodeChunk.rows.filter gone).length⟩)

/-- Close or delete what a `forget` call resolved to. -/
def forget (db : Db) (request : Forget) (now : MemoryId → Timestamp) :
    Except StoreError (Db × Forgotten) :=
  if request.purge then .ok (forgetPurge db request) else forgetSoft db request now

/-- The one decay class with a TTL. -/
def PRUNE_CLASS : DecayClass := .fast

/-- `math::round` of a quantity that is not negative. -/
def mathRound (q : ℚ) : ℤ := ⌊q + 1 / 2⌋

/-- The idle time of a row, in nanoseconds, after which the sweep takes it. -/
def rowHorizon (horizon : ℚ) (r : MemoryRecord) : ℤ :=
  mathRound (horizon * min (max r.strength MIN_STABILITY) MAX_STABILITY) * 1000000000

/-- `PRUNE_EXPIRED`, with the horizon of unit strength in seconds. The clock is read twice
at each row: for the comparison, and for the closing instant. -/
def pruneExpired (db : Db) (horizon : ℚ) (asked now : MemoryId → Timestamp) :
    Except StoreError (Db × List MemoryId) :=
  match db.memory.update?
      (fun r => decide (r.decayClass = PRUNE_CLASS) && r.isLive &&
        decide (r.lastAccessed + rowHorizon horizon r < asked r.id))
      (fun r => closedAs .expired (now r.id) r) (db.memory.rows.map MemoryRecord.id) with
  | none => .error (.db (.indexExists .memHashLive))
  | some (memory, closed) => .ok ({ db with memory := memory }, closed.map MemoryRecord.id)

/-- `SET strength = math::min([strength + 1.0, $cap]), access_count += 1, …` -/
def reinforced (now : MemoryId → Timestamp) (r : MemoryRecord) : MemoryRecord :=
  { r with strength := min (r.strength + 1) MAX_STABILITY, accessCount := r.accessCount + 1,
           lastAccessed := now r.id }

/-- `REINFORCE`, and how many rows it touched. -/
def reinforce (db : Db) (ids : List MemoryId) (now : MemoryId → Timestamp) :
    Except StoreError (Db × ℕ) :=
  match db.memory.update? (fun _ => true) (reinforced now) ids with
  | none => .error (.db (.indexExists .memHashLive))
  | some (memory, touched) => .ok ({ db with memory := memory }, touched.length)

end Agmem.Store
