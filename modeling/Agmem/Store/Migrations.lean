import Agmem.Store.Db
import Agmem.Transition.Versioned

/-! The schema migrations. A store carries a version, a schema and rows. `ensure` runs a bootstrap
and then the batches the version does not count yet, and writes the version after each of them. A
definition does not touch the rows that are there, except that a unique index is built against them.
An `UPDATE` puts a row through every field of the schema, mentioned or not: the computed one is
computed, and a row that lacks a required one fails the statement. Of the rows the columns are kept
that a migration reads or writes, and the text of a claim. -/

namespace Agmem.Store.Migrations

open Core Transition Batch Versioned

/-- What a `DEFINE` names. -/
inductive Definition where
  | table (name : String)
  | field (name table : String)
  | index (name table : String)
  | analyzer (name : String)
deriving DecidableEq

/-- The column as versions before 3 wrote it, or as a list. -/
inductive Supersedes where
  | none
  | record (id : MemoryId)
  | list (ids : List MemoryId)
deriving DecidableEq

def Supersedes.isRecord : Supersedes → Bool
  | .record _ => true
  | _ => false

def Supersedes.isNone : Supersedes → Bool
  | .none => true
  | _ => false

def Supersedes.isList : Supersedes → Bool
  | .list _ => true
  | _ => false

/-- The links a row holds, however it holds them. -/
def Supersedes.links : Supersedes → List MemoryId
  | .none => []
  | .record id => [id]
  | .list ids => ids

/-- A row of `memory`; one from before version 2 has no `derived_from`, one from before version 5 no
`dedup_key`. -/
structure DiskMemory where
  id : MemoryId
  space : Text
  content : Text
  contentHash : Text
  invalidAt : Option Timestamp
  supersedes : Supersedes
  derivedFrom : Option (List Derivation)
  dedupKey : Option DedupKey
deriving DecidableEq

structure DiskEpisode where
  id : EpisodeId
  space : Text
  contentHash : Text
  occurredAt : Timestamp
deriving DecidableEq

/-- A row of `episode_chunk`; one from before version 4 has no `occurred_at`. -/
structure DiskChunk where
  id : ChunkId
  episode : EpisodeId
  occurredAt : Option Timestamp
deriving DecidableEq

/-- What is on disk. -/
structure Disk where
  /-- `meta:main.schema_version` -/
  schemaVersion : Option ℕ
  schema : Definition → Option String
  space : List Text
  episode : List DiskEpisode
  episodeChunk : List DiskChunk
  memory : List DiskMemory

/-- The unique indexes. -/
inductive Unique where
  | spaceName
  | episodeHash
  | memHash
  | memHashLive
deriving DecidableEq

/-- Whether the rows allow the index; a row without one of the columns is not in it. -/
def Unique.allows (s : Disk) : Unique → Bool
  | .spaceName => decide s.space.Nodup
  | .episodeHash => decide (s.episode.map fun e => (e.space, e.contentHash)).Nodup
  | .memHash => decide (s.memory.map fun r => (r.space, r.contentHash)).Nodup
  | .memHashLive => decide (s.memory.filterMap fun r =>
      r.dedupKey.map fun key => (r.space, r.contentHash, key)).Nodup

inductive Statement where
  /-- `DEFINE … IF NOT EXISTS`, or `DEFINE … OVERWRITE` -/
  | define (overwrite : Bool) (definition : Definition) (body : String) (unique : Option Unique)
  /-- `REMOVE INDEX IF EXISTS … ON TABLE …` -/
  | removeIndex (name table : String)
  /-- `UPDATE memory SET derived_from = derived_from ?? [], supersedes = [supersedes]
  WHERE type::is_record(supersedes)` -/
  | wrapSupersedes
  /-- `UPDATE memory SET derived_from = derived_from ?? [], supersedes = []
  WHERE supersedes IS NONE` -/
  | emptySupersedes
  /-- `UPDATE episode_chunk SET occurred_at = episode.occurred_at WHERE occurred_at IS NONE` -/
  | backfillOccurredAt
  /-- `UPDATE memory` -/
  | updateMemory
  /-- `UPSERT meta:main SET schema_version = …` -/
  | setVersion (version : ℕ)
deriving DecidableEq

inductive MigrationError where
  /-- "Expected `array` but found `NONE`" -/
  | coercion
  /-- Rows that a unique index cannot hold. -/
  | unique (index : Unique)
  | schemaTooNew (found supported : ℕ)
deriving DecidableEq

/-! ### Statements -/

def SUPERSEDES_LIST : String := "TYPE array<record<memory>> DEFAULT []"

def supersedesField : Definition := .field "supersedes" "memory"

def derivedFromField : Definition := .field "derived_from" "memory"

def dedupKeyField : Definition := .field "dedup_key" "memory"

/-- `<string>(invalid_at ?? 'live')` -/
def DiskMemory.key (r : DiskMemory) : DedupKey :=
  match r.invalidAt with
  | none => .live
  | some t => .closed t

/-- A row with its computed field. -/
def DiskMemory.compute (schema : Definition → Option String) (r : DiskMemory) : DiskMemory :=
  if (schema dedupKeyField).isSome then { r with dedupKey := some r.key } else r

/-- Whether the row has every field the schema asks for, in its type. -/
def DiskMemory.coerces (schema : Definition → Option String) (r : DiskMemory) : Bool :=
  ((schema derivedFromField).isNone || r.derivedFrom.isSome) &&
    match schema supersedesField with
    | none => true
    | some body => r.supersedes.isList == decide (body = SUPERSEDES_LIST)

/-- `UPDATE memory SET … WHERE …` -/
def update (s : Disk) (p : DiskMemory → Bool) (set : DiskMemory → DiskMemory) :
    Except MigrationError Disk :=
  if s.memory.all fun r => !p r || ((set r).compute s.schema).coerces s.schema then
    .ok { s with memory := s.memory.map fun r => if p r then (set r).compute s.schema else r }
  else .error .coercion

def DiskMemory.setSupersedes (ids : List MemoryId) (r : DiskMemory) : DiskMemory :=
  { r with derivedFrom := some (r.derivedFrom.getD []), supersedes := .list ids }

def occurredAtOf (s : Disk) (id : EpisodeId) : Option Timestamp :=
  (s.episode.find? fun e => e.id == id).map DiskEpisode.occurredAt

def DiskChunk.backfill (s : Disk) (c : DiskChunk) : DiskChunk :=
  if c.occurredAt.isNone then { c with occurredAt := occurredAtOf s c.episode } else c

def Disk.setSchema (s : Disk) (definition : Definition) (body : Option String) : Disk :=
  { s with schema := Function.update s.schema definition body }

def run (s : Disk) : Statement → Except MigrationError Disk
  | .define overwrite definition body unique =>
    if !overwrite && (s.schema definition).isSome then .ok s
    else
      match unique.filter fun u => !u.allows s with
      | some u => .error (.unique u)
      | none => .ok (s.setSchema definition (some body))
  | .removeIndex name table => .ok (s.setSchema (.index name table) none)
  | .wrapSupersedes =>
    update s (fun r => r.supersedes.isRecord) fun r => r.setSupersedes r.supersedes.links
  | .emptySupersedes => update s (fun r => r.supersedes.isNone) (DiskMemory.setSupersedes [])
  | .backfillOccurredAt => .ok { s with episodeChunk := s.episodeChunk.map (DiskChunk.backfill s) }
  | .updateMemory => update s (fun _ => true) id
  | .setVersion version => .ok { s with schemaVersion := some version }

/-! ### The batches -/

def table (name : String) : Statement := .define false (.table name) "SCHEMAFULL" none

def field (name table body : String) : Statement := .define false (.field name table) body none

def index (name table body : String) : Statement := .define false (.index name table) body none

def uniqueIndex (name table body : String) (unique : Unique) : Statement :=
  .define false (.index name table) body (some unique)

def overwriteField (name table body : String) : Statement :=
  .define true (.field name table) body none

def BOOTSTRAP : List Statement :=
  [table "meta",
    field "schema_version" "meta" "TYPE int",
    field "embedder_model" "meta" "TYPE option<string>",
    field "embedder_dim" "meta" "TYPE option<int>",
    field "embedder_revision" "meta" "TYPE option<string>",
    field "created_at" "meta" "TYPE datetime DEFAULT time::now()"]

def v1_schema : List Statement :=
  [table "space",
    field "name" "space" "TYPE string",
    field "created_at" "space" "TYPE datetime DEFAULT time::now()",
    uniqueIndex "space_name" "space" "COLUMNS name UNIQUE" .spaceName,
    .define false (.analyzer "english") "TOKENIZERS class FILTERS lowercase, snowball(english)"
      none,
    table "episode",
    field "space" "episode" "TYPE string",
    field "content" "episode" "TYPE string",
    field "content_hash" "episode" "TYPE string",
    field "occurred_at" "episode" "TYPE datetime DEFAULT time::now()",
    field "session" "episode" "TYPE option<string>",
    field "created_at" "episode" "TYPE datetime DEFAULT time::now()",
    uniqueIndex "episode_hash" "episode" "COLUMNS space, content_hash UNIQUE" .episodeHash,
    table "episode_chunk",
    field "episode" "episode_chunk" "TYPE record<episode>",
    field "space" "episode_chunk" "TYPE string",
    field "text" "episode_chunk" "TYPE string",
    field "position" "episode_chunk" "TYPE int",
    field "embedding" "episode_chunk" "TYPE option<array<float>>",
    index "ec_ft" "episode_chunk" "COLUMNS text FULLTEXT ANALYZER english BM25 HIGHLIGHTS",
    index "ec_vec" "episode_chunk" "FIELDS embedding HNSW DIMENSION 384 DIST COSINE",
    table "memory",
    field "space" "memory" "TYPE string",
    field "kind" "memory" "TYPE string ASSERT $value IN [\"fact\", \"lesson\", \"instruction\"]",
    field "content" "memory" "TYPE string",
    field "content_hash" "memory" "TYPE string",
    field "entities" "memory" "TYPE array<string> DEFAULT []",
    field "tags" "memory" "TYPE array<string> DEFAULT []",
    field "embedding" "memory" "TYPE option<array<float>>",
    field "decay_class" "memory" ("TYPE string DEFAULT \"normal\" " ++
      "ASSERT $value IN [\"pinned\", \"slow\", \"normal\", \"fast\"]"),
    field "strength" "memory" "TYPE float DEFAULT 1.0",
    field "last_accessed" "memory" "TYPE datetime DEFAULT time::now()",
    field "access_count" "memory" "TYPE int DEFAULT 0",
    field "valid_from" "memory" "TYPE datetime DEFAULT time::now()",
    field "invalid_at" "memory" "TYPE option<datetime>",
    field "invalid_reason" "memory"
      "TYPE option<string> ASSERT $value IN [\"superseded\", \"forgotten\", \"expired\"]",
    field "supersedes" "memory" "TYPE option<record<memory>>",
    field "superseded_by" "memory" "TYPE option<record<memory>>",
    field "source" "memory" "TYPE object",
    field "source.kind" "memory"
      "TYPE string ASSERT $value IN [\"episode\", \"agent\", \"external\"]",
    field "source.ref" "memory" "TYPE option<record<episode> | string>",
    field "created_at" "memory" "TYPE datetime DEFAULT time::now()",
    uniqueIndex "mem_hash" "memory" "COLUMNS space, content_hash UNIQUE" .memHash,
    index "mem_entities" "memory" "COLUMNS entities.*",
    index "mem_tags" "memory" "COLUMNS tags.*",
    index "mem_ft" "memory" "COLUMNS content FULLTEXT ANALYZER english BM25 HIGHLIGHTS",
    index "mem_vec" "memory" "FIELDS embedding HNSW DIMENSION 384 DIST COSINE"]

def v2_derived_from : List Statement :=
  [field "derived_from" "memory" "TYPE array<record<memory | episode>> DEFAULT []"]

def v3_supersedes_list : List Statement :=
  [overwriteField "supersedes" "memory" SUPERSEDES_LIST, .wrapSupersedes, .emptySupersedes]

def v4_chunk_occurred_at : List Statement :=
  [field "occurred_at" "episode_chunk" "TYPE option<datetime>", .backfillOccurredAt]

def v5_live_dedup : List Statement :=
  [field "dedup_key" "memory" "TYPE string VALUE <string>(invalid_at ?? 'live')", .updateMemory,
    .removeIndex "mem_hash" "memory",
    uniqueIndex "mem_hash_live" "memory" "COLUMNS space, content_hash, dedup_key UNIQUE"
      .memHashLive]

def v6_writer : List Statement :=
  [field "writer" "memory" "TYPE option<object>",
    field "writer.client" "memory" "TYPE option<string>",
    field "writer.client_version" "memory" "TYPE option<string>",
    field "writer.session" "memory" "TYPE option<string>",
    field "writer.tool" "memory" "TYPE option<string>",
    index "mem_writer_session" "memory" "COLUMNS writer.session",
    field "writer" "episode" "TYPE option<object>",
    field "writer.client" "episode" "TYPE option<string>",
    field "writer.client_version" "episode" "TYPE option<string>",
    field "writer.session" "episode" "TYPE option<string>",
    field "writer.tool" "episode" "TYPE option<string>"]

def v7_novelty : List Statement := [field "novelty" "memory" "TYPE option<float>"]

def v8_summary_kind : List Statement :=
  [overwriteField "kind" "memory"
    "TYPE string ASSERT $value IN [\"fact\", \"lesson\", \"instruction\", \"summary\"]"]

def v9_documents : List Statement :=
  [field "title" "episode" "TYPE option<string>",
    field "doc_kind" "episode" ("TYPE option<string> ASSERT $value IN " ++
      "[\"plan\", \"review\", \"report\", \"probe\", \"transcript\", \"other\"]"),
    field "tags" "episode" "TYPE option<array<string>>",
    field "mime" "episode" "TYPE option<string>",
    index "ep_title" "episode" "COLUMNS space, title",
    index "ep_tags" "episode" "COLUMNS tags.*",
    field "spans" "memory" "TYPE option<array<object>>",
    field "spans.*.ref" "memory" "TYPE record<episode>",
    field "spans.*.start" "memory" "TYPE int",
    field "spans.*.end" "memory" "TYPE int"]

def MIGRATIONS : List (List Statement) :=
  [v1_schema, v2_derived_from, v3_supersedes_list, v4_chunk_occurred_at, v5_live_dedup, v6_writer,
    v7_novelty, v8_summary_kind, v9_documents]

def SCHEMA_VERSION : ℕ := MIGRATIONS.length

def currentVersion (s : Disk) : ℕ := s.schemaVersion.getD 0

/-- The migrations as a ladder of batches. -/
def migrations : Ladder Disk Statement MigrationError where
  run := run
  version := currentVersion
  bootstrap := BOOTSTRAP
  batches := MIGRATIONS
  bump := .setVersion
  tooNew version := .schemaTooNew version SCHEMA_VERSION

/-- Apply the bootstrap and the pending migrations. -/
def ensure (s : Disk) : Disk × Except MigrationError ℕ := migrations.ensure s

/-- The stores between any two statements of `ensure`. -/
def points (s : Disk) : List Disk := migrations.points s

end Agmem.Store.Migrations
