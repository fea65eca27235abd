import Agmem.Core.Model
import Agmem.Relational.Table

/-! The database as the schema defines it: four tables, the width its two vector
indexes were built for, and how many ULIDs it has minted. A memory is unique by its
space, its content hash and a key that reads "live" while it is open and the closing
instant afterwards; an episode by its space and content hash. -/

namespace Agmem.Store

open Core Relational

/-- The computed field `dedup_key`: `<string>(invalid_at ?? 'live')`. -/
inductive DedupKey where
  | live
  | closed (at_ : Timestamp)
deriving DecidableEq

def dedupKey (r : MemoryRecord) : DedupKey :=
  match r.invalidAt with
  | none => .live
  | some t => .closed t

/-- A row of the space registry. -/
structure Space where
  name : SpaceName
  createdAt : Timestamp

instance : Row MemoryRecord MemoryId (SpaceName × Text × DedupKey) where
  key := MemoryRecord.id
  index r := (r.space, r.contentHash, dedupKey r)

instance : Row Episode EpisodeId (SpaceName × Text) where
  key := Episode.id
  index e := (e.space, e.contentHash)

instance : Row EpisodeChunk ChunkId ChunkId where
  key := EpisodeChunk.id
  index := EpisodeChunk.id

instance : Row Space SpaceName SpaceName where
  key := Space.name
  index := Space.name

@[simp] theorem key_memory (r : MemoryRecord) : Row.key r = r.id := rfl

@[simp] theorem index_memory (r : MemoryRecord) :
    Row.index r = (r.space, r.contentHash, dedupKey r) := rfl

@[simp] theorem key_episode (e : Episode) : Row.key e = e.id := rfl

@[simp] theorem index_episode (e : Episode) : Row.index e = (e.space, e.contentHash) := rfl

structure Db where
  memory : Table MemoryRecord
  episode : Table Episode
  episodeChunk : Table EpisodeChunk
  space : Table Space
  /-- The width of `mem_vec` and `ec_vec`. -/
  dimension : ℕ
  minted : ℕ

/-- A store as the migrations leave it. -/
def Db.empty (dimension : ℕ) : Db := ⟨∅, ∅, ∅, ∅, dimension, 0⟩

/-- The unique indexes, by name. -/
inductive Index where
  | memHashLive
  | episodeHash
  | episodeChunkId
  | spaceName
deriving DecidableEq

/-- What a `THROW` says. -/
inductive Thrown where
  /-- "supersedes targets … — one of them is gone or was closed by another writer" -/
  | targetsGone (named : List MemoryId)
  /-- "the superseding memory does not exist" -/
  | successorMissing
  /-- "the superseded memory is gone or already closed" -/
  | supersededGone
deriving DecidableEq

inductive EngineError where
  | indexExists (index : Index)
  | thrown (message : Thrown)
  /-- A vector of another width than its index. -/
  | vectorWidth
  /-- "failed transaction" / "Cannot COMMIT" -/
  | conflict
deriving DecidableEq

inductive StoreError where
  | db (error : EngineError)
  | unknownMemory (space : SpaceName) (id : MemoryId)
  | unknownEpisode (space : SpaceName) (id : EpisodeId)
  | alreadyClosed (id : MemoryId) (reason : Option InvalidReason) (by_ : Option MemoryId)
  | unexpectedResponse (message : String)
deriving DecidableEq

/-- Whether an index of width `dimension` takes the vector; a row without one is not in it. -/
def fits (dimension : ℕ) (embedding : Option Embedding) : Bool :=
  embedding.all (fun v => v.length == dimension)

end Agmem.Store
