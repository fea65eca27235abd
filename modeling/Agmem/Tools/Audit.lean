import Agmem.Store.Citers
import Agmem.Tools.Windows
import Agmem.Tools.Grammar

/-! The audit verb as a whole. A reference is resolved in the spaces it may be looked up in; a bare
id is asked of the claims, the slices and the texts in turn, and the answer echoes what it turned
out to name. -/

namespace Agmem.Tools.Inspect

open Core Relational Store

structure InspectParams where
  reference : Text
  space : Option Text
  offset : Option ℕ
  limit : Option ℕ
  docKinds : List DocKind
  tags : List Text

/-- How many documents one listing shows per space. -/
def DOCS_PER_LISTING : ℕ := 50

structure DocumentView where
  id : EpisodeId
  space : SpaceName
  title : Text
  docKind : DocKind
  tags : List Text
  mime : Option Text
  chars : ℕ
  cited : ℕ
  createdAt : Timestamp

structure SpaceCounts where
  space : SpaceName
  memories : ℕ
  live : ℕ
  invalidated : ℕ
  episodes : ℕ
  chunks : ℕ
  documents : ℕ
  liveByKind : List (Kind × ℕ)

/-- What a reference turned out to name. -/
inductive Inspected where
  | memory (found : InspectedMemory)
  | episode (found : InspectedEpisode)
  | entity (name : Text) (memories : List MemoryRecord)
  | documents (documents : List DocumentView)
  | stats (counts : List SpaceCounts)

structure InspectResult where
  /-- The reference it resolved to, as it is printed. -/
  reference : Text
  spaces : List SpaceName
  found : Inspected

/-- What a call is refused with. -/
inductive RunError where
  /-- "ref must be `memory:<id>`, …, or a bare id; got …" -/
  | grammar (raw : Text)
  /-- "no document titled … in …; list what is there with `docs`, or check the space" -/
  | missingDocument (title : Text) (spaces : List SpaceName)
  /-- "no memory … in …; recall it first, widen `space`, or drop the `memory:` prefix — a bare id
  resolves chunks and episodes too" -/
  | missingMemory (id : Ulid) (spaces : List SpaceName)
  /-- "no episode … in …; recall it first, or widen `space`" -/
  | missingEpisode (id : Ulid) (spaces : List SpaceName)
  /-- "no memory, episode or chunk … in …; recall it first, or widen `space`" -/
  | missingAny (id : Ulid) (spaces : List SpaceName)
  /-- "a retrieval slice names an episode the store does not hold" -/
  | unreachableChunk
  | tool (error : ErrorData)

/-! ### Listings and counts -/

/-- The rows of a listing; a document without a title or a kind is no entry. -/
def documentView (summary : DocumentSummary) : Option DocumentView :=
  let e := summary.episode
  e.title.bind fun title => e.docKind.map fun docKind =>
    ⟨e.id, e.space, title, docKind, e.tags, e.mime, e.content.length, summary.cited, e.createdAt⟩

/-- The documents in each searched space, newest first within a space. -/
def documents (db : Db) (spaces : List SpaceName) (filter : DocumentFilter) : List DocumentView :=
  spaces.flatMap fun space => (Store.documents db space filter).filterMap documentView

/-- `GROUP BY kind ORDER BY kind` -/
def liveByKind (rows : List MemoryRecord) : List (Kind × ℕ) :=
  [Kind.fact, .instruction, .lesson, .summary].filterMap fun kind =>
    match (rows.filter fun r => decide (r.kind = kind)).length with
    | 0 => none
    | n + 1 => some (kind, n + 1)

/-- What one space holds. -/
def stats (db : Db) (space : SpaceName) : SpaceCounts :=
  let memories := db.memory.rows.filter fun r => decide (r.space = space)
  let episodes := db.episode.rows.filter fun e => decide (e.space = space)
  let live := liveRows db space
  { space := space
    memories := memories.length
    live := live.length
    invalidated := memories.length - live.length
    episodes := episodes.length
    chunks := (db.episodeChunk.rows.filter fun c => decide (c.space = space)).length
    documents := (episodes.filter Episode.isDocument).length
    liveByKind := liveByKind live }

/-- Every claim naming one subject, closed ones included. -/
def about (service : Service) (db : Db) (spaces : List SpaceName) (entity : Text) :
    List MemoryRecord :=
  directLookup db ⟨spaces, ⟨[], [entity], []⟩, .any, service.pool⟩

/-! ### Bare ids -/

/-- The episode of the slice that one of the spaces holds under the id. -/
def parentFrom (db : Db) (id : ChunkId) (spaces : List SpaceName) : Option EpisodeId :=
  spaces.findSome? fun space => episodeOfChunk db space id

/-- A bare id, resolved against every table that could answer to it. -/
def unqualified (db : Db) (spaces : List SpaceName) (id : Ulid) (window : WindowSpec) :
    Except RunError (Text × Inspected) :=
  match memory db spaces ⟨id.number⟩ with
  | .error e => .error (.tool e)
  | .ok (some found) => .ok ((Reference.memory id).text, .memory found)
  | .ok none =>
    match parentFrom db ⟨id.number⟩ spaces with
    | some parent =>
      match episode db parent window spaces with
      | .error e => .error (.tool e)
      | .ok none => .error .unreachableChunk
      | .ok (some found) =>
        .ok (Reference.wordEpisode ++ ':' :: ulidText parent.ulid, .episode found)
    | none =>
      match episode db ⟨id.number⟩ window spaces with
      | .error e => .error (.tool e)
      | .ok none => .error (.missingAny id spaces)
      | .ok (some found) => .ok ((Reference.episode id).text, .episode found)

/-! ### run -/

/-- What a reference is answered with, once the spaces to look in are known. -/
def answered (service : Service) (db : Db) (params : InspectParams) (spaces : List SpaceName)
    (reference : Reference) : Except RunError (Text × Inspected) :=
  let window := ⟨params.offset, params.limit⟩
  match reference with
  | .stats => .ok (reference.text, .stats (spaces.map (stats db)))
  | .docs _ => .ok (reference.text,
      .documents (documents db spaces ⟨params.docKinds, params.tags, DOCS_PER_LISTING⟩))
  | .doc _ title =>
    match document db title window spaces with
    | .error e => .error (.tool e)
    | .ok none => .error (.missingDocument title spaces)
    | .ok (some found) => .ok (reference.text, .episode found)
  | .entity name => .ok (reference.text, .entity name (about service db spaces name))
  | .memory id =>
    match memory db spaces ⟨id.number⟩ with
    | .error e => .error (.tool e)
    | .ok none => .error (.missingMemory id spaces)
    | .ok (some found) => .ok (reference.text, .memory found)
  | .episode id =>
    match episode db ⟨id.number⟩ window spaces with
    | .error e => .error (.tool e)
    | .ok none => .error (.missingEpisode id spaces)
    | .ok (some found) => .ok (reference.text, .episode found)
  | .unqualified id => unqualified db spaces id window

/-- Answer one reference. -/
def run (service : Service) (db : Db) (params : InspectParams) : Except RunError InspectResult :=
  match Reference.parse params.reference with
  | none => .error (.grammar (trim params.reference))
  | some reference =>
    match spaces service db (reference.requested params.space) with
    | .error e => .error (.tool e)
    | .ok spaces =>
      match answered service db params spaces reference with
      | .error e => .error e
      | .ok (named, found) => .ok ⟨named, spaces, found⟩

end Agmem.Tools.Inspect
