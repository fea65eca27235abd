import Agmem.Store.Read
import Agmem.Core.Chunk

/-! What the tools share: the session a call comes from, what it may be refused with, which
space a write lands in and which spaces a read looks in. A record id, an instant or a
reference that a caller sends arrives as what its text reads as, or as the text that its
grammar refuses. The nearest neighbours of a vector and the matches of a full-text query
are found by the engine; what the queries do with them is done here. -/

namespace Agmem.Tools

open Core Relational Store

/-- A text with a grammar: what it reads as, or the text as it was sent. -/
inductive Raw (α : Type) where
  | reads (value : α)
  | refused (text : Text)
deriving DecidableEq

/-- Something the caller can act on. -/
inductive Refusal where
  /-- "a write lands in one space; `all` is read-only vocabulary. …" -/
  | writeToAll
  /-- "space: invalid space name: …" -/
  | spaceName (name : Text)
  /-- "<field>: invalid record id: …; expected a 26-character ULID" -/
  | recordId (field : String) (text : Text)
  /-- "<field>: …", with what the parser of instants objects to -/
  | instant (field : String) (text : Text)
  /-- "<field> is empty" -/
  | empty (field : String)
  /-- "<field> is … characters; the limit is …" -/
  | tooLong (field : String) (length limit : ℕ)
  /-- "nothing to remember: send at least one memory, or an episode" -/
  | nothingToRemember
  /-- "<field>: a summary is written through `reflect`, …" -/
  | summary (field : String)
  /-- "episode.doc_kind needs episode.title: a document is an episode with a name" -/
  | kindWithoutTitle
  /-- "episode.tags and episode.mime describe a document: set episode.doc_kind … and
  episode.title" -/
  | labelsWithoutKind
  /-- "episode.tags has … entries; the limit is …" -/
  | tooManyTags (count limit : ℕ)
  /-- "a transcript is refused in the `user` space: …" -/
  | transcriptInUser
  /-- "derived_from is empty: …" -/
  | nothingCited
  /-- "derived_from takes ids as `memory:<id>`, `episode:<id>`, or bare; got …" -/
  | citationGrammar (text : Text)
  /-- "derived_from: no memory or episode … in …; …" -/
  | citesNothing (id : Raw ℕ) (spaces : List SpaceName)
  /-- "derived_from: …:… does not exist; that id names a …" -/
  | citesWrongTable (id : ℕ) (actual : Derivation)
  /-- "`cascade` only means something with `purge: true`: …" -/
  | cascadeWithoutPurge
  /-- "give `ids` or `query`, not both — …" -/
  | idsAndQuery
  /-- "forget needs `ids` (exact) or `query` (with `dry_run: true` first)" -/
  | nothingSelected
  /-- "forgetting by query needs the same call with `dry_run: true` first — …" -/
  | unconfirmed
  /-- "the store changed since the dry run: … matching row(s) were never previewed (…). …" -/
  | unseen (ids : List ℕ)
  /-- "each id must be `memory:<id>`, `episode:<id>`, or a bare id; got …" -/
  | referenceGrammar (text : Text)
  /-- "no memory or episode … in …; recall it first, or widen `space`" -/
  | missingMemory (id : ℕ) (spaces : List SpaceName)
  /-- "no episode … in …; recall it first, or widen `space`" -/
  | missingEpisode (id : EpisodeId) (spaces : List SpaceName)
  /-- "episode:… is verbatim text and has no validity window to close; …" -/
  | closingText (id : EpisodeId)
  /-- "… is one slice of episode:…; …" -/
  | slice (id : ℕ) (parent : EpisodeId)
  /-- "episode:… is a document (…) that … live claim(s) still cite: …. …" -/
  | stillCited (id : EpisodeId) (title : Option Text) (citers : List MemoryId)
  /-- A memory the space does not hold. -/
  | unknownMemory (space : SpaceName) (id : MemoryId)
  /-- "k must be between 1 and …" -/
  | kOutOfRange (max : ℕ)
  /-- "since must not be after until" -/
  | sinceAfterUntil
  /-- "budget_chars must be at least …" -/
  | budgetTooSmall (min : ℕ)
deriving DecidableEq

/-- The request was fine and could not be served. -/
inductive Failure where
  /-- "embedding failed: …" -/
  | embedding (message : Text)
  /-- "embedding the query failed: …" -/
  | queryEmbedding (message : Text)
  /-- "the embedder returned a different number of vectors than it was given" -/
  | vectorCount
  /-- "the store reported no memory for a batch of one" -/
  | noMemory
  /-- "the chain walk lost the memory it started from" -/
  | lostMemory
  | store (error : StoreError)
deriving DecidableEq

inductive ErrorData where
  | invalid (refusal : Refusal)
  | internal (failure : Failure)
deriving DecidableEq

/-- A store failure, sorted by whose fault it is. -/
def storeError : StoreError → ErrorData
  | .unknownMemory space id => .invalid (.unknownMemory space id)
  | other => .internal (.store other)

/-! ### The session -/

/-- The embedding backend: its width, its bands, and what it makes of passages. -/
structure Embedder where
  dim : ℕ
  thresholds : Thresholds
  embedPassages : List Text → Except Text (List Embedding)

/-- `--embedder none` -/
def Embedder.noop : Embedder where
  dim := 0
  thresholds := Thresholds.BGE_SMALL
  embedPassages passages := .ok (passages.map fun _ => [])

/-- The two searches of the engine: the `k` nearest vectors with their cosine distance, and the
memories that match the words of a text, in order of rank. -/
structure Engine where
  knn : Db → (k : ℕ) → Embedding → Except EngineError (List (MemoryId × ℚ))
  matching : Db → Text → List MemoryId

/-- One connection: its configured space and the size of its candidate pool. -/
structure Service where
  space : SpaceName
  pool : ℕ
  embedder : Embedder
  engine : Engine

def keywordCurrent : Text := ['c', 'u', 'r', 'r', 'e', 'n', 't']

def keywordAll : Text := ['a', 'l', 'l']

/-- Which spaces a read looks in. -/
def spaces (service : Service) (db : Db) (requested : Option Text) :
    Except ErrorData (List SpaceName) :=
  match requested with
  | none => .ok (if service.space = .user then [service.space] else [service.space, .user])
  | some name =>
    if name = keywordCurrent then .ok [service.space]
    else if name = keywordAll then .ok (Store.spaces db)
    else
      match SpaceName.new? name with
      | none => .error (.invalid (.spaceName name))
      | some space => .ok [space]

/-- Startup registers the configured space; any other is registered by the call that names it. -/
def register (service : Service) (db : Db) (space : SpaceName) (now : Timestamp) :
    Except ErrorData (Db × SpaceName) :=
  if space = service.space then .ok (db, space)
  else
    match ensureSpace db space now with
    | .error e => .error (storeError e)
    | .ok db => .ok (db, space)

/-- The space a write lands in, registered if it is a new one. -/
def resolveSpace (service : Service) (db : Db) (requested : Option Text) (now : Timestamp) :
    Except ErrorData (Db × SpaceName) :=
  match requested with
  | none => .ok (db, service.space)
  | some name =>
    if name = keywordCurrent then .ok (db, service.space)
    else if name = SpaceName.user.name then register service db .user now
    else if name = keywordAll then .error (.invalid .writeToAll)
    else
      match SpaceName.new? name with
      | none => .error (.invalid (.spaceName name))
      | some space => register service db space now

/-- A memory id as sent, or a message naming the field that was not one. -/
def memoryId (raw : Raw MemoryId) (field : String) : Except ErrorData MemoryId :=
  match raw with
  | .reads id => .ok id
  | .refused text => .error (.invalid (.recordId field text))

/-- The distinct ids of a `supersedes` list, in the order they were sent; `fieldAt` names the
entry at a position. -/
def supersedesFrom (fieldAt : ℕ → String) (seen : List MemoryId) :
    ℕ → List (Raw MemoryId) → Except ErrorData (List MemoryId)
  | _, [] => .ok seen
  | position, raw :: rest =>
    match memoryId raw (fieldAt position) with
    | .error e => .error e
    | .ok id =>
      supersedesFrom fieldAt (if id ∈ seen then seen else seen ++ [id]) (position + 1) rest

/-! ### The near-duplicate gate -/

structure Neighbour where
  id : MemoryId
  content : Text
  similarity : ℚ
deriving DecidableEq

/-- How many candidates the gate draws before narrowing to its space. -/
def NEAR_DUP_PROBE : ℕ := 256

/-- How many live neighbours the gate reports per probe. -/
def NEIGHBOURS : ℕ := 4

/-- The nearest live memories of `space` to one vector, closest first. -/
def neighboursOf (db : Db) (space : SpaceName) (candidates : List (MemoryId × ℚ)) :
    List Neighbour :=
  let live := candidates.filterMap fun c =>
    ((db.memory.get? c.1).filter fun r => decide (r.space = space) && r.isLive).map
      fun r => (r, c.2)
  ((live.insertionSort fun x y => x.2 ≤ y.2).take NEIGHBOURS).map fun x =>
    ⟨x.1.id, x.1.content, similarityFromDistance x.2⟩

/-- One probe per vector. -/
def nearestLive (engine : Engine) (db : Db) (space : SpaceName) :
    List Embedding → Except StoreError (List (List Neighbour))
  | [] => .ok []
  | vector :: vectors =>
    match engine.knn db NEAR_DUP_PROBE vector with
    | .error e => .error (.db e)
    | .ok candidates =>
      match nearestLive engine db space vectors with
      | .error e => .error e
      | .ok rest => .ok (neighboursOf db space candidates :: rest)

end Agmem.Tools
