import Agmem.Store.Read
import Agmem.Core.Dedup
import Agmem.Transition.Script

/-! The reads that are scripts of several statements: the hybrid search, the live vectors and the
walk along a chain of corrections. The statements before the last list ids, ranked or linked; the
last one fetches the rows behind them, and the answer is put together by id. The rankings of the
engine are taken from outside. -/

namespace Agmem.Store

open Core Relational Links Transition Scripts
open Columns (toDatetime)

/-! ### search_hybrid -/

structure Filters where
  kinds : List Kind
  entities : List Text
  tags : List Text

inductive Liveness where
  | live
  | asOf (at_ : Timestamp)
  | any

structure Search where
  spaces : List SpaceName
  text : Option Text
  vector : Option Embedding
  filters : Filters
  liveness : Liveness
  pool : ℕ
  episodes : Bool

def MAX_POOL : ℕ := 1000

def OVER_FETCH : ℕ := 4

def EF_SEARCH : ℕ := 80

def RRF_K : ℕ := 60

def MAX_TERMS : ℕ := 12

/-- `clamp(1, MAX_POOL)` -/
def clampPool (n : ℕ) : ℕ := min (max n 1) MAX_POOL

/-- A row of either table that a search can rank. -/
inductive HitId where
  | memory (id : MemoryId)
  | chunk (id : ChunkId)
deriving DecidableEq

/-- What the engine ranks: the rows of a table that match the words, best first; its nearest
vectors, with their distance; and the fusion of several rankings into one. -/
structure Rankings where
  matching : Db → List Text → List MemoryId
  nearest : Db → (k ef : ℕ) → Embedding → List (MemoryId × ℚ)
  matchingChunks : Db → List Text → List ChunkId
  nearestChunks : Db → (k ef : ℕ) → Embedding → List (ChunkId × ℚ)
  rrf : List (List HitId) → (limit k : ℕ) → List (HitId × ℚ)

/-- What Unicode says of characters and words. -/
structure Alphabet where
  isAlphanumeric : Char → Bool
  toLowercase : Text → Text

/-- The words of the tokens, after those that there are already. -/
def termsFrom (alphabet : Alphabet) : List Text → List Text → List Text
  | terms, [] => terms
  | terms, token :: tokens =>
    if token = [] then termsFrom alphabet terms tokens
    else
      let term := alphabet.toLowercase token
      let terms := if term ∈ terms then terms else terms ++ [term]
      if terms.length = MAX_TERMS then terms else termsFrom alphabet terms tokens

/-- The words a fulltext arm searches for. -/
def terms (alphabet : Alphabet) (text : Text) : List Text :=
  termsFrom alphabet [] (text.splitOnP fun c => !alphabet.isAlphanumeric c)

/-- `CONTAINSANY`; a filter that is empty is left out. -/
def containsAny (values : List Text) (wanted : List Text) : Bool :=
  wanted.isEmpty || values.any fun v => decide (v ∈ wanted)

/-- The conditions every read of memories shares. -/
def memoryWhere (spaces : List SpaceName) (filters : Filters) (liveness : Liveness)
    (r : MemoryRecord) : Bool :=
  decide (r.space ∈ spaces) &&
  (match liveness with
    | .live => r.isLive
    | .asOf t => decide (r.validFrom ≤ toDatetime t) &&
        r.invalidAt.all fun until_ => decide (toDatetime t < until_)
    | .any => true) &&
  (filters.kinds.isEmpty || decide (r.kind ∈ filters.kinds)) &&
  containsAny r.entities filters.entities && containsAny r.tags filters.tags

def chunkWhere (spaces : List SpaceName) (liveness : Liveness) (c : EpisodeChunk) : Bool :=
  decide (c.space ∈ spaces) &&
  (match liveness with
    | .asOf t => decide (c.occurredAt ≤ toDatetime t)
    | .live | .any => true)

/-- The arms so far, what the vector arms measured, and the fused order. -/
structure SearchNote where
  arms : List (List HitId)
  nearest : List (HitId × ℚ)
  fused : List (HitId × ℚ)

abbrev SearchStatement := Db → SearchNote → Except StoreError SearchNote

/-- `LET $ft` -/
def fulltextArm (rankings : Rankings) (search : Search) (terms : List Text) : SearchStatement :=
  fun db note =>
    let ids := ((rankings.matching db terms).filter fun id => (db.memory.get? id).any
      (memoryWhere search.spaces search.filters search.liveness)).take (clampPool search.pool)
    .ok { note with arms := note.arms ++ [ids.map .memory] }

/-- `LET $vs` -/
def vectorArm (rankings : Rankings) (search : Search) (vector : Embedding) : SearchStatement :=
  fun db note =>
    let drawn := rankings.nearest db (clampPool search.pool * OVER_FETCH) EF_SEARCH vector
    let rows := (drawn.filter fun near => (db.memory.get? near.1).any
      (memoryWhere search.spaces search.filters search.liveness)).take (clampPool search.pool)
    let rows := rows.map fun near => (.memory near.1, near.2)
    .ok { note with arms := note.arms ++ [rows.map Prod.fst], nearest := note.nearest ++ rows }

/-- `LET $ftc` -/
def chunkTextArm (rankings : Rankings) (search : Search) (terms : List Text) : SearchStatement :=
  fun db note =>
    let ids := ((rankings.matchingChunks db terms).filter fun id => (db.episodeChunk.get? id).any
      (chunkWhere search.spaces search.liveness)).take (clampPool search.pool)
    .ok { note with arms := note.arms ++ [ids.map .chunk] }

/-- `LET $vsc` -/
def chunkVectorArm (rankings : Rankings) (search : Search) (vector : Embedding) : SearchStatement :=
  fun db note =>
    let drawn := rankings.nearestChunks db (clampPool search.pool * OVER_FETCH) EF_SEARCH vector
    let rows := (drawn.filter fun near => (db.episodeChunk.get? near.1).any
      (chunkWhere search.spaces search.liveness)).take (clampPool search.pool)
    let rows := rows.map fun near => (.chunk near.1, near.2)
    .ok { note with arms := note.arms ++ [rows.map Prod.fst], nearest := note.nearest ++ rows }

/-- `LET $fused` -/
def fuse (rankings : Rankings) (search : Search) : SearchStatement :=
  fun _ note => .ok { note with fused := rankings.rrf note.arms (clampPool search.pool) RRF_K }

/-- The arms a search has, in the order of the script. -/
def searchArms (rankings : Rankings) (search : Search) (terms : List Text) : List SearchStatement :=
  (if terms.isEmpty then [] else [fulltextArm rankings search terms]) ++
  (search.vector.toList.map (vectorArm rankings search)) ++
  (if search.episodes && !terms.isEmpty then [chunkTextArm rankings search terms] else []) ++
  (if search.episodes then search.vector.toList.map (chunkVectorArm rankings search) else [])

/-- Reads do not project the vector. -/
def MemoryRecord.read (r : MemoryRecord) : MemoryRecord := { r with embedding := none }

def EpisodeChunk.read (c : EpisodeChunk) : EpisodeChunk := { c with embedding := none }

inductive Hit where
  | memory (row : MemoryRecord)
  | chunk (row : EpisodeChunk)

def Hit.id : Hit → HitId
  | .memory r => .memory r.id
  | .chunk c => .chunk c.id

/-- The row behind a ranked id, if it is there. -/
def hitOf (db : Db) : HitId → Option Hit
  | .memory id => (db.memory.get? id).map fun r => .memory (MemoryRecord.read r)
  | .chunk id => (db.episodeChunk.get? id).map fun c => .chunk (EpisodeChunk.read c)

structure Candidate where
  rrf : ℚ
  similarity : Option ℚ
  hit : Hit

/-- The similarity that a vector arm measured; a later arm overrides an earlier one. -/
def similarityOf (nearest : List (HitId × ℚ)) (id : HitId) : Option ℚ :=
  (nearest.reverse.find? fun near => decide (near.1 = id)).map fun near =>
    similarityFromDistance near.2

/-- The `RETURN` of the search, and the candidates made of it: every scored id takes its row out of
the rows that were returned. -/
def candidates (db : Db) (note : SearchNote) : Except StoreError (List Candidate) :=
  match takeBy Hit.id (.unexpectedResponse "the search scored a row it did not return")
      ((note.fused.map Prod.fst).filterMap (hitOf db)) (note.fused.map Prod.fst) with
  | .error e => .error e
  | .ok hits => .ok (List.zipWith
      (fun scored hit => ⟨scored.2, similarityOf note.nearest scored.1, hit⟩) note.fused hits)

/-- Hybrid search over memories and episode chunks. -/
def searchHybrid (alphabet : Alphabet) (rankings : Rankings) (search : Search) :
    Script Db SearchNote StoreError (List Candidate) :=
  let terms := terms alphabet (search.text.getD [])
  if terms.isEmpty && search.vector.isNone then
    { start := ⟨[], [], []⟩, statements := [], answer := fun _ _ => .ok [] }
  else
    { start := ⟨[], [], []⟩
      statements := searchArms rankings search terms ++ [fuse rankings search]
      answer := candidates }

/-! ### live_vectors -/

structure Embedded where
  memory : MemoryRecord
  embedding : Embedding

/-- `ORDER BY strength DESC, id DESC` -/
def strongestFirst (rows : List MemoryRecord) : List MemoryRecord :=
  rows.insertionSort fun r q =>
    q.strength < r.strength ∨ q.strength = r.strength ∧ q.id.ulid ≤ r.id.ulid

/-- `LET $ids` -/
def embeddedIds (space : SpaceName) (limit : ℕ) (db : Db) : List MemoryId :=
  ((strongestFirst (db.memory.rows.filter fun r =>
    decide (r.space = space) && r.isLive && r.embedding.isSome)).take (clampPool limit)).map
      MemoryRecord.id

/-- The `RETURN` of the scan: the rows and their vectors, paired by id. -/
def pairVectors (db : Db) (ids : List MemoryId) : Except StoreError (List Embedded) :=
  let memories := ids.filterMap db.memory.get?
  let vectors := memories.filterMap fun r => r.embedding.map fun v => (r.id, v)
  match takeBy Prod.fst (.unexpectedResponse "a selected memory came back without its vector")
      vectors (memories.map MemoryRecord.id) with
  | .error e => .error e
  | .ok vectors => .ok (List.zipWith (fun r v => ⟨MemoryRecord.read r, v.2⟩) memories vectors)

/-- Every live memory in `space` that has a vector, with it. -/
def liveVectors (space : SpaceName) (limit : ℕ) :
    Script Db (List MemoryId) StoreError (List Embedded) where
  start := []
  statements := [fun db _ => .ok (embeddedIds space limit db)]
  answer := pairVectors

/-! ### direct_lookup -/

structure Lookup where
  spaces : List SpaceName
  filters : Filters
  liveness : Liveness
  limit : ℕ

/-- The rows that the filters select. -/
def Lookup.selected (lookup : Lookup) (db : Db) : List MemoryRecord :=
  db.memory.rows.filter (memoryWhere lookup.spaces lookup.filters lookup.liveness)

/-- The filters alone, strongest first. -/
def directLookup (db : Db) (lookup : Lookup) : List MemoryRecord :=
  ((strongestFirst (lookup.selected db)).take (clampPool lookup.limit)).map MemoryRecord.read

/-- How many memories the filters select, with no limit. -/
def countMatching (db : Db) (lookup : Lookup) : ℕ := (lookup.selected db).length

/-! ### history_chain -/

/-- The two halves of a walk. -/
structure WalkNote where
  earlier : List MemoryId
  later : List MemoryId

/-- `LET $chain` -/
def WalkNote.chain (target : MemoryId) (note : WalkNote) : List MemoryId :=
  note.earlier ++ [target] ++ note.later

abbrev WalkStatement := Db → WalkNote → Except StoreError WalkNote

/-- `EXISTING_MEMORIES`, as a request of its own. -/
def beginWalk (space : SpaceName) (target : MemoryId) : WalkStatement := fun db note =>
  match ensureMemoriesExist db space [target] with
  | .error e => .error e
  | .ok () => .ok note

/-- `LET $earlier` -/
def walkBack (target : MemoryId) : WalkStatement := fun db note =>
  .ok { note with earlier := (collect (supersedesOf db) MAX_CHAIN target).reverse }

/-- `LET $later` -/
def walkAhead (target : MemoryId) : WalkStatement := fun db note =>
  .ok { note with later := collect (supersededByOf db) MAX_CHAIN target }

/-- `history_chain`, statement by statement. -/
def walkScript (space : SpaceName) (target : MemoryId) :
    Script Db WalkNote StoreError (List MemoryRecord) where
  start := ⟨[], []⟩
  statements := [beginWalk space target, walkBack target, walkAhead target]
  answer db note := takeRows ((note.chain target).filterMap db.memory.get?) (note.chain target)

/-- With the store to itself, the script is the walk. -/
theorem walkScript_alone (db : Db) (space : SpaceName) (target : MemoryId) :
    (walkScript space target).alone db = historyChain db space target := by
  simp only [Script.alone, walkScript, Script.aloneFrom, beginWalk, walkBack, walkAhead,
    historyChain]
  cases ensureMemoriesExist db space [target] with
  | error e => rfl
  | ok u => simp only [chainRow, WalkNote.chain]

end Agmem.Store
