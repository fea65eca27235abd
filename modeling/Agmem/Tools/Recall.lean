import Agmem.Core.Scoring
import Agmem.Tools.Occupancy
import Agmem.Tools.Hop
import Agmem.Tools.Abstain
import Agmem.Tools.Common

/-! The read verb. The store says what matched and the scores what still matters; two occupancy
passes, the hop's reserved place and the cut at `k` make a page of the order, and the page may be
cut where it did not match well. The filters alone list what they select. -/

namespace Agmem.Tools.Recall

open Core Store Scoring

/-- How many hits a call that does not say gets back. -/
def DEFAULT_K : ℕ := 10

structure RecallParams where
  query : Option Text
  k : Option ℕ
  space : Option Text
  kinds : List Kind
  entities : List Text
  tags : List Text
  asOf : Option (Raw Timestamp)
  since : Option (Raw Timestamp)
  until_ : Option (Raw Timestamp)
  changedSince : Option (Raw Timestamp)
  includeInvalidated : Bool

/-- What a recall reads with besides the session: the ceiling of `k`, the query side of the
embedder, the engine's rankings and the exponential. -/
structure Reader where
  service : Service
  maxK : ℕ
  embedQuery : Text → Except Text Embedding
  alphabet : Alphabet
  rankings : Rankings
  exp : ℚ → ℚ

/-! ### What a call asks -/

/-- How many hits to return, refused rather than silently clamped. -/
def resolveK (maxK : ℕ) (requested : Option ℕ) : Except ErrorData ℕ :=
  let k := requested.getD (min DEFAULT_K maxK)
  if k = 0 ∨ maxK < k then .error (.invalid (.kOutOfRange maxK)) else .ok k

/-- `as_of` is the more specific of the two and wins. -/
def resolveLiveness (asOf : Option (Raw Timestamp)) (includeInvalidated : Bool) :
    Except ErrorData Liveness :=
  match asOf with
  | some (.reads t) => .ok (.asOf t)
  | some (.refused text) => .error (.invalid (.instant "as_of" text))
  | none => .ok (if includeInvalidated then .any else .live)

def parse (field : String) : Option (Raw Timestamp) → Except ErrorData (Option Timestamp)
  | none => .ok none
  | some (.reads t) => .ok (some t)
  | some (.refused text) => .error (.invalid (.instant field text))

/-- The soft window this call ranks through. -/
def resolveWindow (since until_ changedSince : Option (Raw Timestamp)) :
    Except ErrorData (Option TemporalQuery) :=
  match parse "since" since with
  | .error e => .error e
  | .ok since =>
    match parse "until" until_ with
    | .error e => .error e
    | .ok until_ =>
      match parse "changed_since" changedSince with
      | .error e => .error e
      | .ok changedSince =>
        if since.isNone && until_.isNone && changedSince.isNone then .ok none
        else if (since.any fun s => until_.any fun u => decide (u < s)) = true then
          .error (.invalid .sinceAfterUntil)
        else .ok (some ⟨since, until_, changedSince⟩)

/-- The query vector for the semantic arms, if there is an embedder. -/
def embedQuery (reader : Reader) (text : Text) : Except ErrorData (Option Embedding) :=
  if reader.service.embedder.dim = 0 then .ok none
  else
    match reader.embedQuery text with
    | .error message => .error (.internal (.queryEmbedding message))
    | .ok vector => .ok (some vector)

/-! ### The pool -/

/-- How well a hit fits the window of the call; one without a date is left out of the term. -/
def temporalOf (exp : ℚ → ℚ) (window : Option TemporalQuery) (hit : Hit) : Option ℚ :=
  match window, hit with
  | some query, .memory memory =>
    some (temporalFit exp query ⟨memory.validFrom, memory.invalidAt⟩
      (match memory.invalidAt with
        | none => memory.createdAt
        | some t => max t memory.createdAt))
  | some query, .chunk chunk =>
    some (temporalFit exp query ⟨chunk.occurredAt, some chunk.occurredAt⟩ chunk.occurredAt)
  | none, _ => none

def signalsOf (exp : ℚ → ℚ) (window : Option TemporalQuery) (now : Timestamp)
    (candidate : Candidate) : Signals :=
  let signals := match candidate.hit with
    | .memory memory => Signals.forMemory exp candidate.rrf memory now
    | .chunk _ => Signals.forEpisodeChunk candidate.rrf
  { signals with
    similarity := candidate.similarity
    temporal := temporalOf exp window candidate.hit }

/-- The candidates in the order of their scores. -/
def rescore (exp : ℚ → ℚ) (window : Option TemporalQuery) (now : Timestamp)
    (candidates : List Candidate) : List (Hit × Ranked) :=
  rank (candidates.map fun c => (c.hit, signalsOf exp window now c))

/-! ### The page -/

/-- The source a hit occupies places under; what an agent wrote itself has none. -/
def sourceKey : Hit → Option Source
  | .memory memory => if memory.source = .agent then none else some memory.source
  | .chunk chunk => some (.episode chunk.episode)

/-- `VERBATIM_KEY`, which all verbatim text shares. -/
def verbatimKey : Hit → Option Unit
  | .memory _ => none
  | .chunk _ => some ()

/-- The id a hit answers to, whichever table it lives in. -/
def hitKey : Hit → ℕ
  | .memory memory => memory.id.ulid
  | .chunk chunk => chunk.id.ulid

/-- Whether the hop voted for a hit. -/
def isHopped (hopped : List MemoryId) : Hit → Bool
  | .memory memory => decide (memory.id ∈ hopped)
  | .chunk _ => false

/-- No single source may flood the page. -/
def bySource (k : ℕ) (ranked : List (Hit × Ranked)) :
    List (Hit × Ranked) × Option (Occupancy.Resliced Source) :=
  Occupancy.apply ranked k (Occupancy.cap k) fun row => sourceKey row.1

/-- Verbatim text, all of it together, may hold one place. -/
def byVerbatim (k : ℕ) (ranked : List (Hit × Ranked)) :
    List (Hit × Ranked) × Option (Occupancy.Resliced Unit) :=
  Occupancy.apply ranked k Occupancy.VERBATIM_CAP fun row => verbatimKey row.1

/-- The rows after both passes. -/
def occupied (k : ℕ) (ranked : List (Hit × Ranked)) : List (Hit × Ranked) :=
  (byVerbatim k (bySource k ranked).1).1

/-- The page: both passes, the hop's place, and the cut at `k`. -/
def page (k : ℕ) (hopped : List MemoryId) (ranked : List (Hit × Ranked)) : List (Hit × Ranked) :=
  (Hop.reserveTail (occupied k ranked) k fun row => isHopped hopped row.1).take k

/-- What the occupancy caps moved out of the page. -/
structure Capped where
  cap : ℕ
  displaced : ℕ
  sources : List Source
  verbatimDisplaced : ℕ
  verbatimCap : ℕ

def Capped.new? (cap : ℕ) (bySource : Option (Occupancy.Resliced Source))
    (verbatim : Option (Occupancy.Resliced Unit)) : Option Capped :=
  if bySource.isNone && verbatim.isNone then none
  else
    let verbatimDisplaced := (verbatim.map Occupancy.Resliced.displaced).getD 0
    some {
      cap := cap
      displaced := (bySource.map Occupancy.Resliced.displaced).getD 0 + verbatimDisplaced
      sources := (bySource.map Occupancy.Resliced.sources).getD []
      verbatimDisplaced := verbatimDisplaced
      verbatimCap := Occupancy.VERBATIM_CAP }

/-- The rows that the trim may not cut: the ones that the ranking alone had not put on the page,
and the ones the hop voted for. -/
def isProtected (byScore : List ℕ) (hopped : List MemoryId) (row : Hit × Ranked) : Bool :=
  decide (hitKey row.1 ∉ byScore) || isHopped hopped row.1

/-- The cut of a search; a listing is never cut. -/
def cut (floor : ℚ) (isSearch : Bool) (byScore : List ℕ) (hopped : List MemoryId)
    (page : List (Hit × Ranked)) : List (Hit × Ranked) × Option Abstain.Verdict :=
  if isSearch then
    Abstain.apply page floor (fun row => (row.2.signals.similarity, row.2.rrfNormalized))
      (isProtected byScore hopped)
  else (page, none)

/-! ### The answer -/

inductive HitKind where
  | fact
  | lesson
  | instruction
  | summary
  | episode
deriving DecidableEq

def HitKind.ofKind : Kind → HitKind
  | .fact => .fact
  | .lesson => .lesson
  | .instruction => .instruction
  | .summary => .summary

/-- The document a verbatim hit is a slice of. -/
structure DocRef where
  id : EpisodeId
  title : Text
  docKind : DocKind
  position : ℕ

structure RecallHit where
  id : ℕ
  kind : HitKind
  content : Text
  space : SpaceName
  score : ℚ
  rrfNormalized : ℚ
  signals : Signals
  source : Source
  entities : List Text
  tags : List Text
  validFrom : Option Timestamp
  invalidAt : Option Timestamp
  invalidReason : Option InvalidReason
  supersededBy : Option MemoryId
  covers : Option (List Derivation)
  doc : Option DocRef

def RecallHit.new (hit : Hit) (ranked : Ranked) (doc : Option DocRef) : RecallHit :=
  match hit with
  | .memory memory => {
      id := memory.id.ulid
      kind := .ofKind memory.kind
      content := memory.content
      space := memory.space
      score := ranked.score
      rrfNormalized := ranked.rrfNormalized
      signals := ranked.signals
      source := memory.source
      entities := memory.entities
      tags := memory.tags
      validFrom := some memory.validFrom
      invalidAt := memory.invalidAt
      invalidReason := memory.invalidReason
      supersededBy := memory.supersededBy
      covers := if memory.kind = .summary ∧ memory.derivedFrom ≠ [] then some memory.derivedFrom
        else none
      doc := none }
  | .chunk chunk => {
      id := chunk.id.ulid
      kind := .episode
      content := chunk.text
      space := chunk.space
      score := ranked.score
      rrfNormalized := ranked.rrfNormalized
      signals := ranked.signals
      source := .episode chunk.episode
      entities := []
      tags := []
      validFrom := none
      invalidAt := none
      invalidReason := none
      supersededBy := none
      covers := none
      doc := doc }

/-- What a `k` left behind. -/
structure Truncated where
  matchingClaims : ℕ
  returnedClaims : ℕ
  k : ℕ
deriving DecidableEq

/-- What the window did to the page. -/
structure Dated where
  window : TemporalQuery
  bestFit : Option ℚ

structure RecallResult where
  spaces : List SpaceName
  hits : List RecallHit
  capped : Option Capped
  truncated : Option Truncated
  cut : Option Abstain.Verdict
  dated : Option Dated

/-- The header of the document a chunk belongs to; an anonymous episode has none. -/
def documentHeader (db : Db) (chunk : EpisodeChunk) : Except StoreError (Option DocRef) :=
  match db.episode.get? chunk.episode with
  | none => .ok none
  | some e =>
    if e.space = chunk.space then
      match e.docKind, e.title with
      | none, _ => .ok none
      | some _, none => .error (.unexpectedResponse "a document without a title")
      | some docKind, some title => .ok (some ⟨e.id, title, docKind, chunk.position⟩)
    else .ok none

def docOf (db : Db) : Hit → Except StoreError (Option DocRef)
  | .memory _ => .ok none
  | .chunk chunk => documentHeader db chunk

/-- The page as the agent sees it. -/
def hits (db : Db) : List (Hit × Ranked) → Except StoreError (List RecallHit)
  | [] => .ok []
  | row :: rows =>
    match docOf db row.1 with
    | .error e => .error e
    | .ok doc =>
      match hits db rows with
      | .error e => .error e
      | .ok rest => .ok (RecallHit.new row.1 row.2 doc :: rest)

def memoryOf : Hit → Option MemoryId
  | .memory memory => some memory.id
  | .chunk _ => none

/-- The memories of a page. -/
def touched (page : List (Hit × Ranked)) : List MemoryId := page.filterMap fun row => memoryOf row.1

/-- Being recalled keeps a memory alive; only a live read counts, and a failure is dropped. -/
def reinforce (db : Db) (liveness : Liveness) (ids : List MemoryId) (now : MemoryId → Timestamp) :
    Db :=
  match liveness with
  | .live =>
    match Store.reinforce db ids now with
    | .error _ => db
    | .ok (db, _) => db
  | .asOf _ | .any => db

/-- Counted only when the page filled up. -/
def truncated (db : Db) (lookup : Lookup) (k considered returned : ℕ) (abstained : Bool) :
    Option Truncated :=
  if considered = k ∧ abstained = false then
    let matching := countMatching db lookup
    if returned < matching then some ⟨matching, returned, k⟩ else none
  else none

/-- The instants that one call reads. -/
structure Now where
  ranked : Timestamp
  reinforced : MemoryId → Timestamp

/-- The call once it has its candidates. -/
def answer (reader : Reader) (db : Db) (lookup : Lookup) (window : Option TemporalQuery) (k : ℕ)
    (isSearch : Bool) (candidates : List Candidate) (hopped : List MemoryId) (now : Now) :
    Db × Except ErrorData RecallResult :=
  let ranked := rescore reader.exp window now.ranked candidates
  let byScore := (ranked.take k).map fun row => hitKey row.1
  let capped := Capped.new? (Occupancy.cap k) (bySource k ranked).2
    (byVerbatim k (bySource k ranked).1).2
  let full := page k hopped ranked
  let kept := cut reader.service.embedder.thresholds.abstention isSearch byScore hopped full
  let abstained := kept.2.any fun verdict => decide (verdict.kept = 0)
  let db := reinforce db lookup.liveness (touched kept.1) now.reinforced
  match hits db kept.1 with
  | .error e => (db, .error (storeError e))
  | .ok hits =>
    (db, .ok {
      spaces := lookup.spaces
      hits := hits
      capped := if abstained then none else capped
      truncated := truncated db lookup k full.length (touched kept.1).length abstained
      cut := kept.2
      dated := window.map fun w =>
        ⟨w, (kept.1.filterMap fun row => row.2.signals.temporal).max?⟩ })

/-- What a lookup without words finds, as candidates without a score. -/
def listed (memory : MemoryRecord) : Candidate := ⟨0, none, .memory memory⟩

/-- A text that says something. -/
def asked (query : Option Text) : Option Text := query.filter fun text => !(trim text).isEmpty

/-- Run the read path. -/
def run (reader : Reader) (db : Db) (params : RecallParams) (now : Now) :
    Db × Except ErrorData RecallResult :=
  match spaces reader.service db params.space with
  | .error e => (db, .error e)
  | .ok spaces =>
    match resolveK reader.maxK params.k with
    | .error e => (db, .error e)
    | .ok k =>
      match resolveLiveness params.asOf params.includeInvalidated with
      | .error e => (db, .error e)
      | .ok liveness =>
        match resolveWindow params.since params.until_ params.changedSince with
        | .error e => (db, .error e)
        | .ok window =>
          let filters : Filters := ⟨params.kinds, params.entities, params.tags⟩
          let lookup : Lookup := ⟨spaces, filters, liveness, reader.service.pool⟩
          match asked params.query with
          | none =>
            answer reader db lookup window k false ((directLookup db lookup).map listed) [] now
          | some text =>
            match embedQuery reader text with
            | .error e => (db, .error e)
            | .ok vector =>
              let search : Search :=
                ⟨spaces, some text, vector, filters, liveness, reader.service.pool, true⟩
              match (searchHybrid reader.alphabet reader.rankings search).alone db with
              | .error e => (db, .error (storeError e))
              | .ok candidates =>
                let widened := Hop.run db spaces filters liveness candidates
                answer reader db lookup window k true widened.1 widened.2 now

end Agmem.Tools.Recall
