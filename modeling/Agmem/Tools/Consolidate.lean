import Agmem.Core.Decay
import Agmem.Core.Unit
import Agmem.Links.Union
import Agmem.Store.Citers
import Agmem.Tools.Context

/-! `consolidate`: what is worth cleaning up. The live vectors of a space are compared all with all;
close pairs are gathered into clusters, close pairs about one subject are offered as contradictions,
and tags with more lessons than the bound are listed. Nothing here writes. The square root, the
logarithm of the horizon and the order of a hash table are taken from outside. -/

namespace Agmem.Tools.Consolidate

open Core Relational Store Links Scoring

/-- The largest cluster reported as one. -/
def MAX_CLUSTER_MEMBERS : ℕ := 8

def MAX_CLUSTERS : ℕ := 20

def MAX_CONTRADICTIONS : ℕ := 20

def ORPHAN_GRACE_DAYS : ℕ := 30

def CHURN_VERSIONS : ℕ := 3

/-- What is taken from outside: the square root, the natural logarithm, and the order in which a
hash table gives its values. -/
structure Outside where
  sqrt : ℚ → ℚ
  log : ℚ → ℚ
  order : List (List ℕ) → List (List ℕ)
  perm : ∀ values, (order values).Perm values

/-! ### The answer -/

structure SpaceScan where
  space : SpaceName
  compared : ℕ
  truncated : Bool

/-- Live claims close enough to be one claim, strongest first. -/
structure Cluster where
  space : SpaceName
  members : List MemoryRecord
  minSimilarity : ℚ
  maxSimilarity : ℚ

/-- Two live claims naming one subject. -/
structure Contradiction where
  space : SpaceName
  sharedEntities : List Text
  a : MemoryRecord
  b : MemoryRecord
  similarity : ℚ

structure OverFullTag where
  space : SpaceName
  tag : Text
  live : ℕ
  keep : ℕ
  members : List MemoryRecord

structure StaleContext where
  claim : MemoryRecord
  idleDays : ℚ
  expiresInDays : ℚ

structure OrphanDocument where
  space : SpaceName
  episode : EpisodeId
  title : Text
  docKind : DocKind
  chars : ℕ
  createdAt : Timestamp
  ageDays : ℕ

structure ChurningDocument where
  space : SpaceName
  churn : DocumentChurn

structure ConsolidateResult where
  spaces : List SpaceName
  scanned : List SpaceScan
  nearDuplicates : List Cluster
  contradictions : List Contradiction
  staleContexts : List StaleContext
  overFullTags : List OverFullTag
  orphanDocuments : List OrphanDocument
  churningDocuments : List ChurningDocument
  note : Option String

/-! ### Near duplicates and contradictions -/

/-- `for left in 0..n` and `for right in (left + 1)..n` -/
def pairs (n : ℕ) : List (ℕ × ℕ) :=
  (List.range n).flatMap fun left =>
    ((List.range n).filter fun right => decide (left < right)).map fun right => (left, right)

/-- The similarity of every pair that has one, the lower index first. -/
def scores (sqrt : ℚ → ℚ) (rows : List Embedded) : List ((ℕ × ℕ) × ℚ) :=
  let units := rows.map fun row => UnitVector.new? sqrt row.embedding
  (pairs rows.length).filterMap fun p =>
    (units[p.1]?.join).bind fun a => (units[p.2]?.join).map fun b => (p, a.similarity b)

/-- The rows as the close pairs join them. -/
def groups (bands : Thresholds) (scores : List ((ℕ × ℕ) × ℚ)) : Union :=
  Union.new.joins ((scores.filter fun s => bands.isClusterCandidate s.2).map Prod.fst)

/-- The roots of the rows in order; each lookup shortens the paths for the next. -/
def rootsFrom (u : Union) : List ℕ → List ℕ
  | [] => []
  | i :: rest => (u.root i).2 :: rootsFrom (u.root i).1 rest

/-- The indices of each root. -/
def grouped (n : ℕ) (u : Union) : List (List ℕ) :=
  let roots := (List.range n).zip (rootsFrom u (List.range n))
  (roots.map Prod.snd).dedup.map fun root =>
    (roots.filter fun p => decide (p.2 = root)).map Prod.fst

def pairsWithin : List ℕ → List (ℕ × ℕ)
  | [] => []
  | left :: rest => (rest.map fun right => (min left right, max left right)) ++ pairsWithin rest

/-- The weakest and the closest pair of a group, none where a pair has no similarity. -/
def extremes (scores : List ((ℕ × ℕ) × ℚ)) (group : List ℕ) : Option (ℚ × ℚ) :=
  if (pairsWithin group).all fun p => (scores.lookup p).isSome then
    match (pairsWithin group).filterMap fun p => scores.lookup p with
    | [] => none
    | s :: rest => some (rest.foldl min s, rest.foldl max s)
  else none

def clusterOf (space : SpaceName) (rows : List Embedded) (scores : List ((ℕ × ℕ) × ℚ))
    (group : List ℕ) : Option Cluster :=
  let listed := group.take MAX_CLUSTER_MEMBERS
  (extremes scores listed).map fun e =>
    ⟨space, listed.filterMap fun i => rows[i]?.map Embedded.memory, e.1, e.2⟩

variable [Hashing]

/-- The subjects two claims both name, without regard to case, as the first one spells them. -/
def sharedEntities (left right : MemoryRecord) : List Text :=
  left.entities.filter fun entity =>
    decide (Hashing.toLowercase entity ∈ right.entities.map Hashing.toLowercase)

def contradictionOf (space : SpaceName) (bands : Thresholds) (rows : List Embedded)
    (s : (ℕ × ℕ) × ℚ) : Option Contradiction :=
  if bands.isContradictionCandidate s.2 then
    (rows[s.1.1]?).bind fun a => (rows[s.1.2]?).bind fun b =>
      let shared := sharedEntities a.memory b.memory
      if shared.isEmpty then none else some ⟨space, shared, a.memory, b.memory, s.2⟩
  else none

/-- `compare`, its clusters closest first. -/
def clustersOf (outside : Outside) (space : SpaceName) (rows : List Embedded)
    (bands : Thresholds) : List Cluster :=
  let scores := scores outside.sqrt rows
  (((outside.order (grouped rows.length (groups bands scores))).filter fun group =>
    decide (1 < group.length)).filterMap (clusterOf space rows scores)).insertionSort
      fun c d => d.maxSimilarity ≤ c.maxSimilarity

/-- `compare`, its contradictions in the order of the pairs. -/
def contradictionsOf (outside : Outside) (space : SpaceName) (rows : List Embedded)
    (bands : Thresholds) : List Contradiction :=
  (scores outside.sqrt rows).filterMap (contradictionOf space bands rows)

/-! ### Over-full tags -/

omit [Hashing] in
/-- The lessons of a tag, once for each time one names it. -/
def lessonsOf (lessons : List MemoryRecord) (tag : Text) : List MemoryRecord :=
  lessons.flatMap fun lesson =>
    (lesson.tags.filter fun named => decide (named = tag)).map fun _ => lesson

omit [Hashing] in
/-- The tags whose live lessons outgrew the bound, fullest first within one space. -/
def overFullTags (space : SpaceName) (lessons : List MemoryRecord) : List OverFullTag :=
  let byTag := (lessons.flatMap MemoryRecord.tags).dedup.map fun tag =>
    (tag, lessonsOf lessons tag)
  ((byTag.filter fun entry => decide (Context.LESSONS_PER_TAG < entry.2.length)).map fun entry =>
    ⟨space, entry.1, entry.2.length, Context.LESSONS_PER_TAG,
      entry.2.take MAX_CLUSTER_MEMBERS⟩ : List OverFullTag).insertionSort fun s t =>
        t.live < s.live ∨ t.live = s.live ∧ textLe s.tag t.tag = true

/-- All live lessons of a space, strongest first, as many as a lookup returns. -/
def lessonsRead (db : Db) (space : SpaceName) : List MemoryRecord :=
  directLookup db ⟨[space], ⟨[.lesson], [], []⟩, .live, MAX_POOL⟩

/-! ### Stale contexts, and documents -/

/-- How often a memory must have been recalled to count. -/
def MIN_ACCESS_COUNT : ℕ := 5

def DEFAULT_POOL : ℕ := 64

/-- `stale_contexts`: the selection of the sweep without the strength, most overdue first. -/
def staleContexts (db : Db) (space : SpaceName) (horizon : ℚ) (now : Timestamp) :
    List MemoryRecord :=
  (((db.memory.rows.filter fun r => decide (r.space = space) &&
    decide (r.decayClass = PRUNE_CLASS) && r.isLive && decide (MIN_ACCESS_COUNT ≤ r.accessCount) &&
      decide (r.lastAccessed + mathRound horizon * 1000000000 < now)).insertionSort
        fun r q => r.lastAccessed ≤ q.lastAccessed).take (clampPool DEFAULT_POOL)).map
          MemoryRecord.read

/-- `prune_horizon_secs` -/
def pruneHorizonSecs (log : ℚ → ℚ) : Option ℚ := decayHorizonSecs log PRUNE_CLASS PRUNE_RETENTION

/-- How far past its class one reinforced note has been carried. -/
def overdue (log : ℚ → ℚ) (now : Timestamp) (claim : MemoryRecord) : StaleContext :=
  let idle : ℚ := max (idleSecs claim.lastAccessed now) 0
  let horizon := (pruneHorizonSecs log).getD 0
  ⟨claim, idle / SECONDS_PER_DAY,
    max (horizon * stability claim.strength - idle) 0 / SECONDS_PER_DAY⟩

/-- `age.as_hours().div_euclid(24)`, as far as 32 bits hold it. -/
def ageDays (createdAt now : Timestamp) : ℕ :=
  let days := (now - createdAt).tdiv (3600 * 10 ^ 9) / 24
  if 0 ≤ days ∧ days < 2 ^ 32 then days.toNat else 0

def orphanOf (space : SpaceName) (now : Timestamp) (document : Episode) : Option OrphanDocument :=
  document.title.bind fun title => document.docKind.map fun docKind =>
    ⟨space, document.id, title, docKind, document.content.length, document.createdAt,
      ageDays document.createdAt now⟩

/-! ### run -/

/-- The clock as one space meets it: by the engine for each of its two queries, and by the server
for each note and for the age of the documents. -/
structure Readings where
  stale : Timestamp
  overdue : MemoryId → Timestamp
  orphans : Timestamp
  age : Timestamp

/-- What one space has to offer. -/
structure Found where
  scan : SpaceScan
  clusters : List Cluster
  contradictions : List Contradiction
  stale : List StaleContext
  overFull : List OverFullTag
  orphans : List OrphanDocument
  churning : List ChurningDocument

def examine (outside : Outside) (service : Service) (db : Db) (clock : SpaceName → Readings)
    (space : SpaceName) : Except ErrorData Found :=
  match (liveVectors space MAX_POOL).alone db with
  | .error e => .error (storeError e)
  | .ok rows =>
    let stale := (pruneHorizonSecs outside.log).elim [] fun horizon =>
      staleContexts db space horizon (clock space).stale
    match churningDocuments db space CHURN_VERSIONS with
    | .error e => .error (storeError e)
    | .ok churning => .ok {
        scan := ⟨space, rows.length, decide (rows.length = MAX_POOL)⟩
        clusters := clustersOf outside space rows service.embedder.thresholds
        contradictions := contradictionsOf outside space rows service.embedder.thresholds
        stale := stale.map fun claim => overdue outside.log ((clock space).overdue claim.id) claim
        overFull := overFullTags space (lessonsRead db space)
        orphans := (orphanDocuments db space ORPHAN_GRACE_DAYS (clock space).orphans).filterMap
          (orphanOf space (clock space).age)
        churning := churning.map (⟨space, ·⟩) }

/-- `for space in &spaces` -/
def examineAll (outside : Outside) (service : Service) (db : Db) (clock : SpaceName → Readings) :
    List SpaceName → Except ErrorData (List Found)
  | [] => .ok []
  | space :: rest =>
    match examine outside service db clock space with
    | .error e => .error e
    | .ok found =>
      match examineAll outside service db clock rest with
      | .error e => .error e
      | .ok others => .ok (found :: others)

omit [Hashing] in
/-- Why an answer is thinner than the store is, when it is. -/
def note (service : Service) (truncated capped tagsCapped : Bool) : Option String :=
  let reasons :=
    (if service.embedder.dim = 0 then
      ["this server runs without an embedder, so nothing has a vector and neither " ++
        "`near_duplicates` nor `contradictions` can be computed; `stale_contexts` is unaffected"]
      else []) ++
    (if truncated then
      ["a space holds more live memories than one pass compares — the strongest were " ++
        "kept, so call again after acting on these"]
      else []) ++
    (if capped then
      ["more near-duplicate clusters or contradiction candidates were found than one " ++
        "answer carries — the closest were kept, so call again after acting on these"]
      else []) ++
    (if tagsCapped then
      ["more over-full tags were found than one answer carries — the fullest were " ++
        "kept, so call again after acting on these"]
      else [])
  if reasons.isEmpty then none else some (String.intercalate "; " reasons)

/-- Closest, longest and fullest first, so that a cap keeps what is most worth acting on. -/
def report (service : Service) (spaces : List SpaceName) (found : List Found) :
    ConsolidateResult :=
  let clusters := found.flatMap Found.clusters
  let contradictions := found.flatMap Found.contradictions
  let overFull := found.flatMap Found.overFull
  { spaces := spaces
    scanned := found.map Found.scan
    nearDuplicates := (clusters.insertionSort fun c d =>
      d.maxSimilarity ≤ c.maxSimilarity).take MAX_CLUSTERS
    contradictions := (contradictions.insertionSort fun c d =>
      d.similarity ≤ c.similarity).take MAX_CONTRADICTIONS
    staleContexts := (found.flatMap Found.stale).insertionSort fun s t => t.idleDays ≤ s.idleDays
    overFullTags := (overFull.insertionSort fun s t => t.live ≤ s.live).take MAX_CLUSTERS
    orphanDocuments := found.flatMap Found.orphans
    churningDocuments := found.flatMap Found.churning
    note := note service (found.any fun f => f.scan.truncated)
      (decide (MAX_CLUSTERS < clusters.length) ||
        decide (MAX_CONTRADICTIONS < contradictions.length))
      (decide (MAX_CLUSTERS < overFull.length)) }

/-- One `consolidate` call; without a space it looks at the current one alone. -/
def run (outside : Outside) (service : Service) (db : Db) (clock : SpaceName → Readings)
    (requested : Option Text) : Except ErrorData ConsolidateResult :=
  match spaces service db (some (requested.getD keywordCurrent)) with
  | .error e => .error e
  | .ok spaces =>
    match examineAll outside service db clock spaces with
    | .error e => .error e
    | .ok found => .ok (report service spaces found)

end Agmem.Tools.Consolidate
