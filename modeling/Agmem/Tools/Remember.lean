import Agmem.Tools.Common

/-! The write verb. Everything a call sends is validated before anything is embedded; a
claim that a live neighbour already makes is reported instead of stored, unless it names
what it supersedes; what is left is one batch. -/

namespace Agmem.Tools.Remember

open Core Relational Store

/-! ### Parameters and results -/

structure MemoryInput where
  content : Text
  kind : Option Kind
  entities : List Text
  tags : List Text
  decayClass : Option DecayClass
  supersedes : List (Raw MemoryId)
  validFrom : Option (Raw Timestamp)

structure EpisodeInput where
  content : Text
  occurredAt : Option (Raw Timestamp)
  session : Option Text
  title : Option Text
  docKind : Option DocKind
  tags : List Text
  mime : Option Text

structure RememberParams where
  space : Option Text
  memories : List MemoryInput
  episode : Option EpisodeInput

/-- A live claim near one that was just stored. -/
structure Related where
  id : MemoryId
  of_ : ℕ
  content : Text
  similarity : ℚ

/-- A claim that was already in the store. -/
structure Duplicate where
  id : MemoryId
  of_ : ℕ
  content : Text
  similarity : ℚ

structure RememberResult where
  created : List MemoryId
  duplicates : List Duplicate
  related : List Related
  superseded : List MemoryId
  alreadyClosed : List AlreadyClosed
  episode : Option EpisodeId

/-! ### Validation -/

/-- The most characters one claim may hold. -/
def MAX_MEMORY_CHARS : ℕ := 10000

/-- The most characters an episode may hold. -/
def MAX_EPISODE_CHARS : ℕ := 100000

/-- A document title is a name, not a summary. -/
def MAX_TITLE_CHARS : ℕ := 200

/-- Tags on a document. -/
def MAX_TAGS : ℕ := 16

def timestamp (raw : Option (Raw Timestamp)) (field : String) :
    Except ErrorData (Option Timestamp) :=
  match raw with
  | none => .ok none
  | some (.reads t) => .ok (some t)
  | some (.refused text) => .error (.invalid (.instant field text))

/-- This input as a store row, or the reason it cannot be one. -/
def MemoryInput.validated (input : MemoryInput) (index : ℕ) : Except ErrorData NewMemory :=
  if (trim input.content).isEmpty then .error (.invalid (.empty s!"memories[{index}].content"))
  else if MAX_MEMORY_CHARS < input.content.length then
    .error (.invalid (.tooLong s!"memories[{index}].content" input.content.length MAX_MEMORY_CHARS))
  else if input.kind = some .summary then .error (.invalid (.summary s!"memories[{index}].kind"))
  else
    match supersedesFrom (fun position => s!"memories[{index}].supersedes[{position}]") [] 0
        input.supersedes with
    | .error e => .error e
    | .ok supersedes =>
      match timestamp input.validFrom s!"memories[{index}].valid_from" with
      | .error e => .error e
      | .ok validFrom =>
        .ok { NewMemory.new (input.kind.getD .fact) input.content with
          entities := input.entities
          tags := input.tags
          decayClass := input.decayClass
          supersedes := supersedes
          validFrom := validFrom }

/-- The inputs in order, from the given index on. -/
def validatedFrom (index : ℕ) : List MemoryInput → Except ErrorData (List NewMemory)
  | [] => .ok []
  | input :: rest =>
    match input.validated index with
    | .error e => .error e
    | .ok memory =>
      match validatedFrom (index + 1) rest with
      | .error e => .error e
      | .ok memories => .ok (memory :: memories)

/-- This input as a store row, already chunked but not yet embedded. -/
def EpisodeInput.validated (input : EpisodeInput) : Except ErrorData NewEpisode :=
  let title := (input.title.map trim).filter fun t => !t.isEmpty
  let tags := (input.tags.map trim).filter fun tag => !tag.isEmpty
  if (trim input.content).isEmpty then .error (.invalid (.empty "episode.content"))
  else if MAX_EPISODE_CHARS < input.content.length then
    .error (.invalid (.tooLong "episode.content" input.content.length MAX_EPISODE_CHARS))
  else if input.title.isSome && title.isNone then .error (.invalid (.empty "episode.title"))
  else if title.any fun t => decide (MAX_TITLE_CHARS < t.length) then
    .error (.invalid (.tooLong "episode.title" (title.getD []).length MAX_TITLE_CHARS))
  else if input.docKind.isSome && title.isNone then .error (.invalid .kindWithoutTitle)
  else if input.docKind.isNone && (!input.tags.isEmpty || input.mime.isSome) then
    .error (.invalid .labelsWithoutKind)
  else if MAX_TAGS < tags.length then .error (.invalid (.tooManyTags tags.length MAX_TAGS))
  else
    match timestamp input.occurredAt "episode.occurred_at" with
    | .error e => .error e
    | .ok occurredAt =>
      .ok {
        content := input.content
        occurredAt := occurredAt
        session := input.session
        chunks := (Chunk.chunk input.content).map fun text => ⟨text, none⟩
        title := title
        docKind := input.docKind
        tags := tags
        mime := input.mime.map trim }

/-! ### Embedding -/

/-- Fill in every vector the call needs, in one pass; without an embedder they stay unset. -/
def embed (embedder : Embedder) (memories : List NewMemory) (episode : Option NewEpisode) :
    Except ErrorData (List NewMemory × Option NewEpisode) :=
  let chunks := (episode.map NewEpisode.chunks).getD []
  let passages := memories.map NewMemory.content ++ chunks.map NewChunk.text
  if embedder.dim = 0 ∨ passages = [] then .ok (memories, episode)
  else
    match embedder.embedPassages passages with
    | .error message => .error (.internal (.embedding message))
    | .ok vectors =>
      if vectors.length = memories.length + chunks.length then
        .ok (List.zipWith (fun (m : NewMemory) v => { m with embedding := some v }) memories vectors,
          episode.map fun e => { e with
            chunks := List.zipWith (fun (c : NewChunk) v => { c with embedding := some v }) e.chunks
              (vectors.drop memories.length) })
      else .error (.internal .vectorCount)

/-! ### The gate -/

/-- A memory that carries `supersedes` skips the gate. -/
def gated (m : NewMemory) : Bool := m.supersedes.isEmpty && m.embedding.isSome

/-- What the gate made of one memory. -/
structure Gated where
  memory : NewMemory
  blocked : Bool
  duplicates : List Duplicate
  related : List Related

def gate (bands : Thresholds) (of_ : ℕ) (m : NewMemory) (neighbours : List Neighbour) : Gated where
  memory := { m with novelty := neighbours.head?.map fun n => novelty n.similarity }
  blocked := neighbours.any fun n => bands.isNearDuplicate n.similarity
  duplicates := (neighbours.filter fun n => bands.isNearDuplicate n.similarity).map fun n =>
    ⟨n.id, of_, n.content, n.similarity⟩
  related := (neighbours.filter fun n => !bands.isNearDuplicate n.similarity &&
    bands.isCorrectionCandidate n.similarity).map fun n => ⟨n.id, of_, n.content, n.similarity⟩

/-- The gated memories take the probes' answers in order. -/
def gateFrom (bands : Thresholds) (index : ℕ) :
    List NewMemory → List (List Neighbour) → List Gated
  | [], _ => []
  | m :: ms, [] => ⟨m, false, [], []⟩ :: gateFrom bands (index + 1) ms []
  | m :: ms, n :: ns =>
    if gated m then gate bands index m n :: gateFrom bands (index + 1) ms ns
    else ⟨m, false, [], []⟩ :: gateFrom bands (index + 1) ms (n :: ns)

/-! ### The call -/

/-- Everything is validated before anything is embedded or written. -/
def validated (space : SpaceName) (params : RememberParams) :
    Except ErrorData (List NewMemory × Option NewEpisode) :=
  if params.memories.isEmpty && params.episode.isNone then .error (.invalid .nothingToRemember)
  else
    match validatedFrom 0 params.memories with
    | .error e => .error e
    | .ok memories =>
      match params.episode with
      | none => .ok (memories, none)
      | some input =>
        match input.validated with
        | .error e => .error e
        | .ok episode =>
          if space = .user ∧ episode.docKind = some .transcript then
            .error (.invalid .transcriptInUser)
          else .ok (memories, some episode)

/-- What the gate made of the memories of a call, and its episode. -/
def prepared (service : Service) (db : Db) (space : SpaceName) (params : RememberParams) :
    Except ErrorData (List Gated × Option NewEpisode) :=
  match validated space params with
  | .error e => .error e
  | .ok (memories, episode) =>
    match embed service.embedder memories episode with
    | .error e => .error e
    | .ok (memories, episode) =>
      match nearestLive service.engine db space
          ((memories.filter gated).filterMap NewMemory.embedding) with
      | .error e => .error (storeError e)
      | .ok neighbours =>
        .ok (gateFrom service.embedder.thresholds 0 memories neighbours, episode)

theorem validated_ok {space : SpaceName} {params : RememberParams} {memories : List NewMemory}
    {episode : Option NewEpisode} (h : validated space params = .ok (memories, episode)) :
    validatedFrom 0 params.memories = .ok memories ∧
      (params.episode = none ∧ episode = none ∨ ∃ input n, params.episode = some input ∧
        input.validated = .ok n ∧ episode = some n) := by
  unfold validated at h
  split_ifs at h
  split at h
  · cases h
  · next hfrom =>
    split at h
    · next hnone =>
      cases h
      exact ⟨hfrom, .inl ⟨hnone, rfl⟩⟩
    · next input hinput =>
      split at h
      · cases h
      · next n hn =>
        split_ifs at h
        cases h
        exact ⟨hfrom, .inr ⟨input, n, hinput, hn, rfl⟩⟩

/-- What stands behind the gate's answer: a validated call, embedded. -/
theorem prepared_ok {service : Service} {db : Db} {space : SpaceName} {params : RememberParams}
    {gates : List Gated} {episode : Option NewEpisode}
    (h : prepared service db space params = .ok (gates, episode)) :
    ∃ memories asked embedded neighbours, validated space params = .ok (memories, asked) ∧
      embed service.embedder memories asked = .ok (embedded, episode) ∧
      gates = gateFrom service.embedder.thresholds 0 embedded neighbours := by
  unfold prepared at h
  split at h
  · cases h
  · next memories asked hvalid =>
    split at h
    · cases h
    · next embedded embeddedEpisode hembed =>
      split at h
      · cases h
      · next neighbours _ =>
        cases h
        exact ⟨memories, asked, embedded, neighbours, hvalid, hembed, rfl⟩

/-- The positions of the memories that were not blocked. -/
def keptFrom (index : ℕ) : List Gated → List ℕ
  | [] => []
  | g :: gs => if g.blocked then keptFrom (index + 1) gs else index :: keptFrom (index + 1) gs

/-- The batch of what survived the gate. -/
def batchOf (space : SpaceName) (gates : List Gated) (episode : Option NewEpisode)
    (writer : Writer) : Batch :=
  ⟨space, episode, (gates.filter fun g => !g.blocked).map Gated.memory, writer⟩

def createdIds (written : List (Written MemoryId)) : List MemoryId :=
  written.filterMap fun w =>
    match w with
    | .created id => some id
    | .duplicate _ => none

/-- A hash duplicate has no neighbour row to quote, but it matched what was sent. -/
def hashDuplicates (gates : List Gated) (written : List (Written MemoryId)) : List Duplicate :=
  ((keptFrom 0 gates).zip written).filterMap fun w =>
    match w.2 with
    | .created _ => none
    | .duplicate id => some ⟨id, w.1, (gates[w.1]?.map fun g => g.memory.content).getD [], 1⟩

/-- The diff: what was stored, what was there, and what a stored claim may be correcting. -/
def result (gates : List Gated) (outcome : BatchOutcome) : RememberResult :=
  let duplicates : List Duplicate :=
    (gates.flatMap Gated.duplicates ++ hashDuplicates gates outcome.memories).insertionSort
      fun x y => x.of_ ≤ y.of_
  { created := createdIds outcome.memories
    duplicates := duplicates
    related := ((gates.flatMap Gated.related).filter fun candidate =>
      !duplicates.any fun duplicate => decide (duplicate.of_ = candidate.of_)).insertionSort
        fun x y => x.of_ ≤ y.of_
    superseded := outcome.superseded
    alreadyClosed := outcome.alreadyClosed
    episode := outcome.episode.map Written.id }

/-- Every memory was blocked, so nothing is written. -/
def blockedResult (gates : List Gated) : RememberResult where
  created := []
  duplicates := (gates.flatMap Gated.duplicates).insertionSort fun x y => x.of_ ≤ y.of_
  related := []
  superseded := []
  alreadyClosed := []
  episode := none

/-- The call once its space is resolved. -/
def store [Hashing] (service : Service) (db : Db) (space : SpaceName) (params : RememberParams)
    (writer : Writer) (clock : ℕ → Clock) : Db × Except ErrorData RememberResult :=
  match prepared service db space params with
  | .error e => (db, .error e)
  | .ok (gates, episode) =>
    let batch := batchOf space gates episode writer
    if batch.memories.isEmpty && episode.isNone then (db, .ok (blockedResult gates))
    else
      match insertBatch db batch clock with
      | .error e => (db, .error (storeError e))
      | .ok (db, outcome) => (db, .ok (result gates outcome))

/-- Run the write path. -/
def run [Hashing] (service : Service) (db : Db) (params : RememberParams) (writer : Writer)
    (registered : Timestamp) (clock : ℕ → Clock) : Db × Except ErrorData RememberResult :=
  match resolveSpace service db params.space registered with
  | .error e => (db, .error e)
  | .ok (db, space) => store service db space params writer clock

end Agmem.Tools.Remember
