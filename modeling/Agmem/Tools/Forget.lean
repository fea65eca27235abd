import Agmem.Tools.Common

/-! The destructive verb. What a call selects is looked up space by space; a purge first
deals with the documents it selected, whose live citers either stop it or are pulled in,
and then takes the whole correction chain of each memory. Selecting by query needs a dry
run of the same call first, and acts on nothing that the dry run did not show. -/

namespace Agmem.Tools.Forget

open Core Relational Store

/-- What an id to forget named. -/
inductive Reference where
  | memory (id : MemoryId)
  | episode (id : EpisodeId)
  | unqualified (id : ℕ)
deriving DecidableEq

structure ForgetParams where
  ids : List (Raw Reference)
  query : Option Text
  space : Option Text
  purge : Bool
  dryRun : Bool
  cascade : Bool

/-- One row a call will act on, in the space that turned out to hold it. -/
inductive Target where
  | memory (space : SpaceName) (record : MemoryRecord) (cascadedFrom : Option EpisodeId)
  | episode (space : SpaceName) (detail : EpisodeDetail)

namespace Target

def memory? : Target → Option MemoryId
  | .memory _ record _ => some record.id
  | .episode _ _ => none

def episode? : Target → Option EpisodeId
  | .memory _ _ _ => none
  | .episode _ detail => some detail.episode.id

/-- The id as it is written, whatever the table. -/
def id : Target → ℕ
  | .memory _ record _ => record.id.ulid
  | .episode _ detail => detail.episode.id.ulid

end Target

/-- Whether a target of that id is among those seen. -/
def seen (targets : List Target) (id : ℕ) : Bool := targets.any fun t => decide (t.id = id)

/-! ### Selecting by id -/

/-- The claim an id names, in whichever searched space holds it. -/
def memory (db : Db) (id : MemoryId) : List SpaceName → Except ErrorData (Option Target)
  | [] => .ok none
  | space :: spaces =>
    match historyChain db space id with
    | .ok chain =>
      match chain.find? fun link => decide (link.id = id) with
      | some record => .ok (some (.memory space record none))
      | none => .error (.internal .lostMemory)
    | .error (.unknownMemory _ _) => memory db id spaces
    | .error e => .error (storeError e)

/-- Verbatim text, in whichever searched space holds it. -/
def episodeTarget (db : Db) (id : EpisodeId) : List SpaceName → Except ErrorData (Option Target)
  | [] => .ok none
  | space :: spaces =>
    match episode db space id with
    | .ok detail => .ok (some (.episode space detail))
    | .error (.unknownEpisode _ _) => episodeTarget db id spaces
    | .error e => .error (storeError e)

/-- Verbatim text has no validity window, so there is no soft state for it to enter. -/
def refuseClosingText (id : EpisodeId) (purge : Bool) : Except ErrorData Unit :=
  if purge then .ok () else .error (.invalid (.closingText id))

/-- A bare id: a memory, then an episode, and a slice is refused. -/
def unqualified (db : Db) (spaces : List SpaceName) (id : ℕ) (purge : Bool) :
    Except ErrorData Target :=
  match memory db ⟨id⟩ spaces with
  | .error e => .error e
  | .ok (some target) => .ok target
  | .ok none =>
    match episodeTarget db ⟨id⟩ spaces with
    | .error e => .error e
    | .ok (some target) =>
      match refuseClosingText ⟨id⟩ purge with
      | .error e => .error e
      | .ok () => .ok target
    | .ok none =>
      match spaces.findSome? fun space => episodeOfChunk db space ⟨id⟩ with
      | some parent => .error (.invalid (.slice id parent))
      | none => .error (.invalid (.missingMemory id spaces))

def resolve (db : Db) (spaces : List SpaceName) (purge : Bool) :
    Raw Reference → Except ErrorData Target
  | .refused text => .error (.invalid (.referenceGrammar text))
  | .reads (.memory id) =>
    match memory db id spaces with
    | .error e => .error e
    | .ok (some target) => .ok target
    | .ok none => .error (.invalid (.missingMemory id.ulid spaces))
  | .reads (.episode id) =>
    match refuseClosingText id purge with
    | .error e => .error e
    | .ok () =>
      match episodeTarget db id spaces with
      | .error e => .error e
      | .ok (some target) => .ok target
      | .ok none => .error (.invalid (.missingEpisode id spaces))
  | .reads (.unqualified id) => unqualified db spaces id purge

/-- Resolve every reference in order, refusing the first that misses. -/
def byIdsFrom (db : Db) (spaces : List SpaceName) (purge : Bool) (targets : List Target) :
    List (Raw Reference) → Except ErrorData (List Target)
  | [] => .ok targets
  | raw :: rest =>
    match resolve db spaces purge raw with
    | .error e => .error e
    | .ok target =>
      byIdsFrom db spaces purge
        (if seen targets target.id then targets else targets ++ [target]) rest

def byIds (db : Db) (spaces : List SpaceName) (ids : List (Raw Reference)) (purge : Bool) :
    Except ErrorData (List Target) :=
  byIdsFrom db spaces purge [] ids

/-! ### Selecting by query -/

/-- Ceiling on the candidate pool. -/
def MAX_POOL : ℕ := 1000

/-- Everything the words of a query match among the live memories of the spaces, in order of
rank. -/
def byQuery (service : Service) (db : Db) (spaces : List SpaceName) (text : Text) : List Target :=
  let live := (service.engine.matching db text).filterMap fun id =>
    (db.memory.get? id).filter fun r => decide (r.space ∈ spaces) && r.isLive
  (live.take (min (max service.pool 1) MAX_POOL)).map fun r => .memory r.space r none

/-- The scope one dry run offered, which the executing call must repeat. -/
structure Scope where
  query : Text
  spaces : List SpaceName
  purge : Bool
deriving DecidableEq

/-- What the session's last dry run offered: the scope, and the ids it showed. -/
abbrev Pending := Option (Scope × List ℕ)

/-- Consume a confirmation for exactly this scope, or refuse and leave it standing. -/
def confirm (pending : Pending) (scope : Scope) : Pending × Except ErrorData (List ℕ) :=
  match pending with
  | some (armed, matched) =>
    if armed = scope then (none, .ok matched) else (pending, .error (.invalid .unconfirmed))
  | none => (pending, .error (.invalid .unconfirmed))

structure Selection where
  targets : List Target
  armable : Option Scope
  previewed : Option (List ℕ)

/-- One selector, and it decides whether a confirmation is owed. -/
def select (service : Service) (db : Db) (pending : Pending) (spaces : List SpaceName)
    (params : ForgetParams) : Pending × Except ErrorData Selection :=
  let query := (params.query.map trim).filter fun text => !text.isEmpty
  match params.ids.isEmpty, query with
  | false, none =>
    match byIds db spaces params.ids params.purge with
    | .error e => (pending, .error e)
    | .ok targets => (pending, .ok ⟨targets, none, none⟩)
  | true, some text =>
    let scope : Scope := ⟨text, spaces, params.purge⟩
    if params.dryRun then (pending, .ok ⟨byQuery service db spaces text, some scope, none⟩)
    else
      match confirm pending scope with
      | (pending, .error e) => (pending, .error e)
      | (pending, .ok previewed) =>
        (pending, .ok ⟨byQuery service db spaces text, none, some previewed⟩)
  | false, some _ => (pending, .error (.invalid .idsAndQuery))
  | true, none => (pending, .error (.invalid .nothingSelected))

/-! ### What a purge pulls in -/

/-- Refuse to purge a cited document, or pull its citers in; `pulled` are those of the documents
before. -/
def cascadeFrom (db : Db) (targets : List Target) (cascade : Bool) (pulled : List Target) :
    List Target → Except ErrorData (List Target)
  | [] => .ok (targets ++ pulled)
  | .memory _ _ _ :: rest => cascadeFrom db targets cascade pulled rest
  | .episode space detail :: rest =>
    if detail.episode.isDocument then
      let citers := (documentCiters db space detail.episode.id).filter fun citer =>
        !seen targets citer.id.ulid && !seen pulled citer.id.ulid
      if citers.isEmpty then cascadeFrom db targets cascade pulled rest
      else if cascade then
        cascadeFrom db targets cascade (pulled ++ citers.map fun record =>
          .memory space record (some detail.episode.id)) rest
      else .error (.invalid (.stillCited detail.episode.id detail.episode.title
        (citers.map MemoryRecord.id)))
    else cascadeFrom db targets cascade pulled rest

def cascadeDocuments (db : Db) (targets : List Target) (cascade : Bool) :
    Except ErrorData (List Target) :=
  cascadeFrom db targets cascade [] targets

/-- Add the links of a chain that are not among the targets yet. -/
def addLinks (space : SpaceName) (cascadedFrom : Option EpisodeId) (expanded : List Target) :
    List MemoryRecord → List Target
  | [] => expanded
  | link :: chain =>
    addLinks space cascadedFrom (if seen expanded link.id.ulid then expanded
      else expanded ++ [.memory space link cascadedFrom]) chain

/-- Replace every memory by its whole supersession chain, without repeating a row two targets
share. -/
def expandFrom (db : Db) (expanded : List Target) : List Target → Except ErrorData (List Target)
  | [] => .ok expanded
  | .episode space detail :: rest => expandFrom db (expanded ++ [.episode space detail]) rest
  | .memory space record cascadedFrom :: rest =>
    match historyChain db space record.id with
    | .error e => .error (storeError e)
    | .ok chain => expandFrom db (addLinks space cascadedFrom expanded chain) rest

def expandChains (db : Db) (targets : List Target) : Except ErrorData (List Target) :=
  expandFrom db [] targets

/-- What a call acts on: the targets themselves, or all a purge takes with them. -/
def acting (db : Db) (purge cascade : Bool) (targets : List Target) :
    Except ErrorData (List Target) :=
  if purge then
    match cascadeDocuments db targets cascade with
    | .error e => .error e
    | .ok targets => expandChains db targets
  else .ok targets

/-! ### The call -/

inductive MatchKind where
  | memory
  | episode
deriving DecidableEq

/-- One row a call selected. -/
structure ForgetMatch where
  id : ℕ
  kind : MatchKind
  content : Text
  space : SpaceName
  invalidReason : Option InvalidReason
  derived : Option ℕ
  cascadedFrom : Option EpisodeId

/-- How much of a match is shown. -/
def PREVIEW_CHARS : ℕ := 300

/-- Enough of a row to recognise it, with an ellipsis where it was cut. -/
def preview (text : Text) : Text :=
  if PREVIEW_CHARS < text.length then text.take PREVIEW_CHARS ++ [Char.ofNat 0x2026] else text

def ForgetMatch.new : Target → ForgetMatch
  | .memory space record cascadedFrom => {
      id := record.id.ulid
      kind := .memory
      content := preview record.content
      space := space
      invalidReason := record.invalidReason
      derived := none
      cascadedFrom := cascadedFrom }
  | .episode space detail => {
      id := detail.episode.id.ulid
      kind := .episode
      content := preview detail.episode.content
      space := space
      invalidReason := none
      derived := some detail.derived.length
      cascadedFrom := none }

structure ForgetResult where
  spaces : List SpaceName
  dryRun : Bool
  purge : Bool
  matched : List ForgetMatch
  invalidated : List ℕ
  purged : List ℕ
  chunksPurged : ℕ

/-- The snapshot discipline: a row the dry run never showed stops the call. -/
def unseen (previewed : Option (List ℕ)) (targets : List Target) : List ℕ :=
  match previewed with
  | none => []
  | some ids => (targets.map Target.id).filter fun id => id ∉ ids

def forgetRequest (spaces : List SpaceName) (purge : Bool) (targets : List Target) :
    Store.Forget :=
  ⟨spaces, targets.filterMap Target.memory?, targets.filterMap Target.episode?, purge⟩

def dryResult (spaces : List SpaceName) (purge : Bool) (targets : List Target) : ForgetResult where
  spaces := spaces
  dryRun := true
  purge := purge
  matched := targets.map ForgetMatch.new
  invalidated := []
  purged := []
  chunksPurged := 0

def doneResult (spaces : List SpaceName) (purge : Bool) (targets : List Target)
    (forgotten : Forgotten) : ForgetResult where
  spaces := spaces
  dryRun := false
  purge := purge
  matched := targets.map ForgetMatch.new
  invalidated := if purge then [] else forgotten.memories.map MemoryId.ulid
  purged := if purge then
    forgotten.memories.map MemoryId.ulid ++ forgotten.episodes.map EpisodeId.ulid else []
  chunksPurged := forgotten.chunks

/-- The call once it has selected: what it acts on, the snapshot, and then the store. -/
def execute (db : Db) (pending : Pending) (spaces : List SpaceName) (params : ForgetParams)
    (selection : Selection) (now : MemoryId → Timestamp) :
    (Db × Pending) × Except ErrorData ForgetResult :=
  match acting db params.purge params.cascade selection.targets with
  | .error e => ((db, pending), .error e)
  | .ok targets =>
    if (unseen selection.previewed targets).isEmpty then
      if params.dryRun then
        let armed := match selection.armable with
          | none => pending
          | some scope => some (scope, targets.map Target.id)
        ((db, armed), .ok (dryResult spaces params.purge targets))
      else
        match Store.forget db (forgetRequest spaces params.purge targets) now with
        | .error e => ((db, pending), .error (storeError e))
        | .ok (db, forgotten) =>
          ((db, pending), .ok (doneResult spaces params.purge targets forgotten))
    else ((db, pending), .error (.invalid (.unseen (unseen selection.previewed targets))))

/-- Run the forget path. -/
def run (service : Service) (db : Db) (pending : Pending) (params : ForgetParams)
    (now : MemoryId → Timestamp) : (Db × Pending) × Except ErrorData ForgetResult :=
  if params.cascade && !params.purge then ((db, pending), .error (.invalid .cascadeWithoutPurge))
  else
    match spaces service db params.space with
    | .error e => ((db, pending), .error e)
    | .ok spaces =>
      match select service db pending spaces params with
      | (pending, .error e) => ((db, pending), .error e)
      | (pending, .ok selection) => execute db pending spaces params selection now

end Agmem.Tools.Forget
