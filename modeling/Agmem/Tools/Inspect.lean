import Agmem.Store.Documents
import Agmem.Tools.Reference

/-! The audit verb, as far as claims and texts go. A claim comes with its chain, the text
behind it, and the claims it cites, each walked in whichever searched space holds it; what
was purged since is history rather than an error. A text comes back through a window, and a
title stands for the newest document under it. -/

namespace Agmem.Tools.Inspect

open Core Relational Store

structure InspectedMemory where
  memory : MemoryRecord
  chain : List MemoryRecord
  episode : Option Episode
  expands : List MemoryRecord

/-- The first of the spaces that holds the claim, and its chain there. -/
def walked (db : Db) (id : MemoryId) :
    List SpaceName → Except ErrorData (Option (SpaceName × List MemoryRecord))
  | [] => .ok none
  | space :: spaces =>
    match historyChain db space id with
    | .ok chain => .ok (some (space, chain))
    | .error (.unknownMemory _ _) => walked db id spaces
    | .error e => .error (storeError e)

/-- One memory's current row, from whichever searched space holds it. -/
def view (db : Db) (spaces : List SpaceName) (id : MemoryId) :
    Except ErrorData (Option MemoryRecord) :=
  match walked db id spaces with
  | .error e => .error e
  | .ok none => .ok none
  | .ok (some (_, chain)) => .ok (chain.find? fun link => decide (link.id = id))

/-- The cited claims that still resolve. -/
def expandsFrom (db : Db) (spaces : List SpaceName) :
    List Derivation → Except ErrorData (List MemoryRecord)
  | [] => .ok []
  | .episode _ :: rest => expandsFrom db spaces rest
  | .memory cited :: rest =>
    match view db spaces cited with
    | .error e => .error e
    | .ok found =>
      match expandsFrom db spaces rest with
      | .error e => .error e
      | .ok others => .ok (found.toList ++ others)

/-- The text a claim was distilled from, unless it was purged. -/
def sourceText (db : Db) (space : SpaceName) : Source → Except ErrorData (Option Episode)
  | .episode id =>
    match episode db space id with
    | .ok detail => .ok (some detail.episode)
    | .error (.unknownEpisode _ _) => .ok none
    | .error e => .error (storeError e)
  | .agent | .external _ => .ok none

def memory (db : Db) (spaces : List SpaceName) (id : MemoryId) :
    Except ErrorData (Option InspectedMemory) :=
  match walked db id spaces with
  | .error e => .error e
  | .ok none => .ok none
  | .ok (some (space, chain)) =>
    match chain.find? fun link => decide (link.id = id) with
    | none => .error (.internal .lostMemory)
    | some target =>
      match sourceText db space target.source with
      | .error e => .error e
      | .ok episode =>
        match expandsFrom db spaces target.derivedFrom with
        | .error e => .error e
        | .ok expands => .ok (some ⟨target, chain, episode, expands⟩)

/-! ### Texts -/

/-- The window a caller asked for, before it meets the content. -/
structure WindowSpec where
  offset : Option ℕ
  limit : Option ℕ

/-- Which part of an episode's content the answer holds. -/
structure Window where
  offset : ℕ
  returned : ℕ
  total : ℕ
  nextOffset : Option ℕ

/-- The requested slice of `content`, and where it sits. -/
def WindowSpec.apply (window : WindowSpec) (content : Text) (defaultLimit : Option ℕ) :
    Text × Option Window :=
  let total := content.length
  let limit := window.limit.or defaultLimit
  if window.offset.isNone && limit.isNone then (content, none)
  else
    let offset := min (window.offset.getD 0) total
    let slice := (content.drop offset).take (limit.getD (total - offset))
    let stop := offset + slice.length
    (slice, some ⟨offset, slice.length, total, if stop < total then some stop else none⟩)

/-- Verbatim text as stored, or the window of it that was asked for. -/
structure EpisodeView where
  id : EpisodeId
  space : SpaceName
  content : Text
  chars : ℕ
  occurredAt : Timestamp
  session : Option Text
  createdAt : Timestamp
  title : Option Text
  docKind : Option DocKind
  tags : List Text
  mime : Option Text

/-- One retrieval slice; on a document it carries its size and not its text. -/
structure ChunkView where
  id : ChunkId
  position : ℕ
  chars : ℕ
  text : Option Text

/-- One version of a document, in its title's chain. -/
structure VersionView where
  id : EpisodeId
  createdAt : Timestamp
  chars : ℕ

structure InspectedEpisode where
  episode : EpisodeView
  chunks : List ChunkView
  derived : List MemoryRecord
  window : Option Window
  versions : Option (List VersionView)

/-- An episode's answer; a document shows one slice's worth unless more was asked for. -/
def detailed (db : Db) (space : SpaceName) (detail : EpisodeDetail) (window : WindowSpec) :
    InspectedEpisode :=
  let e := detail.episode
  let versions := if e.isDocument then
      e.title.map fun title => (documentsByTitle db space title).map fun version =>
        ⟨version.id, version.createdAt, version.content.length⟩
    else none
  let defaultLimit := if e.isDocument then
      (detail.chunks.head?.map fun chunk => chunk.text.length).filter fun chars => decide (0 < chars)
    else none
  let shown := window.apply e.content defaultLimit
  { episode := ⟨e.id, e.space, shown.1, e.content.length, e.occurredAt, e.session, e.createdAt,
      e.title, e.docKind, e.tags, e.mime⟩
    chunks := detail.chunks.map fun chunk => ⟨chunk.id, chunk.position, chunk.text.length,
      if e.isDocument then none else some chunk.text⟩
    derived := detail.derived
    window := shown.2
    versions := versions }

/-- Verbatim text from the first of the spaces that holds it. -/
def episode (db : Db) (id : EpisodeId) (window : WindowSpec) :
    List SpaceName → Except ErrorData (Option InspectedEpisode)
  | [] => .ok none
  | space :: spaces =>
    match Store.episode db space id with
    | .ok detail => .ok (some (detailed db space detail window))
    | .error (.unknownEpisode _ _) => episode db id window spaces
    | .error e => .error (storeError e)

/-- The newest document under a title, from the first of the spaces that has one. -/
def document (db : Db) (title : Text) (window : WindowSpec) :
    List SpaceName → Except ErrorData (Option InspectedEpisode)
  | [] => .ok none
  | space :: spaces =>
    match (documentsByTitle db space title).head? with
    | none => document db title window spaces
    | some newest =>
      match Store.episode db space newest.id with
      | .error e => .error (storeError e)
      | .ok detail => .ok (some (detailed db space detail window))

/-- What a call may be refused with. -/
inductive InspectError where
  /-- "ref must be `memory:<id>`, …, or a bare id; got …" -/
  | grammar (text : Text)
  /-- "no document titled … in …; list what is there with `docs`, or check the space" -/
  | missingDocument (title : Text) (spaces : List SpaceName)
  | tool (error : ErrorData)

/-- What a reference to a text is answered with; the other references name a claim or list rows,
and are answered with no text. -/
def text (service : Service) (db : Db) (reference : Text) (space : Option Text)
    (window : WindowSpec) : Except InspectError (Option InspectedEpisode) :=
  match Reference.parse reference with
  | none => .error (.grammar (trim reference))
  | some named =>
    match spaces service db (named.requested space) with
    | .error e => .error (.tool e)
    | .ok spaces =>
      match named with
      | .doc _ title =>
        match document db title window spaces with
        | .error e => .error (.tool e)
        | .ok none => .error (.missingDocument title spaces)
        | .ok (some found) => .ok (some found)
      | .episode id =>
        match episode db ⟨id.number⟩ window spaces with
        | .error e => .error (.tool e)
        | .ok none => .error (.tool (.invalid (.missingEpisode ⟨id.number⟩ spaces)))
        | .ok (some found) => .ok (some found)
      | _ => .ok none

end Agmem.Tools.Inspect
