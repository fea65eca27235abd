import Agmem.Tools.Inspect
import Agmem.Tools.Remember

/-! The document tier from the shell. `put` is a `remember` with one episode and nothing
else; `get` is an `inspect` of an id where the reference reads as one, and of a title
otherwise, with a window that takes in the whole document. -/

namespace Agmem.Tools.Doc

open Core Store

structure DocPutArgs where
  title : Text
  kind : DocKind
  tags : List Text
  mime : Text
  space : Option Text

structure DocGetArgs where
  reference : Text
  offset : Option ℕ
  limit : Option ℕ
  raw : Bool
  space : Option Text

/-- What a verb may fail with. -/
inductive DocError where
  | tool (error : ErrorData)
  | inspect (error : Inspect.InspectError)
  /-- "remember answered without an episode id; agmem versions disagree?" -/
  | noEpisodeId
  /-- "`…` is not a space name" -/
  | spaceName (name : Text)
  /-- "… is not a document; `agmem doc get` without --raw shows what it is" -/
  | notDocument (reference : Text)

/-- The space a `put` landed in, for the URI: this run's own for `current` or nothing, else the
name given. -/
def writtenSpace (service : Service) (space : Option Text) : Except DocError SpaceName :=
  match space with
  | none => .ok service.space
  | some name =>
    if name = keywordCurrent then .ok service.space
    else
      match SpaceName.new? name with
      | none => .error (.spaceName name)
      | some space => .ok space

/-- The `remember` call a `put` makes. -/
def putParams (args : DocPutArgs) (content : Text) : Remember.RememberParams where
  space := args.space
  memories := []
  episode := some {
    content := content
    occurredAt := none
    session := none
    title := some args.title
    docKind := some args.kind
    tags := args.tags
    mime := some args.mime }

/-- Store `content` as a document; the answer is its id and its space. -/
def put [Hashing] (service : Service) (db : Db) (args : DocPutArgs) (content : Text)
    (writer : Writer) (registered : Timestamp) (clock : ℕ → Clock) :
    Db × Except DocError (EpisodeId × SpaceName) :=
  match Remember.run service db (putParams args content) writer registered clock with
  | (db, .error e) => (db, .error (.tool e))
  | (db, .ok answer) =>
    match answer.episode with
    | none => (db, .error .noEpisodeId)
    | some id =>
      match writtenSpace service args.space with
      | .error e => (db, .error e)
      | .ok space => (db, .ok (id, space))

/-- The `ref` a `get` sends: an id is tried first. -/
def reference (args : DocGetArgs) : Text :=
  if isUlid args.reference then Inspect.Reference.wordEpisode ++ ':' :: args.reference
  else Inspect.Reference.wordDoc ++ ':' :: (args.space.getD keywordCurrent ++ '/' :: args.reference)

/-- What `get` prints: the JSON of `inspect`, or the content alone. -/
inductive Printed where
  | json (found : Option Inspect.InspectedEpisode)
  | raw (content : Text)

def get (service : Service) (db : Db) (args : DocGetArgs) : Except DocError Printed :=
  let window := ⟨args.offset, args.limit.or (some Remember.MAX_EPISODE_CHARS)⟩
  match Inspect.text service db (reference args) args.space window with
  | .error e => .error (.inspect e)
  | .ok found =>
    if args.raw then
      match found with
      | none => .error (.notDocument (reference args))
      | some answer => .ok (.raw answer.episode.content)
    else .ok (.json found)

end Agmem.Tools.Doc
