import Agmem.Core.Dedup
import Mathlib.Data.Rat.Defs

/-! The vocabulary of the store: spaces, record ids, memories and episodes, field for
field as the rows hold them. A space name carries the proof that it is a slug, so no
other text names a space. A record id is the number of the ULID it wraps; instants
are counted in nanoseconds and vectors hold exact rationals. -/

namespace Agmem.Core

abbrev Timestamp := ℤ

abbrev Embedding := List ℚ

def isSlugChar (c : Char) : Bool :=
  (0x61 ≤ c.toNat && c.toNat ≤ 0x7A) || (0x30 ≤ c.toNat && c.toNat ≤ 0x39) || c.toNat == 0x2D ||
    c.toNat == 0x5F

/-- Slug characters are one byte each, so the limit on bytes is one on characters. -/
def SpaceName.MAX_LEN : ℕ := 64

def isSlug (name : Text) : Bool :=
  !name.isEmpty && decide (name.length ≤ SpaceName.MAX_LEN) && name.all isSlugChar

structure SpaceName where
  name : Text
  slug : isSlug name = true
deriving DecidableEq

def SpaceName.new? (name : Text) : Option SpaceName :=
  if h : isSlug name = true then some ⟨name, h⟩ else none

/-- The reserved space for cross-project personal memory. -/
def SpaceName.user : SpaceName := ⟨['u', 's', 'e', 'r'], by decide⟩

structure MemoryId where
  ulid : ℕ
deriving DecidableEq, Repr

structure EpisodeId where
  ulid : ℕ
deriving DecidableEq, Repr

structure ChunkId where
  ulid : ℕ
deriving DecidableEq, Repr

inductive DecayClass where
  | pinned
  | slow
  | normal
  | fast
deriving DecidableEq, Repr

inductive Kind where
  | fact
  | lesson
  | instruction
  | summary
deriving DecidableEq, Repr

/-- Instructions stand until superseded, lessons and summaries are long-lived, facts fade
at the normal rate. -/
def Kind.defaultDecayClass : Kind → DecayClass
  | .fact => .normal
  | .lesson | .summary => .slow
  | .instruction => .pinned

inductive DocKind where
  | plan
  | review
  | report
  | probe
  | transcript
  | other
deriving DecidableEq, Repr

inductive InvalidReason where
  | superseded
  | forgotten
  | expired
deriving DecidableEq, Repr

/-- Where a memory came from. -/
inductive Source where
  | episode (episode : EpisodeId)
  | agent
  | external (origin : Text)
deriving DecidableEq

/-- A piece of evidence a reflection was drawn from. -/
inductive Derivation where
  | memory (id : MemoryId)
  | episode (id : EpisodeId)
deriving DecidableEq

/-- Who performed the write that created a row. -/
structure Writer where
  client : Text
  clientVersion : Option Text
  session : Text
  tool : Text
deriving DecidableEq

/-- A distilled, supersedable memory as stored. -/
structure MemoryRecord where
  id : MemoryId
  space : SpaceName
  kind : Kind
  content : Text
  contentHash : Text
  entities : List Text
  tags : List Text
  embedding : Option Embedding
  decayClass : DecayClass
  strength : ℚ
  lastAccessed : Timestamp
  accessCount : ℕ
  validFrom : Timestamp
  invalidAt : Option Timestamp
  invalidReason : Option InvalidReason
  supersedes : List MemoryId
  supersededBy : Option MemoryId
  source : Source
  writer : Option Writer
  novelty : Option ℚ
  derivedFrom : List Derivation
  createdAt : Timestamp

/-- Neither superseded, forgotten nor expired. -/
def MemoryRecord.isLive (r : MemoryRecord) : Bool := r.invalidAt.isNone

@[simp] theorem MemoryRecord.isLive_iff {r : MemoryRecord} :
    r.isLive = true ↔ r.invalidAt = none := by
  simp [isLive]

/-- Verbatim ground truth; with a `docKind` it is a document. -/
structure Episode where
  id : EpisodeId
  space : SpaceName
  content : Text
  contentHash : Text
  occurredAt : Timestamp
  session : Option Text
  createdAt : Timestamp
  title : Option Text
  docKind : Option DocKind
  tags : List Text
  mime : Option Text

def Episode.isDocument (e : Episode) : Bool := e.docKind.isSome

/-- One retrieval slice of an episode. -/
structure EpisodeChunk where
  id : ChunkId
  episode : EpisodeId
  space : SpaceName
  text : Text
  position : ℕ
  embedding : Option Embedding
  occurredAt : Timestamp

end Agmem.Core
