import Agmem.Tools.Common

/-! The insight verb. A reflection is a memory row that carries its evidence: the ids of
the claims and the texts it was drawn from, looked up in the space it is written to and
in the `user` space. Everything else about the write is `remember`'s. -/

namespace Agmem.Tools.Reflect

open Core Relational Store

/-- The table a citation may name. -/
inductive CitedTable where
  | memory
  | episode
deriving DecidableEq

/-- A citation that passes the grammar: the table it claims, and the id after it. -/
structure Citation where
  claimed : Option CitedTable
  id : Raw ℕ

structure ReflectParams where
  space : Option Text
  insight : Text
  derivedFrom : List (Raw Citation)
  kind : Option Kind
  entities : List Text
  tags : List Text
  supersedes : List (Raw MemoryId)

/-- A live claim near the insight that was just stored. -/
structure Related where
  id : MemoryId
  content : Text
  similarity : ℚ

structure ReflectResult where
  id : MemoryId
  created : Bool
  content : Text
  derivedFrom : List Derivation
  related : List Related
  superseded : List MemoryId
  alreadyClosed : List AlreadyClosed
  /-- The claim that already says this and carries no evidence of its own. -/
  note : Option MemoryId

/-! ### Citations -/

/-- What the caller wrote, or the first text that is no citation. -/
def asked : List (Raw Citation) → Except ErrorData (List Citation)
  | [] => .ok []
  | .refused text :: _ => .error (.invalid (.citationGrammar text))
  | .reads c :: rest =>
    match asked rest with
    | .error e => .error e
    | .ok cs => .ok (c :: cs)

/-- An id that is no ULID names nothing. -/
def located (db : Db) (spaces : List SpaceName) (c : Citation) : Option Derivation :=
  match c.id with
  | .refused _ => none
  | .reads id => ((locate db spaces [id]).head?).join

def tableOf : Derivation → CitedTable
  | .memory _ => .memory
  | .episode _ => .episode

/-- Every citation as the store resolved it; a repeated one is kept once. -/
def resolveFrom (db : Db) (spaces : List SpaceName) (cited : List Derivation) :
    List Citation → Except ErrorData (List Derivation)
  | [] => .ok cited
  | c :: rest =>
    match located db spaces c with
    | none => .error (.invalid (.citesNothing c.id spaces))
    | some resolved =>
      match c.id with
      | .refused _ => .error (.invalid (.citesNothing c.id spaces))
      | .reads id =>
        if c.claimed.any fun claimed => decide (claimed ≠ tableOf resolved) then
          .error (.invalid (.citesWrongTable id resolved))
        else resolveFrom db spaces (if resolved ∈ cited then cited else cited ++ [resolved]) rest

def resolve (db : Db) (space : SpaceName) (requested : List (Raw Citation)) :
    Except ErrorData (List Derivation) :=
  if requested.isEmpty then .error (.invalid .nothingCited)
  else
    match asked requested with
    | .error e => .error e
    | .ok citations =>
      resolveFrom db (if space = .user then [space] else [space, .user]) [] citations

/-! ### The call -/

/-- The move left open when an insight was not written. A store that will not answer is not worth
failing the write over. -/
def uncited (db : Db) (space : SpaceName) (id : MemoryId) : Option MemoryId :=
  match historyChain db space id with
  | .error _ => none
  | .ok chain =>
    match chain.find? fun link => decide (link.id = id) with
    | none => none
    | some stored => if stored.derivedFrom.isEmpty then some id else none

/-- The memory a call asks for, before it has a vector. -/
def memoryOf (params : ReflectParams) (cited : List Derivation) (supersedes : List MemoryId) :
    NewMemory :=
  { NewMemory.new (params.kind.getD .lesson) params.insight with
    entities := params.entities
    tags := params.tags
    derivedFrom := cited
    supersedes := supersedes }

/-- One vector for the one claim, unless the embedder has none to give. -/
def embed (embedder : Embedder) (m : NewMemory) : Except ErrorData NewMemory :=
  if embedder.dim = 0 then .ok m
  else
    match embedder.embedPassages [m.content] with
    | .error message => .error (.internal (.embedding message))
    | .ok vectors => .ok { m with embedding := vectors.getLast? }

/-- What the gate says of the neighbours, nearest first: a restatement ends the call, and the rest
of the band is handed back. A summary may read like what it cites. -/
def gate (bands : Thresholds) (kind : Kind) (cited : List Derivation) (related : List Related) :
    List Neighbour → Neighbour ⊕ List Related
  | [] => .inr related
  | n :: ns =>
    if kind = .summary ∧ .memory n.id ∈ cited then gate bands kind cited related ns
    else if bands.isNearDuplicate n.similarity then .inl n
    else if bands.isCorrectionCandidate n.similarity then
      gate bands kind cited (related ++ [⟨n.id, n.content, n.similarity⟩]) ns
    else gate bands kind cited related ns

/-- What a call writes: the memory with what the gate measured, or the neighbour that blocks it. -/
def prepared (service : Service) (db : Db) (space : SpaceName) (params : ReflectParams) :
    Except ErrorData (Neighbour ⊕ NewMemory × List Related) :=
  if (trim params.insight).isEmpty then .error (.invalid (.empty "insight"))
  else
    match resolve db space params.derivedFrom with
    | .error e => .error e
    | .ok cited =>
      match supersedesFrom (fun position => s!"supersedes[{position}]") [] 0 params.supersedes with
      | .error e => .error e
      | .ok supersedes =>
        match embed service.embedder (memoryOf params cited supersedes) with
        | .error e => .error e
        | .ok memory =>
          match memory.supersedes.isEmpty, memory.embedding with
          | true, some probe =>
            match nearestLive service.engine db space [probe] with
            | .error e => .error (storeError e)
            | .ok neighbours =>
              let novel := (neighbours.head?.bind List.head?).map fun n => novelty n.similarity
              match gate service.embedder.thresholds memory.kind cited [] neighbours.flatten with
              | .inl blocking => .ok (.inl blocking)
              | .inr related => .ok (.inr ({ memory with novelty := novel }, related))
          | _, _ => .ok (.inr (memory, []))

def blockedResult (db : Db) (space : SpaceName) (n : Neighbour) : ReflectResult where
  id := n.id
  created := false
  content := n.content
  derivedFrom := []
  related := []
  superseded := []
  alreadyClosed := []
  note := uncited db space n.id

def result (db : Db) (space : SpaceName) (m : NewMemory) (related : List Related)
    (outcome : BatchOutcome) (written : Written MemoryId) : ReflectResult :=
  let isCreated := written.isCreated
  { id := written.id
    created := isCreated
    content := m.content
    derivedFrom := if isCreated then m.derivedFrom else []
    related := if isCreated then related else []
    superseded := outcome.superseded
    alreadyClosed := outcome.alreadyClosed
    note := if isCreated then none else uncited db space written.id }

/-- The call once its space is resolved: one row, one transaction. -/
def store [Hashing] (service : Service) (db : Db) (space : SpaceName) (params : ReflectParams)
    (writer : Writer) (clock : ℕ → Clock) : Db × Except ErrorData ReflectResult :=
  match prepared service db space params with
  | .error e => (db, .error e)
  | .ok (.inl blocking) => (db, .ok (blockedResult db space blocking))
  | .ok (.inr (memory, related)) =>
    match insertBatch db ⟨space, none, [memory], writer⟩ clock with
    | .error e => (db, .error (storeError e))
    | .ok (db, outcome) =>
      match outcome.memories.head? with
      | none => (db, .error (.internal .noMemory))
      | some written => (db, .ok (result db space memory related outcome written))

/-- Store one insight with its citations. -/
def run [Hashing] (service : Service) (db : Db) (params : ReflectParams) (writer : Writer)
    (registered : Timestamp) (clock : ℕ → Clock) : Db × Except ErrorData ReflectResult :=
  match resolveSpace service db params.space registered with
  | .error e => (db, .error e)
  | .ok (db, space) => store service db space params writer clock

end Agmem.Tools.Reflect
