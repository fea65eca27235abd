import Agmem.Core.Ulid
import Agmem.Tools.Recall

/-! The block at the start of a session: four sections in a fixed order, filled until the budget
runs out. An entry that does not fit is left out whole; a summary may stand in for what it covers,
and a note says where something is missing. -/

namespace Agmem.Tools.Context

open Core Store Scoring Recall

def DEFAULT_BUDGET_CHARS : ℕ := 6000

/-- The smallest budget worth assembling. -/
def MIN_BUDGET_CHARS : ℕ := 200

/-- How many claims the Relevant section contributes when a query aims it. -/
def RELEVANT_K : ℕ := 10

def RELEVANT_UNAIMED_K : ℕ := 5

def LESSONS_K : ℕ := 5

/-- How many live lessons one tag may hold. -/
def LESSONS_PER_TAG : ℕ := 3

/-- How much of the budget the sections above Lessons may not spend. -/
def LESSONS_RESERVE_CHARS : ℕ := 2000

/-- The tag that makes a fact part of the profile. -/
def IDENTITY_TAG : Text := "identity".toList

def HEADING_INSTRUCTIONS : Text := "## Instructions".toList

def HEADING_PROFILE : Text := "## Profile".toList

def HEADING_RELEVANT : Text := "## Relevant".toList

def HEADING_LESSONS : Text := "## Lessons".toList

/-- What the block says when the budget cost it entries. -/
def TRIMMED : Text :=
  "\n\n_Trimmed to fit `budget_chars`; `recall` reaches what is missing._".toList

/-- What the block says when the spaces are empty. -/
def NOTHING : Text := "\n\n_Nothing stored for these spaces yet._".toList

structure ContextParams where
  query : Option Text
  space : Option Text
  budgetChars : Option ℕ

/-- One line of the block: a claim, and the id that leads back to it. -/
structure Entry where
  id : MemoryId
  content : Text
  covers : List MemoryId

/-- The bullet as it appears, on one line. -/
def Entry.line (entry : Entry) : Text :=
  "\n- ".toList ++ List.intercalate " ".toList (splitWhitespace entry.content) ++
    " `".toList ++ ulidText entry.id.ulid ++ "`".toList

def Entry.cost (entry : Entry) : ℕ := entry.line.length

/-- One section of the block. -/
structure Section where
  heading : Text
  entries : List Entry
  reserve : ℕ

def Section.header (s : Section) : Text := "\n\n".toList ++ s.heading

/-- The room this section can hold back from the ones above it. -/
def Section.held (s : Section) : ℕ :=
  if s.reserve = 0 ∨ s.entries.isEmpty = true then 0
  else min s.reserve (s.entries.foldl (fun n entry => n + entry.cost) s.header.length)

/-! ### The fill -/

/-- The block so far. -/
structure Fill where
  text : Text
  used : ℕ
  dropped : ℕ
  seen : List MemoryId

/-- One entry: passed over where it was shown, left out where it does not fit. The header is
charged to the first entry under it; `headerCost` is what is left to charge. -/
def place (budget : ℕ) (rollUp : Bool) (header : Text) (headerCost : ℕ) (fill : Fill)
    (entry : Entry) : Fill × ℕ :=
  if entry.id ∈ fill.seen then (fill, headerCost)
  else
    let seen := entry.id :: fill.seen
    let cost := headerCost + entry.cost
    if budget < fill.used + cost then
      ({ fill with dropped := fill.dropped + 1, seen := seen }, headerCost)
    else
      ({ text := fill.text ++ (if 0 < headerCost then header else []) ++ entry.line
         used := fill.used + cost
         dropped := fill.dropped
         seen := if rollUp then entry.covers ++ seen else seen }, 0)

def placeAll (budget : ℕ) (rollUp : Bool) (header : Text) : ℕ → Fill → List Entry → Fill
  | _, fill, [] => fill
  | headerCost, fill, entry :: entries =>
    let next := place budget rollUp header headerCost fill entry
    placeAll budget rollUp header next.2 next.1 entries

/-- What the sections hold back together. -/
def heldBack (sections : List Section) : ℕ := sections.foldl (fun n s => n + s.held) 0

/-- The sections in order, each against the budget less what the later ones hold back; the first
never yields. -/
def fillFrom (budget : ℕ) (rollUp : Bool) (isFirst : Bool) (fill : Fill) : List Section → Fill
  | [] => fill
  | s :: sections =>
    let held := if isFirst then 0 else heldBack sections
    fillFrom budget rollUp false
      (placeAll (budget - held) rollUp s.header s.header.length fill s.entries) sections

/-- The frame, which is always written. -/
def title (spaces : List SpaceName) : Text :=
  "# Memory context (spaces: ".toList ++
    List.intercalate " + ".toList (spaces.map SpaceName.name) ++ ")".toList

/-- The block, and how many entries the budget cost it. -/
def render (spaces : List SpaceName) (sections : List Section) (budget : ℕ) (rollUp : Bool) :
    Text × ℕ :=
  let title := title spaces
  let fill := fillFrom budget rollUp true ⟨title, title.length, 0, []⟩ sections
  if fill.used = title.length ∧ fill.dropped = 0 ∧ fill.used + NOTHING.length ≤ budget then
    (fill.text ++ NOTHING, fill.dropped)
  else (fill.text, fill.dropped)

/-- The block, fitted to its budget in up to three fills. -/
def assemble (spaces : List SpaceName) (sections : List Section) (budget : ℕ) : Text :=
  let block := render spaces sections budget false
  if block.2 = 0 then block.1
  else
    let rolled := render spaces sections budget true
    if rolled.2 = 0 then rolled.1
    else (render spaces sections (budget - TRIMMED.length) true).1 ++ TRIMMED

/-! ### The sections -/

def Entry.of (memory : MemoryRecord) : Entry where
  id := memory.id
  content := memory.content
  covers := if memory.kind = .summary then
    memory.derivedFrom.filterMap fun cited => match cited with
      | .memory id => some id
      | .episode _ => none
    else []

/-- Whether one of the tags holds its quota; `counts` says how many each holds. -/
def atQuota (cap : ℕ) (counts : Text → ℕ) (memory : MemoryRecord) : Bool :=
  memory.tags.any fun tag => decide (0 < counts tag) && decide (cap ≤ counts tag)

def count (counts : Text → ℕ) (tag : Text) : Text → ℕ :=
  Function.update counts tag (counts tag + 1)

/-- Defer, never drop: no tag holds more than `cap` of the head of the list. -/
def capFrom (cap : ℕ) (counts : Text → ℕ) : List MemoryRecord →
    List MemoryRecord × List MemoryRecord
  | [] => ([], [])
  | memory :: memories =>
    if atQuota cap counts memory then
      let rest := capFrom cap counts memories
      (rest.1, memory :: rest.2)
    else
      let rest := capFrom cap (memory.tags.foldl count counts) memories
      (memory :: rest.1, rest.2)

def capByTag (memories : List MemoryRecord) (cap : ℕ) : List MemoryRecord :=
  let parts := capFrom cap (fun _ => 0) memories
  parts.1 ++ parts.2

/-- Rank candidates the way a recall does, and keep the best. -/
def rank (candidates : List (MemoryRecord × Signals)) (keep : ℕ) (perTag : Option ℕ) : List Entry :=
  let ranked := (Scoring.rank candidates).map Prod.fst
  let ordered := match perTag with
    | some cap => capByTag ranked cap
    | none => ranked
  (ordered.take keep).map Entry.of

/-- An indexed lookup, ranked and cut. -/
def lookupSection (reader : Reader) (db : Db) (spaces : List SpaceName) (kinds : List Kind)
    (tags : List Text) (keep : ℕ) (perTag : Option ℕ) (now : Timestamp) : List Entry :=
  let records := directLookup db ⟨spaces, ⟨kinds, [], tags⟩, .live, reader.service.pool⟩
  rank (records.map fun memory => (memory, Signals.forMemory reader.exp 0 memory now)) keep perTag

/-- A claim of the search with its signals; verbatim text has none here. -/
def candidateOf (exp : ℚ → ℚ) (now : Timestamp) (candidate : Candidate) :
    Option (MemoryRecord × Signals) :=
  match candidate.hit with
  | .memory memory => some (memory, Signals.forMemory exp candidate.rrf memory now)
  | .chunk _ => none

/-- The hybrid search, minus the verbatim half. -/
def searchSection (reader : Reader) (db : Db) (spaces : List SpaceName) (text : Text)
    (now : Timestamp) : Except ErrorData (List Entry) :=
  match embedQuery reader text with
  | .error e => .error e
  | .ok vector =>
    let search : Search :=
      ⟨spaces, some text, vector, ⟨[], [], []⟩, .live, reader.service.pool, false⟩
    match (searchHybrid reader.alphabet reader.rankings search).alone db with
    | .error e => .error (storeError e)
    | .ok candidates =>
      .ok (rank (candidates.filterMap (candidateOf reader.exp now)) RELEVANT_K none)

/-- What Lessons holds back at this budget. -/
def lessonsReserve (budget : ℕ) : ℕ := min LESSONS_RESERVE_CHARS (budget / 3)

/-- The Relevant section, aimed or not. -/
def relevant (reader : Reader) (db : Db) (spaces : List SpaceName) (query : Option Text)
    (now : Timestamp) : Except ErrorData (List Entry) :=
  match query with
  | some text => searchSection reader db spaces text now
  | none =>
    .ok (lookupSection reader db spaces [.fact, .summary] [] RELEVANT_UNAIMED_K none now)

/-- How much room the block gets, refused rather than silently raised. -/
def resolveBudget (requested : Option ℕ) : Except ErrorData ℕ :=
  let budget := requested.getD DEFAULT_BUDGET_CHARS
  if budget < MIN_BUDGET_CHARS then .error (.invalid (.budgetTooSmall MIN_BUDGET_CHARS))
  else .ok budget

/-- Assemble the session-start block. -/
def run (reader : Reader) (db : Db) (params : ContextParams) (now : Timestamp) :
    Except ErrorData Text :=
  match spaces reader.service db params.space with
  | .error e => .error e
  | .ok spaces =>
    match resolveBudget params.budgetChars with
    | .error e => .error e
    | .ok budget =>
      match relevant reader db spaces (asked params.query) now with
      | .error e => .error e
      | .ok relevant =>
        .ok (assemble spaces
          [⟨HEADING_INSTRUCTIONS, lookupSection reader db spaces [.instruction] []
              reader.service.pool none now, 0⟩,
            ⟨HEADING_PROFILE, lookupSection reader db spaces [.fact] [IDENTITY_TAG]
              reader.service.pool none now, 0⟩,
            ⟨HEADING_RELEVANT, relevant, 0⟩,
            ⟨HEADING_LESSONS, lookupSection reader db spaces [.lesson] [] LESSONS_K
              (some LESSONS_PER_TAG) now, lessonsReserve budget⟩] budget)

end Agmem.Tools.Context
