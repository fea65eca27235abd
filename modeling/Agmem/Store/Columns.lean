import Agmem.Core.Ulid
import Agmem.Store.Datetime

/-! The rows of the store and the records they spell. Ids are their texts, enumerations their
spellings, and an instant is a datetime whose fraction never counts below zero. A record that is
written is read back as it was, but for its vector and for the fractions of the seconds before
1970. -/

namespace Agmem.Store.Columns

open Core

/-! ### Spellings -/

inductive CoreError where
  | invalidSpaceName (name : Text)
  | invalidRecordId (id : Text)
  | unknownVariant (name value : Text)
deriving DecidableEq

/-- What a row can be refused for. -/
inductive RowError where
  | malformedRow (error : CoreError)
  | unexpectedResponse (why : Text)
deriving DecidableEq

def kindStr : Kind → Text
  | .fact => "fact".toList
  | .lesson => "lesson".toList
  | .instruction => "instruction".toList
  | .summary => "summary".toList

def docKindStr : DocKind → Text
  | .plan => "plan".toList
  | .review => "review".toList
  | .report => "report".toList
  | .probe => "probe".toList
  | .transcript => "transcript".toList
  | .other => "other".toList

def decayClassStr : DecayClass → Text
  | .pinned => "pinned".toList
  | .slow => "slow".toList
  | .normal => "normal".toList
  | .fast => "fast".toList

def invalidReasonStr : InvalidReason → Text
  | .superseded => "superseded".toList
  | .forgotten => "forgotten".toList
  | .expired => "expired".toList

/-- `FromStr` of an enumeration: the variant with the spelling. -/
def parseVariant {α : Type*} (spelling : α → Text) (variants : List α) (name value : Text) :
    Except CoreError α :=
  match variants.find? fun v => decide (spelling v = value) with
  | some v => .ok v
  | none => .error (.unknownVariant name value)

def parseKind : Text → Except CoreError Kind :=
  parseVariant kindStr [.fact, .lesson, .instruction, .summary] "kind".toList

def parseDocKind : Text → Except CoreError DocKind :=
  parseVariant docKindStr [.plan, .review, .report, .probe, .transcript, .other] "doc_kind".toList

def parseDecayClass : Text → Except CoreError DecayClass :=
  parseVariant decayClassStr [.pinned, .slow, .normal, .fast] "decay class".toList

def parseInvalidReason : Text → Except CoreError InvalidReason :=
  parseVariant invalidReasonStr [.superseded, .forgotten, .expired] "invalid reason".toList

/-- `MemoryId::new` and the like. -/
def recordId (id : Text) : Except CoreError ℕ :=
  match Ulid.new? id with
  | some ulid => .ok ulid.number
  | none => .error (.invalidRecordId id)

def newSpace (name : Text) : Except CoreError SpaceName :=
  match SpaceName.new? name with
  | some space => .ok space
  | none => .error (.invalidSpaceName name)

/-- `?` on an error of the domain. -/
def malformed {α : Type*} (r : Except CoreError α) : Except RowError α := r.mapError .malformedRow

/-! ### Rows -/

/-- A `derived_from` link, as the two halves a projection can name. -/
structure DerivationRow where
  table : Text
  id : Text

def MEMORY : Text := "memory".toList

def EPISODE : Text := "episode".toList

def AGENT : Text := "agent".toList

def EXTERNAL : Text := "external".toList

def DerivationRow.intoDerivation (row : DerivationRow) : Except RowError Derivation :=
  if row.table = MEMORY then (malformed (recordId row.id)).map fun id => .memory ⟨id⟩
  else if row.table = EPISODE then (malformed (recordId row.id)).map fun id => .episode ⟨id⟩
  else .error (.unexpectedResponse
    "a derivation link names neither a memory nor an episode".toList)

def NO_MATCHING_REF : Text := "a memory's source names a kind with no matching ref".toList

/-- The kind and the `ref` of a `source` column. -/
def toSource (kind : Text) (reference : Option Text) : Except RowError Source :=
  if kind = AGENT then .ok .agent
  else match reference with
    | some reference =>
      if kind = EPISODE then (malformed (recordId reference)).map fun id => .episode ⟨id⟩
      else if kind = EXTERNAL then .ok (.external reference)
      else .error (.unexpectedResponse NO_MATCHING_REF)
    | none => .error (.unexpectedResponse NO_MATCHING_REF)

/-- Every `memory` column a read projects. -/
structure MemoryReadRow where
  id : Text
  space : Text
  kind : Text
  content : Text
  contentHash : Text
  entities : List Text
  tags : List Text
  decayClass : Text
  strength : ℚ
  lastAccessed : Datetime
  accessCount : ℤ
  validFrom : Datetime
  invalidAt : Option Datetime
  invalidReason : Option Text
  supersedes : List Text
  supersededBy : Option Text
  sourceKind : Text
  sourceRef : Option Text
  writer : Option Writer
  novelty : Option ℚ
  derivedFrom : List DerivationRow
  createdAt : Datetime

/-- `u32::try_from(..).unwrap_or(0)` -/
def toU32 (n : ℤ) : ℕ := if 0 ≤ n ∧ n < 2 ^ 32 then n.toNat else 0

def MemoryReadRow.intoRecord (row : MemoryReadRow) : Except RowError MemoryRecord := do
  let id ← malformed (recordId row.id)
  let space ← malformed (newSpace row.space)
  let kind ← malformed (parseKind row.kind)
  let decayClass ← malformed (parseDecayClass row.decayClass)
  let invalidReason ← row.invalidReason.mapM fun reason => malformed (parseInvalidReason reason)
  let supersedes ← row.supersedes.mapM fun id => malformed (recordId id)
  let supersededBy ← row.supersededBy.mapM fun id => malformed (recordId id)
  let source ← toSource row.sourceKind row.sourceRef
  let derivedFrom ← row.derivedFrom.mapM DerivationRow.intoDerivation
  return {
    id := ⟨id⟩
    space := space
    kind := kind
    content := row.content
    contentHash := row.contentHash
    entities := row.entities
    tags := row.tags
    embedding := none
    decayClass := decayClass
    strength := row.strength
    lastAccessed := toTimestamp row.lastAccessed
    accessCount := toU32 row.accessCount
    validFrom := toTimestamp row.validFrom
    invalidAt := row.invalidAt.map toTimestamp
    invalidReason := invalidReason
    supersedes := supersedes.map MemoryId.mk
    supersededBy := supersededBy.map MemoryId.mk
    source := source
    writer := row.writer
    novelty := row.novelty.map fun novelty => max 0 (min 1 novelty)
    derivedFrom := derivedFrom
    createdAt := toTimestamp row.createdAt }

/-- Every `episode` column a read projects. -/
structure EpisodeReadRow where
  id : Text
  space : Text
  content : Text
  contentHash : Text
  occurredAt : Datetime
  session : Option Text
  createdAt : Datetime
  title : Option Text
  docKind : Option Text
  tags : Option (List Text)
  mime : Option Text

def EpisodeReadRow.intoEpisode (row : EpisodeReadRow) : Except RowError Episode := do
  let id ← malformed (recordId row.id)
  let space ← malformed (newSpace row.space)
  let docKind ← row.docKind.mapM fun kind => malformed (parseDocKind kind)
  return {
    id := ⟨id⟩
    space := space
    content := row.content
    contentHash := row.contentHash
    occurredAt := toTimestamp row.occurredAt
    session := row.session
    createdAt := toTimestamp row.createdAt
    title := row.title
    docKind := docKind
    tags := row.tags.getD []
    mime := row.mime }

/-! ### What a record is spelled as -/

/-- The table of what is cited, and its id. -/
def derivationRow : Derivation → DerivationRow
  | .memory id => ⟨MEMORY, ulidText id.ulid⟩
  | .episode id => ⟨EPISODE, ulidText id.ulid⟩

/-- `source.kind` and the `source.ref` that goes with it. -/
def sourceCells : Source → Text × Option Text
  | .agent => (AGENT, none)
  | .episode id => (EPISODE, some (ulidText id.ulid))
  | .external origin => (EXTERNAL, some origin)

/-- The columns of a record as they are written and as a read projects them. -/
def MemoryReadRow.of (m : MemoryRecord) : MemoryReadRow where
  id := ulidText m.id.ulid
  space := m.space.name
  kind := kindStr m.kind
  content := m.content
  contentHash := m.contentHash
  entities := m.entities
  tags := m.tags
  decayClass := decayClassStr m.decayClass
  strength := m.strength
  lastAccessed := toDatetime m.lastAccessed
  accessCount := m.accessCount
  validFrom := toDatetime m.validFrom
  invalidAt := m.invalidAt.map toDatetime
  invalidReason := m.invalidReason.map invalidReasonStr
  supersedes := m.supersedes.map fun id => ulidText id.ulid
  supersededBy := m.supersededBy.map fun id => ulidText id.ulid
  sourceKind := (sourceCells m.source).1
  sourceRef := (sourceCells m.source).2
  writer := m.writer
  novelty := m.novelty
  derivedFrom := m.derivedFrom.map derivationRow
  createdAt := toDatetime m.createdAt

/-- An episode is written with its tags where it is a document. -/
def EpisodeReadRow.of (e : Episode) : EpisodeReadRow where
  id := ulidText e.id.ulid
  space := e.space.name
  content := e.content
  contentHash := e.contentHash
  occurredAt := toDatetime e.occurredAt
  session := e.session
  createdAt := toDatetime e.createdAt
  title := e.title
  docKind := e.docKind.map docKindStr
  tags := if e.isDocument then some e.tags else none
  mime := e.mime

/-- A number that is the number of a ULID. -/
def IsId (n : ℕ) : Prop := ∃ id : Ulid, id.number = n

def Source.Storable : Source → Prop
  | .episode id => IsId id.ulid
  | _ => True

def Derivation.Storable : Derivation → Prop
  | .memory id => IsId id.ulid
  | .episode id => IsId id.ulid

/-- What the types of a record promise: its ids are ULIDs, its instants are timestamps, its counter
is of 32 bits; and the novelty that the write path clamps. -/
structure Storable (m : MemoryRecord) : Prop where
  id : IsId m.id.ulid
  supersedes : ∀ id ∈ m.supersedes, IsId id.ulid
  supersededBy : ∀ id ∈ m.supersededBy, IsId id.ulid
  source : Source.Storable m.source
  derivedFrom : ∀ cited ∈ m.derivedFrom, Derivation.Storable cited
  lastAccessed : InRange m.lastAccessed
  validFrom : InRange m.validFrom
  invalidAt : ∀ at_ ∈ m.invalidAt, InRange at_
  createdAt : InRange m.createdAt
  accessCount : m.accessCount < 2 ^ 32
  novelty : ∀ novelty ∈ m.novelty, 0 ≤ novelty ∧ novelty ≤ 1

/-- What is kept of a record. -/
def stored (m : MemoryRecord) : MemoryRecord :=
  { m with
    embedding := none
    lastAccessed := whole m.lastAccessed
    validFrom := whole m.validFrom
    invalidAt := m.invalidAt.map whole
    createdAt := whole m.createdAt }

/-- What is kept of an episode. -/
def storedEpisode (e : Episode) : Episode :=
  { e with
    occurredAt := whole e.occurredAt
    createdAt := whole e.createdAt
    tags := if e.isDocument then e.tags else [] }

/-! ### Columns -/

theorem parseVariant_spelling {α : Type*} {spelling : α → Text} {variants : List α} {name : Text}
    {v : α} (hv : v ∈ variants) (h : ∀ w ∈ variants, spelling w = spelling v → w = v) :
    parseVariant spelling variants name (spelling v) = .ok v := by
  unfold parseVariant
  cases hfind : variants.find? fun w => decide (spelling w = spelling v) with
  | none => simpa using List.find?_eq_none.mp hfind v hv
  | some w =>
    have hw : spelling w = spelling v := by simpa using List.find?_some hfind
    dsimp only
    rw [h w (List.mem_of_find?_eq_some hfind) hw]

theorem parseKind_str (kind : Kind) : parseKind (kindStr kind) = .ok kind := by
  cases kind <;> exact parseVariant_spelling (by decide) (by decide)

theorem parseDocKind_str (kind : DocKind) : parseDocKind (docKindStr kind) = .ok kind := by
  cases kind <;> exact parseVariant_spelling (by decide) (by decide)

theorem parseDecayClass_str (decayClass : DecayClass) :
    parseDecayClass (decayClassStr decayClass) = .ok decayClass := by
  cases decayClass <;> exact parseVariant_spelling (by decide) (by decide)

theorem parseInvalidReason_str (reason : InvalidReason) :
    parseInvalidReason (invalidReasonStr reason) = .ok reason := by
  cases reason <;> exact parseVariant_spelling (by decide) (by decide)

theorem recordId_ulidText {n : ℕ} (h : IsId n) : recordId (ulidText n) = .ok n := by
  obtain ⟨id, rfl⟩ := h
  have hnew : Ulid.new? id.text = some id := dif_pos id.ulid
  rw [recordId, ulidText_number, hnew]

theorem newSpace_name (space : SpaceName) : newSpace space.name = .ok space := by
  have hnew : SpaceName.new? space.name = some space := dif_pos space.slug
  rw [newSpace, hnew]

theorem intoDerivation_row {cited : Derivation} (h : Derivation.Storable cited) :
    (derivationRow cited).intoDerivation = .ok cited := by
  cases cited with
  | memory id => simp [derivationRow, DerivationRow.intoDerivation, recordId_ulidText h]; rfl
  | episode id =>
    have hne : EPISODE ≠ MEMORY := by decide
    simp [derivationRow, DerivationRow.intoDerivation, recordId_ulidText h, hne]; rfl

theorem toSource_cells {source : Source} (h : Source.Storable source) :
    toSource (sourceCells source).1 (sourceCells source).2 = .ok source := by
  cases source with
  | agent => rfl
  | episode id => simp [sourceCells, toSource, recordId_ulidText h]; rfl
  | external origin => rfl

theorem toU32_cast {n : ℕ} (h : n < 2 ^ 32) : toU32 n = n := by
  unfold toU32
  rw [if_pos (by omega), Int.toNat_natCast]

theorem toU32_lt (n : ℤ) : toU32 n < 2 ^ 32 := by
  unfold toU32
  split_ifs <;> omega

theorem clamp_of_mem {novelty : ℚ} (h : 0 ≤ novelty ∧ novelty ≤ 1) :
    max 0 (min 1 novelty) = novelty := by
  rw [min_eq_right h.2, max_eq_right h.1]

/-- What is parsed one by one is parsed as a list. -/
theorem mapM_spelled {α β γ ε : Type} {spell : α → β} {parse : β → Except ε γ} {value : α → γ}
    {l : List α} (h : ∀ a ∈ l, parse (spell a) = .ok (value a)) :
    (l.map spell).mapM parse = .ok (l.map value) := by
  induction l with
  | nil => rfl
  | cons a l ih =>
    rw [List.map_cons, List.mapM_cons, h a List.mem_cons_self,
      ih fun b hb => h b (List.mem_cons_of_mem a hb)]
    rfl

theorem mapM_spelled_option {α β γ ε : Type} {spell : α → β} {parse : β → Except ε γ}
    {value : α → γ} {o : Option α} (h : ∀ a ∈ o, parse (spell a) = .ok (value a)) :
    (o.map spell).mapM parse = .ok (o.map value) := by
  cases o with
  | none => rfl
  | some a => exact congrArg (Except.map some) (h a rfl)

theorem malformed_ok {α : Type} {r : Except CoreError α} {a : α} (h : r = .ok a) :
    malformed r = .ok a := by
  rw [h]
  rfl

theorem map_toTimestamp_toDatetime {o : Option Timestamp} (h : ∀ stamp ∈ o, InRange stamp) :
    (o.map toDatetime).map toTimestamp = o.map whole := by
  cases o with
  | none => rfl
  | some stamp => exact congrArg some (toTimestamp_toDatetime (h stamp rfl))

theorem map_clamp {o : Option ℚ} (h : ∀ novelty ∈ o, 0 ≤ novelty ∧ novelty ≤ 1) :
    o.map (fun novelty => max 0 (min 1 novelty)) = o := by
  cases o with
  | none => rfl
  | some novelty => exact congrArg some (clamp_of_mem (h novelty rfl))

/-- A record is read back from its row as it was, but for its vector and the fractions of the
seconds before 1970. -/
theorem intoRecord_of {m : MemoryRecord} (h : Storable m) :
    (MemoryReadRow.of m).intoRecord = .ok (stored m) := by
  have hid := malformed_ok (recordId_ulidText h.id)
  have hspace := malformed_ok (newSpace_name m.space)
  have hkind := malformed_ok (parseKind_str m.kind)
  have hdecay := malformed_ok (parseDecayClass_str m.decayClass)
  have hreason : (m.invalidReason.map invalidReasonStr).mapM
      (fun reason => malformed (parseInvalidReason reason)) = .ok (m.invalidReason.map id) :=
    mapM_spelled_option fun reason _ => malformed_ok (parseInvalidReason_str reason)
  have hsupersedes : (m.supersedes.map fun id => ulidText id.ulid).mapM
      (fun id => malformed (recordId id)) = .ok (m.supersedes.map MemoryId.ulid) :=
    mapM_spelled fun id hmem => malformed_ok (recordId_ulidText (h.supersedes id hmem))
  have hsuperseded : (m.supersededBy.map fun id => ulidText id.ulid).mapM
      (fun id => malformed (recordId id)) = .ok (m.supersededBy.map MemoryId.ulid) :=
    mapM_spelled_option fun id hmem => malformed_ok (recordId_ulidText (h.supersededBy id hmem))
  have hsource := toSource_cells h.source
  have hderived : (m.derivedFrom.map derivationRow).mapM DerivationRow.intoDerivation =
      .ok (m.derivedFrom.map id) :=
    mapM_spelled fun cited hmem => intoDerivation_row (h.derivedFrom cited hmem)
  have hmk : MemoryId.mk ∘ MemoryId.ulid = id := rfl
  unfold MemoryReadRow.intoRecord MemoryReadRow.of stored
  dsimp only
  rw [hid, hspace, hkind, hdecay, hreason, hsupersedes, hsuperseded, hsource, hderived]
  simp only [bind, Except.bind, pure, Except.pure]
  rw [map_toTimestamp_toDatetime h.invalidAt, List.map_map, Option.map_map, hmk,
    toTimestamp_toDatetime h.lastAccessed, toTimestamp_toDatetime h.validFrom,
    toTimestamp_toDatetime h.createdAt, map_clamp h.novelty, toU32_cast h.accessCount]
  simp only [Option.map_id, List.map_id, id]

/-- An episode is read back as it was, but for the fractions of the seconds before 1970 and for tags
that do not tag a document. -/
theorem intoEpisode_of {e : Episode} (hid : IsId e.id.ulid) (hoccurred : InRange e.occurredAt)
    (hcreated : InRange e.createdAt) :
    (EpisodeReadRow.of e).intoEpisode = .ok (storedEpisode e) := by
  have hid := malformed_ok (recordId_ulidText hid)
  have hspace := malformed_ok (newSpace_name e.space)
  have hkind : (e.docKind.map docKindStr).mapM (fun kind => malformed (parseDocKind kind)) =
      .ok (e.docKind.map id) :=
    mapM_spelled_option fun kind _ => malformed_ok (parseDocKind_str kind)
  have htags : (if e.isDocument then some e.tags else none).getD [] =
      if e.isDocument then e.tags else [] := by
    split_ifs <;> rfl
  unfold EpisodeReadRow.intoEpisode EpisodeReadRow.of storedEpisode
  dsimp only
  rw [hid, hspace, hkind]
  simp only [bind, Except.bind, pure, Except.pure]
  rw [toTimestamp_toDatetime hoccurred, toTimestamp_toDatetime hcreated, htags, Option.map_id, id]

theorem map_whole_eq_self {o : Option Timestamp} : o.map whole = o ↔ ∀ stamp ∈ o, Exact stamp := by
  cases o with
  | none => simp
  | some stamp =>
    rw [Option.map_some, Option.some_inj, whole_eq_self]
    simp

theorem stored_eq_iff {m : MemoryRecord} :
    stored m = { m with embedding := none } ↔
      Exact m.lastAccessed ∧ Exact m.validFrom ∧ (∀ stamp ∈ m.invalidAt, Exact stamp) ∧
        Exact m.createdAt := by
  rw [← whole_eq_self, ← whole_eq_self, ← map_whole_eq_self, ← whole_eq_self]
  simp [stored]

/-- Nothing is lost but the vector where no instant is inside a second before 1970. -/
theorem read_back {m : MemoryRecord} (h : Storable m) :
    (MemoryReadRow.of m).intoRecord = .ok (stored m) ∧
      (stored m = { m with embedding := none } ↔
        Exact m.lastAccessed ∧ Exact m.validFrom ∧ (∀ stamp ∈ m.invalidAt, Exact stamp) ∧
          Exact m.createdAt) :=
  ⟨intoRecord_of h, stored_eq_iff⟩

/-- A lesson of the last nanosecond of 1969. -/
def dusk : MemoryRecord where
  id := ⟨0⟩
  space := SpaceName.user
  kind := .lesson
  content := ['a']
  contentHash := []
  entities := []
  tags := []
  embedding := none
  decayClass := .slow
  strength := 1
  lastAccessed := 0
  accessCount := 3
  validFrom := -1
  invalidAt := none
  invalidReason := none
  supersedes := []
  supersededBy := some ⟨0⟩
  source := .episode ⟨0⟩
  writer := none
  novelty := some 1
  derivedFrom := [.memory ⟨0⟩]
  createdAt := 0

theorem isId_zero : IsId 0 := ⟨⟨List.replicate ULID_LEN '0', by decide⟩, by decide⟩

theorem storable_dusk : Storable dusk where
  id := isId_zero
  supersedes := by simp [dusk]
  supersededBy := by simpa [dusk] using isId_zero
  source := isId_zero
  derivedFrom := by simpa [dusk, Derivation.Storable] using isId_zero
  lastAccessed := ⟨by decide, by decide⟩
  validFrom := ⟨by decide, by decide⟩
  invalidAt := by simp [dusk]
  createdAt := ⟨by decide, by decide⟩
  accessCount := by decide
  novelty := by
    rintro _ ⟨⟩
    exact ⟨by decide, le_refl 1⟩

theorem read_back_dusk :
    (MemoryReadRow.of dusk).intoRecord = .ok { dusk with validFrom := 0 } :=
  (read_back storable_dusk).1

/-! ### What is read -/

theorem of_bind_ok {α β ε : Type} {x : Except ε α} {f : α → Except ε β} {b : β}
    (h : x >>= f = .ok b) : ∃ a, x = .ok a ∧ f a = .ok b := by
  cases x with
  | error e => cases h
  | ok a => exact ⟨a, rfl, h⟩

theorem of_map_ok {α β ε : Type} {x : Except ε α} {f : α → β} {b : β} (h : x.map f = .ok b) :
    ∃ a, x = .ok a ∧ f a = b := by
  cases x with
  | error e => cases h
  | ok a => exact ⟨a, rfl, Except.ok.inj h⟩

theorem of_malformed_ok {α : Type} {r : Except CoreError α} {a : α} (h : malformed r = .ok a) :
    r = .ok a := by
  cases r with
  | error e => cases h
  | ok b => exact congrArg Except.ok (Except.ok.inj h)

theorem of_mapM_ok {α β ε : Type} {parse : α → Except ε β} {l : List α} {r : List β}
    (h : l.mapM parse = .ok r) : ∀ b ∈ r, ∃ a, parse a = .ok b := by
  induction l generalizing r with
  | nil =>
    cases h
    simp
  | cons a l ih =>
    rw [List.mapM_cons] at h
    obtain ⟨b, hb, h⟩ := of_bind_ok h
    obtain ⟨bs, hbs, h⟩ := of_bind_ok h
    cases h
    intro c hc
    rcases List.mem_cons.mp hc with rfl | hc
    · exact ⟨a, hb⟩
    · exact ih hbs c hc

theorem of_mapM_ok_option {α β ε : Type} {parse : α → Except ε β} {o : Option α} {r : Option β}
    (h : o.mapM parse = .ok r) : ∀ b ∈ r, ∃ a, parse a = .ok b := by
  cases o with
  | none =>
    cases h
    simp
  | some a =>
    obtain ⟨b, hb, rfl⟩ := of_map_ok h
    rintro _ ⟨⟩
    exact ⟨a, hb⟩

theorem isId_of_recordId {id : Text} {n : ℕ} (h : recordId id = .ok n) : IsId n := by
  unfold recordId at h
  split at h
  · rename_i ulid _
    exact ⟨ulid, Except.ok.inj h⟩
  · cases h

theorem isId_of_malformed {id : Text} {n : ℕ} (h : malformed (recordId id) = .ok n) : IsId n :=
  isId_of_recordId (of_malformed_ok h)

theorem storable_of_toSource {kind : Text} {reference : Option Text} {source : Source}
    (h : toSource kind reference = .ok source) : Source.Storable source := by
  unfold toSource at h
  split at h
  · cases h
    trivial
  · split at h
    · split_ifs at h
      · obtain ⟨n, hn, rfl⟩ := of_map_ok h
        exact isId_of_malformed hn
      · cases h
        trivial
    · cases h

theorem storable_of_intoDerivation {row : DerivationRow} {cited : Derivation}
    (h : row.intoDerivation = .ok cited) : Derivation.Storable cited := by
  unfold DerivationRow.intoDerivation at h
  split_ifs at h
  · obtain ⟨n, hn, rfl⟩ := of_map_ok h
    exact isId_of_malformed hn
  · obtain ⟨n, hn, rfl⟩ := of_map_ok h
    exact isId_of_malformed hn

/-- What is read from a row, whatever is in it, can be stored. -/
theorem intoRecord_storable {row : MemoryReadRow} {m : MemoryRecord} (h : row.intoRecord = .ok m) :
    Storable m := by
  unfold MemoryReadRow.intoRecord at h
  obtain ⟨id, hid, h⟩ := of_bind_ok h
  obtain ⟨space, -, h⟩ := of_bind_ok h
  obtain ⟨kind, -, h⟩ := of_bind_ok h
  obtain ⟨decayClass, -, h⟩ := of_bind_ok h
  obtain ⟨reason, -, h⟩ := of_bind_ok h
  obtain ⟨supersedes, hsupersedes, h⟩ := of_bind_ok h
  obtain ⟨supersededBy, hsuperseded, h⟩ := of_bind_ok h
  obtain ⟨source, hsource, h⟩ := of_bind_ok h
  obtain ⟨derivedFrom, hderived, h⟩ := of_bind_ok h
  cases h
  exact {
    id := isId_of_malformed hid
    supersedes := by
      intro id hmem
      obtain ⟨n, hn, rfl⟩ := List.mem_map.mp hmem
      obtain ⟨text, htext⟩ := of_mapM_ok hsupersedes n hn
      exact isId_of_malformed htext
    supersededBy := by
      intro id hmem
      obtain ⟨n, hn, rfl⟩ := Option.mem_map.mp hmem
      obtain ⟨text, htext⟩ := of_mapM_ok_option hsuperseded n hn
      exact isId_of_malformed htext
    source := storable_of_toSource hsource
    derivedFrom := by
      intro cited hmem
      obtain ⟨link, hlink⟩ := of_mapM_ok hderived cited hmem
      exact storable_of_intoDerivation hlink
    lastAccessed := inRange_toTimestamp _
    validFrom := inRange_toTimestamp _
    invalidAt := by
      intro stamp hmem
      obtain ⟨value, -, rfl⟩ := Option.mem_map.mp hmem
      exact inRange_toTimestamp value
    createdAt := inRange_toTimestamp _
    accessCount := toU32_lt _
    novelty := by
      intro novelty hmem
      obtain ⟨value, -, rfl⟩ := Option.mem_map.mp hmem
      exact ⟨le_max_left _ _, max_le (by decide) (min_le_left _ _)⟩ }

theorem storable_stored {m : MemoryRecord} (h : Storable m) : Storable (stored m) where
  id := h.id
  supersedes := h.supersedes
  supersededBy := h.supersededBy
  source := h.source
  derivedFrom := h.derivedFrom
  lastAccessed := inRange_whole h.lastAccessed
  validFrom := inRange_whole h.validFrom
  invalidAt := by
    intro stamp hmem
    obtain ⟨instant, hinstant, rfl⟩ := Option.mem_map.mp hmem
    exact inRange_whole (h.invalidAt instant hinstant)
  createdAt := inRange_whole h.createdAt
  accessCount := h.accessCount
  novelty := h.novelty

theorem stored_stored (m : MemoryRecord) : stored (stored m) = stored m := by
  simp [stored, whole_whole, Function.comp_def]

/-- A row that was read and is written again reads the same from then on, whoever wrote it first. -/
theorem reread {row : MemoryReadRow} {m : MemoryRecord} (h : row.intoRecord = .ok m) :
    Storable m ∧ (MemoryReadRow.of m).intoRecord = .ok (stored m) ∧
      (MemoryReadRow.of (stored m)).intoRecord = .ok (stored m) := by
  have hm := intoRecord_storable h
  have hagain := intoRecord_of (storable_stored hm)
  rw [stored_stored] at hagain
  exact ⟨hm, intoRecord_of hm, hagain⟩

theorem reread_dusk :
    (MemoryReadRow.of { dusk with validFrom := 0 }).intoRecord = .ok { dusk with validFrom := 0 } :=
  (reread (intoRecord_of storable_dusk)).2.2

end Agmem.Store.Columns
