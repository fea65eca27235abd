import Agmem.Tools.Bare

/-! `memory://` resources. A space has an index, a record of a space has the address that is its id,
and a document has one for its text. The record form hands its last part to the audit verb, and so
answers whatever that verb can read there, an id or not; and it hands over the name of the space,
which the verb may take for the space of the session. -/

namespace Agmem.Tools.Resources

open Core Relational Links Store Inspect

def SCHEME : Text := ['m', 'e', 'm', 'o', 'r', 'y', ':', '/', '/']

/-- The path segment that tells the document form from the record form. -/
def DOC_SEGMENT : Text := ['d', 'o', 'c', '/']

/-- What a document reads as when it was stored without a media type. -/
def DOC_MIME : Text := ['t', 'e', 'x', 't', '/', 'p', 'l', 'a', 'i', 'n']

/-- How many documents of a space are listed. -/
def LISTED_DOCUMENTS : ℕ := 10

/-- The `memory://<space>/doc/<id>` form of a document. -/
def documentUri (space id : Text) : Text := SCHEME ++ (space ++ '/' :: (DOC_SEGMENT ++ id))

/-- The `memory://<space>/<id>` form of a record. -/
def recordUri (space id : Text) : Text := SCHEME ++ (space ++ '/' :: id)

/-- One line of the index: enough to recognise a claim, and the address to read it at. -/
structure IndexEntry where
  uri : Text
  id : MemoryId
  kind : Kind
  content : Text

/-- The index of a space. -/
structure Index where
  space : SpaceName
  live : ℕ
  memories : List IndexEntry
  /-- "The strongest … of … live claims — a page, not the whole space. …" -/
  truncated : Option (ℕ × ℕ)

/-- What is not found, and why. -/
inductive NotFound where
  /-- "no such resource: … — this server serves …" -/
  | scheme (uri : Text)
  /-- "no such space: … — resources/list names the registered ones" -/
  | space (name : Text)
  /-- "memory://…/…: …", with what the audit verb said -/
  | record (space id : Text) (error : RunError)
  /-- "…: `…` is not a document id" -/
  | documentId (uri id : Text)
  /-- "…: no document with that id in `…`" -/
  | document (uri space : Text)
  /-- "…: that is anonymous text, not a document; it reads at …" -/
  | anonymous (uri space id : Text)

inductive ReadError where
  | notFound (what : NotFound)
  /-- A store failure stays what it is. -/
  | internal (error : RunError)
  | store (error : ErrorData)

inductive Contents where
  | index (index : Index)
  | record (result : InspectResult)
  | document (content mime : Text)

/-- `str::strip_prefix` -/
def stripPrefix (front text : Text) : Option Text :=
  if front.isPrefixOf text then some (text.drop front.length) else none

/-- The `memory://<space>` form. -/
def index (db : Db) (name : Text) : Except ReadError Index :=
  match SpaceName.new? name with
  | none => .error (.notFound (.space name))
  | some space =>
    if space ∈ Store.spaces db then
      let memories := (directLookup db ⟨[space], ⟨[], [], []⟩, .live, MAX_POOL⟩).map fun r =>
        ⟨recordUri space.name (ulidText r.id.ulid), r.id, r.kind, r.content⟩
      let live := (stats db space).live
      .ok ⟨space, live, memories,
        if memories.length < live then some (memories.length, live) else none⟩
    else .error (.notFound (.space name))

/-- Whose fault a refusal of the audit verb is. -/
def blamed (space id : Text) : RunError → ReadError
  | .unreachableChunk => .internal .unreachableChunk
  | .tool (.internal failure) => .internal (.tool (.internal failure))
  | error => .notFound (.record space id error)

/-- The `memory://<space>/<id>` form: the answer of the audit verb, exactly. -/
def record (service : Service) (db : Db) (space id : Text) : Except ReadError InspectResult :=
  match Inspect.run service db ⟨id, some space, none, none, [], []⟩ with
  | .error e => .error (blamed space id e)
  | .ok result => .ok result

/-- The `memory://<space>/doc/<id>` form: the text as stored, and its media type. -/
def document (db : Db) (space id uri : Text) : Except ReadError (Text × Text) :=
  match SpaceName.new? space with
  | none => .error (.notFound (.space space))
  | some name =>
    match Ulid.new? id with
    | none => .error (.notFound (.documentId uri id))
    | some episodeId =>
      match Store.episode db name ⟨episodeId.number⟩ with
      | .error (.unknownEpisode _ _) => .error (.notFound (.document uri space))
      | .error e => .error (.store (storeError e))
      | .ok detail =>
        if detail.episode.isDocument then
          .ok (detail.episode.content, detail.episode.mime.getD DOC_MIME)
        else .error (.notFound (.anonymous uri space id))

/-- Answer one address. -/
def read (service : Service) (db : Db) (uri : Text) : Except ReadError Contents :=
  match stripPrefix SCHEME uri with
  | none => .error (.notFound (.scheme uri))
  | some path =>
    match splitOnce '/' path with
    | none => (index db path).map .index
    | some (space, rest) =>
      match stripPrefix DOC_SEGMENT rest with
      | some id => (document db space id uri).map fun text => .document text.1 text.2
      | none => (record service db space rest).map .record

/-- The addresses that are listed: of every registered space, and of the newest documents of the
spaces that are read together. -/
def list (service : Service) (db : Db) : List Text :=
  let attached := if service.space = .user then [service.space] else [service.space, .user]
  (Store.spaces db).map (fun space => SCHEME ++ space.name) ++ attached.flatMap fun space =>
    (Store.documents db space ⟨[], [], LISTED_DOCUMENTS⟩).map fun summary =>
      documentUri space.name (ulidText summary.episode.id.ulid)

variable {service : Service} {db : Db} {uri : Text}

/-! ### Record addresses -/

/-- The space and the last part of a record address. -/
def recordParts (uri : Text) : Option (Text × Text) :=
  ((stripPrefix SCHEME uri).bind (splitOnce '/')).filter fun parts =>
    (stripPrefix DOC_SEGMENT parts.2).isNone

theorem read_eq_record {space rest : Text} (h : recordParts uri = some (space, rest)) :
    read service db uri = (record service db space rest).map .record := by
  obtain ⟨h, hdoc⟩ := Option.filter_eq_some_iff.mp h
  obtain ⟨path, hpath, hsplit⟩ := Option.bind_eq_some_iff.mp h
  rw [read, hpath]
  dsimp only
  rw [hsplit]
  dsimp only
  rw [Option.isNone_iff_eq_none.mp hdoc]

theorem read_eq_record_iff {result : InspectResult} :
    read service db uri = .ok (.record result) ↔ ∃ space rest,
      recordParts uri = some (space, rest) ∧ record service db space rest = .ok result := by
  constructor
  · intro h
    unfold read at h
    split at h
    · cases h
    · next path hpath =>
      split at h
      · cases hindex : index db path <;> rw [hindex] at h <;> cases h
      · next space rest hsplit =>
        split at h
        · next id hdoc =>
          cases hdocument : document db space id uri <;> rw [hdocument] at h <;> cases h
        · next hdoc =>
          cases hrecord : record service db space rest with
          | error e =>
            rw [hrecord] at h
            cases h
          | ok found =>
            rw [hrecord] at h
            cases h
            exact ⟨space, rest, by simp [recordParts, hpath, hsplit, hdoc], hrecord⟩
  · rintro ⟨space, rest, hparts, hrecord⟩
    rw [read_eq_record hparts, hrecord]
    rfl

/-- What the audit verb is asked. -/
theorem record_of_parse {space rest name : Text} {reference : Reference}
    (hparse : Reference.parse rest = some reference)
    (hname : reference.requested (some space) = some name) :
    record service db space rest = match Tools.spaces service db (some name) with
      | .error e => .error (blamed space rest (.tool e))
      | .ok spaces =>
        match answered service db ⟨rest, some space, none, none, [], []⟩ spaces reference with
        | .error e => .error (blamed space rest e)
        | .ok found => .ok ⟨found.1, spaces, found.2⟩ := by
  unfold record run
  simp only [hparse, hname]
  cases Tools.spaces service db (some name) with
  | error e => rfl
  | ok spaces =>
    dsimp only
    cases answered service db ⟨rest, some space, none, none, [], []⟩ spaces reference <;> rfl

/-- A record address names a space, or its last part does. -/
theorem requested_some (space : Text) (reference : Reference) :
    ∃ name, reference.requested (some space) = some name := by
  cases reference with
  | docs own => cases own <;> exact ⟨_, rfl⟩
  | _ => exact ⟨_, rfl⟩

/-- Keywords are slugs too, so whatever a space can be called is one. -/
theorem spaces_isOk_iff {name : Text} :
    (∃ spaces, Tools.spaces service db (some name) = .ok spaces) ↔ isSlug name = true := by
  unfold Tools.spaces SpaceName.new?
  constructor
  · rintro ⟨spaces, h⟩
    dsimp only at h
    split_ifs at h with hcurrent hall hslug
    · exact hcurrent ▸ by decide
    · exact hall ▸ by decide
    · exact hslug
  · intro hslug
    simp only [hslug, dif_pos]
    split_ifs <;> exact ⟨_, rfl⟩

/-! ### What is answered -/

/-- On no store is a record answered under an address that does not end in a bare id. -/
def OnlyBare (uri : Text) : Prop :=
  ∀ service db result, read service db uri = .ok (.record result) →
    ∃ space id, recordParts uri = some (space, id) ∧ isUlid id = true

/-- The last part is in the grammar of the audit verb and no bare id, and it is asked of a name
that a space can have. -/
def Leaks (uri : Text) : Prop :=
  ∃ space rest reference name, recordParts uri = some (space, rest) ∧
    Reference.parse rest = some reference ∧ isUlid rest = false ∧
    reference.requested (some space) = some name ∧ isSlug name = true

/-- A session of that space, which finds nothing by search. -/
def sessionOf (space : SpaceName) : Service where
  space := space
  pool := 0
  embedder := .noop
  engine := ⟨fun _ _ _ => .ok [], fun _ _ => []⟩

/-- A claim of that number. -/
def claimOf (space : SpaceName) (id : ℕ) : MemoryRecord where
  id := ⟨id⟩
  space := space
  kind := .fact
  content := []
  contentHash := []
  entities := []
  tags := []
  embedding := none
  decayClass := .normal
  strength := 1
  lastAccessed := 0
  accessCount := 0
  validFrom := 0
  invalidAt := none
  invalidReason := none
  supersedes := []
  supersededBy := none
  source := .agent
  writer := none
  novelty := none
  derivedFrom := []
  createdAt := 0

/-- A plan of that number and title. -/
def planOf (space : SpaceName) (id : ℕ) (title : Text) : Episode where
  id := ⟨id⟩
  space := space
  content := []
  contentHash := []
  occurredAt := 0
  session := none
  createdAt := 0
  title := some title
  docKind := some .plan
  tags := []
  mime := none

/-- A store of one space, with one claim and one plan in it. -/
def storeOf (space : SpaceName) (id : ℕ) (title : Text) : Db where
  memory := ⟨[claimOf space id], List.nodup_singleton _, List.nodup_singleton _⟩
  episode := ⟨[planOf space id title], List.nodup_singleton _, List.nodup_singleton _⟩
  episodeChunk := ∅
  space := ⟨[⟨space, 0⟩], List.nodup_singleton _, List.nodup_singleton _⟩
  dimension := 0
  minted := 0

theorem spaces_storeOf (space : SpaceName) (id : ℕ) (title : Text) :
    Tools.spaces (sessionOf space) (storeOf space id title) (some space.name) = .ok [space] := by
  unfold Tools.spaces
  have hnew : SpaceName.new? space.name = some space := dif_pos space.slug
  simp only [hnew]
  split_ifs
  · rfl
  · rfl
  · rfl

theorem claimOf_mem {space : SpaceName} {id : ℕ} {title : Text} {r : MemoryRecord} :
    r ∈ (storeOf space id title).memory ↔ r = claimOf space id := List.mem_singleton

/-- A claim without links is its own chain. -/
theorem claimOf_shown (space : SpaceName) (id : ℕ) (title : Text) :
    ¬ Unshown (storeOf space id title) (claimOf space id) := by
  rintro (⟨-, hbroken⟩ | ⟨cited, hcited, -⟩)
  · have hback (q : MemoryId) :
        q ∉ supersedesOf (storeOf space id title) (claimOf space id).id := by
      intro hq
      obtain ⟨r, hr, -, hq⟩ := mem_supersedesOf.mp hq
      rw [claimOf_mem.mp hr] at hq
      cases hq
    have hforth (q : MemoryId) :
        q ∉ supersededByOf (storeOf space id title) (claimOf space id).id := by
      intro hq
      obtain ⟨r, hr, -, hq⟩ := mem_supersededByOf.mp hq
      rw [claimOf_mem.mp hr] at hq
      cases hq
    refine hbroken ⟨nodup_chainRow_iff.mpr ⟨fun h => ?_, fun h => ?_, fun q h => ?_⟩, ?_⟩
    · obtain ⟨_, -, q, hq, -⟩ := mem_collect.mp h
      exact absurd hq (hback q)
    · obtain ⟨_, -, q, hq, -⟩ := mem_collect.mp h
      exact absurd hq (hforth q)
    · obtain ⟨_, -, q, hq, -⟩ := mem_collect.mp h
      exact absurd hq (hback q)
    · rintro q (rfl | ⟨_, -, q, hq, -⟩ | ⟨_, -, q, hq, -⟩)
      · exact ⟨_, claimOf_mem.mpr rfl, rfl⟩
      · exact absurd hq (hback q)
      · exact absurd hq (hforth q)
  · cases hcited

theorem episode_storeOf (space : SpaceName) (id : ℕ) (title : Text) (window : WindowSpec) :
    ∃ found, episode (storeOf space id title) ⟨id⟩ window [space] = .ok (some found) := by
  obtain ⟨found, h, -⟩ := @episode_stored (storeOf space id title) [space]
    (planOf space id title) (List.mem_singleton_self _) (List.mem_singleton_self space) window
  exact ⟨found, h⟩

theorem memory_storeOf (space : SpaceName) (id : ℕ) (title : Text) :
    ∃ found, memory (storeOf space id title) [space] ⟨id⟩ = .ok (some found) := by
  rcases memory_stored (claimOf_mem.mpr rfl) (List.mem_singleton_self space) with
    ⟨found, h, -⟩ | ⟨h, -⟩
  · exact ⟨found, h⟩
  · exact absurd h (claimOf_shown space id title)

/-- Every reference is answered in the space of a store that holds what it names. -/
theorem exists_answered (params : InspectParams) (space : SpaceName) (reference : Reference) :
    ∃ id title found, answered (sessionOf space) (storeOf space id title) params [space] reference =
      .ok found := by
  cases reference with
  | stats => exact ⟨0, [], _, rfl⟩
  | docs own => exact ⟨0, [], _, rfl⟩
  | entity name => exact ⟨0, [], _, rfl⟩
  | memory id =>
    obtain ⟨found, h⟩ := memory_storeOf space id.number []
    exact ⟨id.number, [], _, by simp only [answered, h]; rfl⟩
  | unqualified id =>
    obtain ⟨found, h⟩ := memory_storeOf space id.number []
    exact ⟨id.number, [], _, by simp only [answered, unqualified, h]; rfl⟩
  | episode id =>
    obtain ⟨found, h⟩ := episode_storeOf space id.number [] ⟨params.offset, params.limit⟩
    exact ⟨id.number, [], _, by simp only [answered, h]; rfl⟩
  | doc own title =>
    have htitle : (documentsByTitle (storeOf space 0 title) space title).head? =
        some (planOf space 0 title) := by
      simp [documentsByTitle, newestFirst, storeOf, planOf]
    obtain ⟨detail, hdetail⟩ : ∃ detail,
        Store.episode (storeOf space 0 title) space ⟨0⟩ = .ok detail := by
      refine (episode_cases (storeOf space 0 title) space ⟨0⟩).resolve_right fun hunknown => ?_
      obtain ⟨found, hfound⟩ := episode_storeOf space 0 title ⟨none, none⟩
      simp [Inspect.episode, hunknown] at hfound
    exact ⟨0, title, _, by simp only [answered, Inspect.document, htitle, planOf, hdetail]; rfl⟩

theorem onlyBare_iff (uri : Text) : OnlyBare uri ↔ ¬ Leaks uri := by
  constructor
  · rintro honly ⟨space, rest, reference, name, hparts, hparse, hbare, hname, hslug⟩
    obtain ⟨id, title, found, hfound⟩ :=
      exists_answered ⟨rest, some space, none, none, [], []⟩ ⟨name, hslug⟩ reference
    have hspaces : Tools.spaces (sessionOf ⟨name, hslug⟩) (storeOf ⟨name, hslug⟩ id title)
        (some name) = .ok [⟨name, hslug⟩] := spaces_storeOf ⟨name, hslug⟩ id title
    obtain ⟨space', id', hparts', hulid⟩ := honly (sessionOf ⟨name, hslug⟩)
      (storeOf ⟨name, hslug⟩ id title) ⟨found.1, [⟨name, hslug⟩], found.2⟩
      (read_eq_record_iff.mpr ⟨space, rest, hparts, by
        rw [record_of_parse hparse hname, hspaces]
        dsimp only
        rw [hfound]⟩)
    obtain ⟨-, rfl⟩ := Prod.mk.inj (Option.some.inj (hparts.symm.trans hparts'))
    exact absurd (hbare.symm.trans hulid) (by decide)
  · intro hleaks service db result h
    obtain ⟨space, rest, hparts, hrecord⟩ := read_eq_record_iff.mp h
    refine ⟨space, rest, hparts, ?_⟩
    by_contra hbare
    cases hparse : Reference.parse rest with
    | none => simp [record, run, hparse, blamed] at hrecord
    | some reference =>
      obtain ⟨name, hname⟩ := requested_some space reference
      refine hleaks ⟨space, rest, reference, name, hparts, hparse, by simpa using hbare, hname, ?_⟩
      rw [record_of_parse hparse hname] at hrecord
      refine (@spaces_isOk_iff service db name).mp ?_
      cases hspaces : Tools.spaces service db (some name) with
      | error e => simp [hspaces] at hrecord
      | ok spaces => exact ⟨spaces, rfl⟩

end Agmem.Tools.Resources
