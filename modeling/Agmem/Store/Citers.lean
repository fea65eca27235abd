import Mathlib.Data.List.Dedup
import Agmem.Store.Documents
import Agmem.Store.Rows
import Agmem.Store.Search

/-! Who cites a document. Three queries ask it: the listing of documents counts, the purge guard
lists, and the orphans are what is left. The listing compares ids without their tables, so it
agrees with the others as long as no link to a memory has the id of an episode. -/

namespace Agmem.Store

open Core Relational

/-! ### The queries -/

/-- Which documents to list. -/
structure DocumentFilter where
  kinds : List DocKind
  tags : List Text
  limit : ℕ

structure DocumentSummary where
  episode : Episode
  cited : ℕ

def DocumentFilter.admits (filter : DocumentFilter) (e : Episode) : Bool :=
  (filter.kinds.isEmpty || e.docKind.any fun kind => decide (kind ∈ filter.kinds)) &&
    (filter.tags.isEmpty || e.tags.any fun tag => decide (tag ∈ filter.tags))

/-- `$docs` -/
def listedDocuments (db : Db) (space : SpaceName) (filter : DocumentFilter) : List Episode :=
  (newestFirst (db.episode.rows.filter fun e =>
    decide (e.space = space) && e.isDocument && filter.admits e)).take
      (clampPool filter.limit)

def liveRows (db : Db) (space : SpaceName) : List MemoryRecord :=
  db.memory.rows.filter fun r => decide (r.space = space) && r.isLive

/-- The episode behind `source.ref`. -/
def sourceRef (r : MemoryRecord) : Option EpisodeId :=
  match r.source with
  | .episode id => some id
  | _ => none

/-- The id of a link, without its table. -/
def recordId : Derivation → ℕ
  | .memory id => id.ulid
  | .episode id => id.ulid

/-- `by_source` -/
def bySource (db : Db) (space : SpaceName) (ids : List EpisodeId) : List (ℕ × ℕ) :=
  (liveRows db space).filterMap fun r =>
    ((sourceRef r).filter fun id => decide (id ∈ ids)).map fun id => (r.id.ulid, id.ulid)

/-- `by_derivation` -/
def byDerivation (db : Db) (space : SpaceName) (ids : List EpisodeId) : List (ℕ × List ℕ) :=
  ((liveRows db space).filter fun r => r.derivedFrom.any fun link =>
    decide (link ∈ ids.map Derivation.episode)).map fun r =>
      (r.id.ulid, r.derivedFrom.map recordId)

/-- The pairs of a memory and what it cites; the same pair through both columns is one. -/
def citerPairs (db : Db) (space : SpaceName) (ids : List EpisodeId) : List (ℕ × ℕ) :=
  (bySource db space ids ++ (byDerivation db space ids).flatMap fun cite =>
    cite.2.map fun document => (cite.1, document)).dedup

/-- The documents that pass a filter, newest first, each with how many live memories cite it. -/
def documents (db : Db) (space : SpaceName) (filter : DocumentFilter) : List DocumentSummary :=
  let docs := listedDocuments db space filter
  let citers := citerPairs db space (docs.map Episode.id)
  docs.map fun doc => ⟨doc, (citers.filter fun cite => decide (cite.2 = doc.id.ulid)).length⟩

/-- `duration::from_days` -/
def fromDays (days : ℕ) : ℤ := days * (86400 * 10 ^ 9)

/-- The documents that no live memory cites, stored longer ago than the grace, newest first. -/
def orphanDocuments (db : Db) (space : SpaceName) (graceDays : ℕ) (now : Timestamp) :
    List Episode :=
  let cited := (liveRows db space).filterMap sourceRef
  let derived := (liveRows db space).flatMap MemoryRecord.derivedFrom
  newestFirst (db.episode.rows.filter fun e =>
    decide (e.space = space) && e.isDocument && decide (e.createdAt < now - fromDays graceDays) &&
      !decide (.episode e.id ∈ cited.map Derivation.episode ++ derived))

/-! ### One relation -/

/-- A link of the row to a memory names an id that was given out, and not to an episode. -/
def ResolvedIn (db : Db) (r : MemoryRecord) : Prop :=
  ∀ id, .memory id ∈ r.derivedFrom →
    id.ulid < db.minted ∧ ∀ e ∈ db.episode, e.id.ulid ≠ id.ulid

def Resolved (db : Db) : Prop := ∀ r ∈ db.memory, ResolvedIn db r

/-- The views agree on who cites the documents of a space. -/
structure ViewsAgree (db : Db) (space : SpaceName) : Prop where
  counted : ∀ filter, ∀ summary ∈ documents db space filter,
    summary.cited = (documentCiters db space summary.episode.id).length
  orphaned : ∀ e ∈ db.episode, e.space = space → e.isDocument = true → ∀ graceDays now,
    e.createdAt < now - fromDays graceDays →
      (e ∈ orphanDocuments db space graceDays now ↔ documentCiters db space e.id = [])

variable {db : Db} {space : SpaceName} {ids : List EpisodeId} {e : Episode} {r : MemoryRecord}

theorem eq_of_ulid {a b : EpisodeId} (h : a.ulid = b.ulid) : a = b := by
  cases a
  cases b
  exact congrArg EpisodeId.mk h

theorem mem_liveRows :
    r ∈ liveRows db space ↔ r ∈ db.memory ∧ r.space = space ∧ r.isLive = true := by
  simp [liveRows, Table.mem_iff]

theorem sourceRef_eq_some {id : EpisodeId} : sourceRef r = some id ↔ r.source = .episode id := by
  unfold sourceRef
  cases r.source <;> simp

theorem cites_iff {id : EpisodeId} :
    cites r id = true ↔ r.source = .episode id ∨ .episode id ∈ r.derivedFrom := by
  simp [cites]

theorem mem_bySource {m d : ℕ} : (m, d) ∈ bySource db space ids ↔
    ∃ r ∈ liveRows db space, r.id.ulid = m ∧ ∃ id ∈ ids, r.source = .episode id ∧ id.ulid = d := by
  simp only [bySource, List.mem_filterMap, Option.map_eq_some_iff, Option.filter_eq_some_iff,
    sourceRef_eq_some, decide_eq_true_eq, Prod.mk.injEq]
  grind

theorem mem_byDerivation {m d : ℕ} :
    (m, d) ∈ ((byDerivation db space ids).flatMap fun cite => cite.2.map fun d => (cite.1, d)) ↔
      ∃ r ∈ liveRows db space, r.id.ulid = m ∧ (∃ id ∈ ids, .episode id ∈ r.derivedFrom) ∧
        ∃ link ∈ r.derivedFrom, recordId link = d := by
  simp only [byDerivation, List.mem_flatMap, List.mem_map, List.mem_filter, List.any_eq_true,
    decide_eq_true_eq, Prod.mk.injEq]
  grind

/-- The pairs of a document are the rows that cite it. -/
theorem mem_citerPairs (hr : Resolved db) (he : e ∈ db.episode) (hid : e.id ∈ ids) {m : ℕ} :
    (m, e.id.ulid) ∈ citerPairs db space ids ↔
      ∃ r ∈ documentCiters db space e.id, r.id.ulid = m := by
  have hlink : ∀ r ∈ liveRows db space, ∀ link ∈ r.derivedFrom, recordId link = e.id.ulid →
      link = .episode e.id := by
    intro r hlive link hmem heq
    cases link with
    | memory id => exact absurd heq.symm ((hr r (mem_liveRows.mp hlive).1 id hmem).2 e he)
    | episode id => exact congrArg Derivation.episode (eq_of_ulid heq)
  rw [citerPairs, List.mem_dedup, List.mem_append, mem_bySource, mem_byDerivation]
  constructor
  · rintro (⟨r, hlive, hm, id, -, hsource, hulid⟩ | ⟨r, hlive, hm, -, link, hmem, heq⟩)
    · have hsame : id = e.id := eq_of_ulid hulid
      obtain ⟨hmem, hspace, hl⟩ := mem_liveRows.mp hlive
      exact ⟨r, mem_documentCiters.mpr ⟨hmem, hspace, hl, cites_iff.mpr (.inl (hsame ▸ hsource))⟩,
        hm⟩
    · rw [hlink r hlive link hmem heq] at hmem
      obtain ⟨hr, hspace, hl⟩ := mem_liveRows.mp hlive
      exact ⟨r, mem_documentCiters.mpr ⟨hr, hspace, hl, cites_iff.mpr (.inr hmem)⟩, hm⟩
  · rintro ⟨r, hciter, hm⟩
    obtain ⟨hmem, hspace, hl, hcites⟩ := mem_documentCiters.mp hciter
    have hlive := mem_liveRows.mpr ⟨hmem, hspace, hl⟩
    rcases cites_iff.mp hcites with hsource | hderived
    · exact .inl ⟨r, hlive, hm, e.id, hid, hsource, rfl⟩
    · exact .inr ⟨r, hlive, hm, ⟨e.id, hid, hderived⟩, .episode e.id, hderived, rfl⟩

/-- A row is in the table once. -/
theorem documentCiters_nodup (id : EpisodeId) :
    ((documentCiters db space id).map fun r => r.id.ulid).Nodup := by
  have hkeys : (db.memory.rows.map MemoryRecord.id).Nodup := db.memory.keys
  have hids : ((documentCiters db space id).map MemoryRecord.id).Nodup :=
    ((List.perm_insertionSort _ _).map _).nodup_iff.mpr (hkeys.sublist (List.filter_sublist.map _))
  have hulids := hids.map (f := MemoryId.ulid) fun a b h => by
    cases a
    cases b
    exact congrArg MemoryId.mk h
  rwa [List.map_map] at hulids

/-- A row that cites a document through both columns counts once. -/
theorem cited_eq (hr : Resolved db) (he : e ∈ db.episode) (hid : e.id ∈ ids) :
    ((citerPairs db space ids).filter fun cite => decide (cite.2 = e.id.ulid)).length =
      (documentCiters db space e.id).length := by
  have hperm : ((citerPairs db space ids).filter fun cite => decide (cite.2 = e.id.ulid)).Perm
      ((documentCiters db space e.id).map fun r => (r.id.ulid, e.id.ulid)) := by
    refine (List.perm_ext_iff_of_nodup ((List.nodup_dedup _).filter _) ?_).mpr ?_
    · have hnodup : ((documentCiters db space e.id).map fun r => r.id.ulid).Nodup :=
        documentCiters_nodup e.id
      exact List.Nodup.of_map Prod.fst (by simpa [Function.comp_def] using hnodup)
    · rintro ⟨m, d⟩
      rw [List.mem_filter, decide_eq_true_eq, List.mem_map]
      constructor
      · rintro ⟨hmem, rfl⟩
        obtain ⟨r, hciter, rfl⟩ := (mem_citerPairs hr he hid).mp hmem
        exact ⟨r, hciter, rfl⟩
      · rintro ⟨r, hciter, heq⟩
        cases heq
        exact ⟨(mem_citerPairs hr he hid).mpr ⟨r, hciter, rfl⟩, rfl⟩
  rw [hperm.length_eq, List.length_map]

theorem mem_orphanDocuments {graceDays : ℕ} {now : Timestamp} :
    e ∈ orphanDocuments db space graceDays now ↔ e ∈ db.episode ∧ e.space = space ∧
      e.isDocument = true ∧ e.createdAt < now - fromDays graceDays ∧
        documentCiters db space e.id = [] := by
  have hcited : documentCiters db space e.id = [] ↔
      ¬ (.episode e.id ∈ ((liveRows db space).filterMap sourceRef).map Derivation.episode ++
        (liveRows db space).flatMap MemoryRecord.derivedFrom) := by
    rw [List.eq_nil_iff_forall_not_mem, ← not_exists, not_iff_not]
    simp only [mem_documentCiters, cites_iff, List.mem_append, List.mem_map, List.mem_filterMap,
      List.mem_flatMap, sourceRef_eq_some, mem_liveRows, Derivation.episode.injEq]
    grind
  rw [hcited]
  simp [orphanDocuments, newestFirst, List.mem_insertionSort, Table.mem_iff, and_assoc]

/-- Where the links are resolved, the three views say one thing. -/
theorem Resolved.viewsAgree (hr : Resolved db) (space : SpaceName) : ViewsAgree db space where
  counted filter summary hmem := by
    obtain ⟨doc, hdoc, rfl⟩ := List.mem_map.mp hmem
    have hlisted : doc ∈ db.episode := by
      have := List.mem_of_mem_take hdoc
      simp only [newestFirst, List.mem_insertionSort, List.mem_filter] at this
      exact Table.mem_iff.mpr this.1
    exact cited_eq hr hlisted (List.mem_map_of_mem hdoc)
  orphaned e he hspace hdoc graceDays now hold := by
    rw [mem_orphanDocuments]
    exact ⟨fun h => h.2.2.2.2, fun h => ⟨he, hspace, hdoc, hold, h⟩⟩

/-! ### What keeps links resolved -/

/-- Ids are given out upwards, to episodes as well. -/
structure Later (db db' : Db) : Prop where
  minted : db.minted ≤ db'.minted
  episode : ∀ e ∈ db'.episode, e ∈ db.episode ∨ db.minted ≤ e.id.ulid

variable {db' db'' : Db} {P : MemoryRecord → Prop}

theorem Later.refl (db : Db) : Later db db := ⟨le_rfl, fun _ h => .inl h⟩

theorem Later.trans (h : Later db db') (h' : Later db' db'') : Later db db'' where
  minted := h.minted.trans h'.minted
  episode e he := by
    rcases h'.episode e he with hold | hnew
    · exact h.episode e hold
    · exact .inr (h.minted.trans hnew)

theorem ResolvedIn.later (h : ResolvedIn db r) (hl : Later db db') : ResolvedIn db' r := by
  intro id hid
  obtain ⟨hlt, hne⟩ := h id hid
  refine ⟨hlt.trans_le hl.minted, fun e he => ?_⟩
  rcases hl.episode e he with hold | hnew
  · exact hne e hold
  · exact (hlt.trans_le hnew).ne'

theorem Resolved.gains (h : Resolved db) (hl : Later db db') (hg : Gains P db db')
    (hP : ∀ r, P r → ResolvedIn db r) : Resolved db' := by
  refine hg.all (fun r r' he hr id hid => ?_) (fun r hr => (hP r hr).later hl)
    fun r hr => (h r hr).later hl
  exact hr id (he.derivedFrom ▸ hid)

theorem Change.later {links : Linking → Prop} (h : Change links db db') : Later db db' := by
  refine ⟨h.grown.minted, ?_⟩
  cases h with
  | aside h => exact fun e he => (h.episode e he).imp_right And.left
  | wrote _ _ _ h => cases h <;> exact fun e he => .inl he
  | _ => exact fun e he => .inl he

theorem step_later [Hashing] {op : Op} (hw : db.WellFormed) (h : step db op = some db') :
    Later db db' := by
  obtain ⟨db₁, hchanges, hend⟩ := step_changes hw h
  have hmid : Later db db₁ := by
    clear hend
    induction hchanges with
    | refl => exact .refl db
    | tail _ hc ih => exact ih.trans hc.later
  rcases hend with rfl | ⟨-, t, -, rfl⟩
  · exact hmid
  · exact hmid.trans ⟨le_rfl, fun _ he => .inl he⟩

end Agmem.Store
