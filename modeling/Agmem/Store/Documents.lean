import Agmem.Store.Read

/-! Documents are episodes with a name and a kind. There is no version column: the rows
under one title are its versions, the newest of them is the current one, and churn is a
count by title. An episode is written once and never updated, so the rows a batch leaves
are the rows it found and at most one new one. -/

namespace Agmem.Store

open Core Relational

/-- `ORDER BY created_at DESC` -/
def newestFirst (rows : List Episode) : List Episode :=
  rows.insertionSort fun e f => f.createdAt ≤ e.createdAt

/-- Every episode filed under one title, newest first. -/
def documentsByTitle (db : Db) (space : SpaceName) (title : Text) : List Episode :=
  newestFirst (db.episode.rows.filter fun e => decide (e.space = space ∧ e.title = some title))

/-! ### churning_documents -/

/-- The documents of one title, counted. -/
structure ChurnRow where
  title : Text
  versions : ℕ
  firstAt : Timestamp
  latestAt : Timestamp

/-- A title rewritten more often than a plan should be. -/
structure DocumentChurn where
  title : Text
  docKind : DocKind
  versions : ℕ
  newest : EpisodeId
  firstAt : Timestamp
  latestAt : Timestamp
deriving DecidableEq

/-- `GROUP BY title` -/
def churnRow (documents : List Episode) (title : Text) : ChurnRow :=
  let versions := documents.filter fun e => decide (e.title = some title)
  let created := versions.map Episode.createdAt
  ⟨title, versions.length, created.min?.getD 0, created.max?.getD 0⟩

/-- `ORDER BY versions DESC, latest_at DESC` -/
def churnRows (db : Db) (space : SpaceName) (maxVersions : ℕ) : List ChurnRow :=
  let documents := db.episode.rows.filter fun e => decide (e.space = space) && e.docKind.isSome
  let titles := (documents.filterMap Episode.title).dedup
  ((titles.map (churnRow documents)).filter fun row => decide (maxVersions < row.versions))
    |>.insertionSort fun row other => other.versions < row.versions ∨
      other.versions = row.versions ∧ other.latestAt ≤ row.latestAt

/-- The current version of each churning title; a title whose rows are gone by now is skipped. -/
def churnFrom (db : Db) (space : SpaceName) : List ChurnRow → Except StoreError (List DocumentChurn)
  | [] => .ok []
  | row :: rows =>
    match (documentsByTitle db space row.title).head? with
    | none => churnFrom db space rows
    | some newest =>
      match newest.docKind with
      | none => .error (.unexpectedResponse "a document without a kind")
      | some docKind =>
        if row.versions < 2 ^ 32 then
          match churnFrom db space rows with
          | .error e => .error e
          | .ok churn =>
            .ok (⟨row.title, docKind, row.versions, newest.id, row.firstAt, row.latestAt⟩ :: churn)
        else .error (.unexpectedResponse "a negative version count")

/-- The titles in `space` with more than `maxVersions` documents under them. -/
def churningDocuments (db : Db) (space : SpaceName) (maxVersions : ℕ) :
    Except StoreError (List DocumentChurn) :=
  churnFrom db space (churnRows db space maxVersions)

/-! ### What the reads find -/

variable {db db' : Db} {space : SpaceName}

theorem mem_documentsByTitle {title : Text} {e : Episode} :
    e ∈ documentsByTitle db space title ↔
      e ∈ db.episode ∧ e.space = space ∧ e.title = some title := by
  simp [documentsByTitle, newestFirst, List.mem_insertionSort, Table.mem_iff]

theorem head?_newestFirst_cons (e : Episode) (rows : List Episode) :
    (newestFirst (e :: rows)).head? = some (match (newestFirst rows).head? with
      | none => e
      | some f => if f.createdAt ≤ e.createdAt then e else f) := by
  have hcons : newestFirst (e :: rows) =
      (newestFirst rows).orderedInsert (fun e f => f.createdAt ≤ e.createdAt) e := rfl
  rw [hcons]
  cases newestFirst rows with
  | nil => rfl
  | cons f fs =>
    simp only [List.orderedInsert, List.head?_cons]
    split_ifs <;> rfl

/-- A row added at the end comes first exactly when it is later than all the others. -/
theorem head?_newestFirst_concat (rows : List Episode) (e : Episode) :
    (newestFirst (rows ++ [e])).head? =
      if ∀ f ∈ rows, f.createdAt < e.createdAt then some e else (newestFirst rows).head? := by
  induction rows with
  | nil => simp [newestFirst]
  | cons a rows ih =>
    rw [List.cons_append, head?_newestFirst_cons, ih, head?_newestFirst_cons]
    by_cases hlate : ∀ f ∈ rows, f.createdAt < e.createdAt
    · rw [if_pos hlate]
      by_cases ha : a.createdAt < e.createdAt
      · have hall : ∀ f ∈ a :: rows, f.createdAt < e.createdAt :=
          List.forall_mem_cons.mpr ⟨ha, hlate⟩
        simp only [if_pos hall, if_neg (not_le.mpr ha)]
      · have hno : ¬ ∀ f ∈ a :: rows, f.createdAt < e.createdAt :=
          fun h => ha (h a List.mem_cons_self)
        simp only [if_neg hno, if_pos (not_lt.mp ha)]
        cases hhead : (newestFirst rows).head? with
        | none => rfl
        | some f =>
          have hf : f ∈ rows := (List.mem_insertionSort _).mp (List.mem_of_head? hhead)
          have hle : f.createdAt ≤ a.createdAt := (hlate f hf).le.trans (not_lt.mp ha)
          simp only [if_pos hle]
    · have hno : ¬ ∀ f ∈ a :: rows, f.createdAt < e.createdAt :=
        fun h => hlate fun f hf => h f (List.mem_cons_of_mem a hf)
      rw [if_neg hlate, if_neg hno]

/-- Where every row under a title has a kind, the report never misses one. -/
theorem churnFrom_ne_kindless {rows : List ChurnRow}
    (h : ∀ e ∈ db.episode, e.title.isSome = true → e.docKind.isSome = true) :
    churnFrom db space rows ≠ .error (.unexpectedResponse "a document without a kind") := by
  induction rows with
  | nil => simp [churnFrom]
  | cons row rows ih =>
    unfold churnFrom
    split
    · exact ih
    · next newest hnewest =>
      have hmem := mem_documentsByTitle.mp (List.mem_of_head? hnewest)
      have hkind := h newest hmem.1 (by simp [hmem.2.2])
      split
      · next hnone => simp [hnone] at hkind
      · split_ifs
        · split
          · next e he => simpa [he] using ih
          · simp
        · simp

/-! ### What a batch does to the episodes -/

section Batch

variable [Hashing]

/-- The content is in the space already. -/
def HoldsText (db : Db) (space : SpaceName) (hash : Text) : Prop :=
  ∃ e ∈ db.episode, e.space = space ∧ e.contentHash = hash

omit [Hashing] in
theorem find_none_iff {hash : Text} :
    (db.episode.rows.find? fun e => decide (e.space = space ∧ e.contentHash = hash)) = none ↔
      ¬ HoldsText db space hash := by
  simp [HoldsText, List.find?_eq_none, Table.mem_iff]

/-- The two ways an episode goes in: it is the row that was there, or it is added at the end. -/
theorem writeEpisode_cases {e : NewEpisode} {clock : Clock} {w : Written EpisodeId}
    (h : writeEpisode db space e clock = .ok (db', w)) :
    (∃ row ∈ db.episode, row.space = space ∧ row.contentHash = contentHash e.content ∧
        w = .duplicate row.id ∧ db' = db) ∨
      ¬ HoldsText db space (contentHash e.content) ∧ w = .created ⟨db.minted⟩ ∧
        db'.episode.rows = db.episode.rows ++ [e.record ⟨db.minted⟩ space clock] := by
  rcases writeEpisode_eq_ok h with ⟨row, hf, rfl, rfl⟩ | ⟨hf, rfl, t, ht, hc⟩
  · have hp := List.find?_some hf
    simp only [decide_eq_true_eq] at hp
    exact .inl ⟨row, List.mem_of_find?_eq_some hf, hp.1, hp.2, rfl, rfl⟩
  · refine .inr ⟨find_none_iff.mp hf, rfl, ?_⟩
    rw [(createChunks_ok hc).2]
    exact Table.insert?_eq_some.mp ht

variable {batch : Batch} {clock : ℕ → Clock} {out : BatchOutcome}

/-- The episodes after a batch: those before, and one more if its text is new. -/
theorem insertBatch_episodes (hw : db.WellFormed)
    (h : insertBatch db batch clock = .ok (db', out)) :
    db'.episode = db.episode ∨ ∃ e k, batch.episode = some e ∧
      ¬ HoldsText db batch.space (contentHash e.content) ∧
      db'.episode.rows = db.episode.rows ++ [e.record ⟨db.minted⟩ batch.space (clock k)] := by
  obtain ⟨k, -, hok⟩ := insertBatch_ok h
  obtain ⟨hin, -, htx, -⟩ := insertBatchOnce_ok hw hok
  have hold : ∀ b ∈ (batch.retain out.alreadyClosed).binds (clock k), ∀ id ∈ b.old,
      id.ulid < db.minted := by
    intro b hb id hid
    obtain ⟨r, hr, rfl, -⟩ := retain_inSpace hin b hb id hid
    exact hw.memory r hr
  rcases batchTransaction_eq_ok htx with ⟨-, -, hws⟩ | ⟨e, db₁, w, he, hep, -, hws⟩
  · exact .inl (writeMemories_ok hold hws).episode_eq
  · have hminted := (writeEpisode_ok hep).minted
    have hrest := (writeMemories_ok
      (fun b hb id hid => (hold b hb id hid).trans_le hminted) hws).episode_eq
    rcases writeEpisode_cases hep with ⟨-, -, -, -, -, rfl⟩ | ⟨hnew, -, hrows⟩
    · exact .inl hrest
    · exact .inr ⟨e, k, he, hnew, hrest ▸ hrows⟩

end Batch

end Agmem.Store
