import Agmem.Store.Lineage
import Agmem.Links.Collect
import Agmem.Relational.Lookup
import Mathlib.Data.List.Sort

/-! The read half, as far as the tools that write rest on it: the walk along a claim's
corrections, an episode with what hangs off it, who cites a document, and which table
answers to a bare id. -/

namespace Agmem.Store

open Core Relational Links

/-! ### history_chain -/

/-- How far a history walk follows `supersedes` and `superseded_by`. -/
def MAX_CHAIN : ℕ := 64

/-- The field `supersedes` of a record; a record that is not there has none. -/
def supersedesOf (db : Db) (id : MemoryId) : List MemoryId :=
  ((db.memory.get? id).map MemoryRecord.supersedes).getD []

/-- The field `superseded_by` of a record. -/
def supersededByOf (db : Db) (id : MemoryId) : List MemoryId :=
  ((db.memory.get? id).bind MemoryRecord.supersededBy).toList

/-- What the walk reports: the ids in its order, and the rows among them that exist. -/
structure ChainRow where
  ids : List MemoryId
  rows : List MemoryRecord

def chainRow (db : Db) (target : MemoryId) : ChainRow :=
  let earlier := (collect (supersedesOf db) MAX_CHAIN target).reverse
  let later := collect (supersededByOf db) MAX_CHAIN target
  let chain := earlier ++ [target] ++ later
  ⟨chain, chain.filterMap db.memory.get?⟩

/-- Put the rows back into the order of the walk; each is taken out once. -/
def takeRows (rows : List MemoryRecord) : List MemoryId → Except StoreError (List MemoryRecord)
  | [] => .ok []
  | id :: ids =>
    match rows.find? fun r => decide (r.id = id) with
    | none => .error (.unexpectedResponse "the walk named a link it did not return")
    | some r =>
      match takeRows (rows.filter fun q => decide (q.id ≠ id)) ids with
      | .error e => .error e
      | .ok rs => .ok (r :: rs)

/-- The supersession chain `id` belongs to, oldest claim first. -/
def historyChain (db : Db) (space : SpaceName) (id : MemoryId) :
    Except StoreError (List MemoryRecord) :=
  match ensureMemoriesExist db space [id] with
  | .error e => .error e
  | .ok () =>
    let row := chainRow db id
    takeRows row.rows row.ids

/-! ### Episodes and documents -/

/-- A memory cites an episode through `source.ref`, which `remember` links, or through
`derived_from`, which `reflect` links. -/
def cites (r : MemoryRecord) (id : EpisodeId) : Bool :=
  decide (r.source = .episode id) || decide (Derivation.episode id ∈ r.derivedFrom)

/-- `ORDER BY created_at` -/
def byCreation (rows : List MemoryRecord) : List MemoryRecord :=
  rows.insertionSort fun r q => r.createdAt ≤ q.createdAt

/-- An episode with everything hanging off it. -/
structure EpisodeDetail where
  episode : Episode
  chunks : List EpisodeChunk
  derived : List MemoryRecord

def episode (db : Db) (space : SpaceName) (id : EpisodeId) : Except StoreError EpisodeDetail :=
  match (db.episode.get? id).filter fun e => decide (e.space = space) with
  | none => .error (.unknownEpisode space id)
  | some e => .ok {
      episode := e
      chunks := (db.episodeChunk.rows.filter fun c => decide (c.episode = id)).insertionSort
        fun c d => c.position ≤ d.position
      derived :=
        byCreation (db.memory.rows.filter fun r => decide (r.space = space) && cites r id) }

/-- The episode a slice belongs to, if `space` holds that slice. -/
def episodeOfChunk (db : Db) (space : SpaceName) (id : ChunkId) : Option EpisodeId :=
  ((db.episodeChunk.get? id).filter fun c => decide (c.space = space)).map EpisodeChunk.episode

/-- The live memories of `space` that cite one document, oldest first. -/
def documentCiters (db : Db) (space : SpaceName) (id : EpisodeId) : List MemoryRecord :=
  byCreation (db.memory.rows.filter fun r => decide (r.space = space) && r.isLive && cites r id)

/-- Which table answers to each id in one of `spaces`, a memory before an episode. -/
def locate (db : Db) (spaces : List SpaceName) (ids : List ℕ) : List (Option Derivation) :=
  ids.map fun id =>
    if (db.memory.get? ⟨id⟩).any fun r => decide (r.space ∈ spaces) then some (.memory ⟨id⟩)
    else if (db.episode.get? ⟨id⟩).any fun e => decide (e.space ∈ spaces) then some (.episode ⟨id⟩)
    else none

/-- `ORDER BY name`: code point by code point. -/
def textLe : Text → Text → Bool
  | [], _ => true
  | _ :: _, [] => false
  | c :: cs, d :: ds => decide (c.toNat < d.toNat) || (decide (c = d) && textLe cs ds)

/-- The registered spaces, alphabetically. -/
def spaces (db : Db) : List SpaceName :=
  (db.space.rows.map Space.name).insertionSort fun s t => textLe s.name t.name

/-! ### What the reads find -/

variable {db : Db} {space : SpaceName}

theorem mem_documentCiters {id : EpisodeId} {r : MemoryRecord} :
    r ∈ documentCiters db space id ↔
      r ∈ db.memory ∧ r.space = space ∧ r.isLive = true ∧ cites r id = true := by
  simp [documentCiters, byCreation, List.mem_insertionSort, Table.mem_iff, and_assoc]

theorem episode_ok {id : EpisodeId} {d : EpisodeDetail} (h : episode db space id = .ok d) :
    d.episode ∈ db.episode ∧ d.episode.id = id ∧ d.episode.space = space := by
  unfold episode at h
  split at h
  · cases h
  · next e he =>
    cases h
    obtain ⟨he, hs⟩ := Option.filter_eq_some_iff.mp he
    obtain ⟨he, hk⟩ := Table.get?_eq_some.mp he
    exact ⟨he, hk, of_decide_eq_true hs⟩

/-- An episode is read, or the space does not hold it. -/
theorem episode_cases (db : Db) (space : SpaceName) (id : EpisodeId) :
    (∃ d, episode db space id = .ok d) ∨
      episode db space id = .error (.unknownEpisode space id) := by
  unfold episode
  split
  · exact .inr rfl
  · exact .inl ⟨_, rfl⟩

theorem mem_supersedesOf {a b : MemoryId} :
    b ∈ supersedesOf db a ↔ ∃ r ∈ db.memory, r.id = a ∧ b ∈ r.supersedes := by
  refine Iff.trans ?_ Table.exists_get?
  unfold supersedesOf
  cases db.memory.get? a <;> simp

theorem mem_supersededByOf {a b : MemoryId} :
    b ∈ supersededByOf db a ↔ ∃ r ∈ db.memory, r.id = a ∧ r.supersededBy = some b := by
  refine Iff.trans ?_ Table.exists_get?
  unfold supersededByOf
  cases db.memory.get? a <;> simp

/-! ### What history_chain returns -/

/-- `q` lies on the chain of `r`: it is `r`, or at most `MAX_CHAIN` links behind or ahead of it. -/
def OnChain (db : Db) (r q : MemoryId) : Prop :=
  q = r ∨ (∃ k < MAX_CHAIN, Walk (supersedesOf db) (k + 1) r q) ∨
    ∃ k < MAX_CHAIN, Walk (supersededByOf db) (k + 1) r q

theorem mem_chainRow_ids {target q : MemoryId} :
    q ∈ (chainRow db target).ids ↔ OnChain db target q := by
  simp only [chainRow, OnChain, List.append_assoc, List.mem_append, List.mem_reverse,
    List.mem_singleton, mem_collect]
  exact or_left_comm

theorem takeRows_eq (rows : List MemoryRecord) (ids : List MemoryId) :
    takeRows rows ids = takeBy MemoryRecord.id
      (.unexpectedResponse "the walk named a link it did not return") rows ids := by
  induction ids generalizing rows with
  | nil => rfl
  | cons id ids ih =>
    simp only [takeRows, takeBy]
    cases rows.find? fun r => decide (r.id = id) with
    | none => rfl
    | some r =>
      simp only [ih]
      cases takeBy MemoryRecord.id _ (rows.filter fun q => decide (q.id ≠ id)) ids <;> rfl

/-- The rows come back in the order of the ids, provided no id is repeated and each has a row. -/
theorem takeRows_ok_iff {rows out : List MemoryRecord} {ids : List MemoryId}
    (hrows : ∀ r ∈ rows, ∀ q ∈ rows, r.id = q.id → r = q) :
    takeRows rows ids = .ok out ↔
      ids.Nodup ∧ out.map MemoryRecord.id = ids ∧ ∀ r ∈ out, r ∈ rows := by
  rw [takeRows_eq]
  exact takeBy_ok_iff hrows

theorem mem_chainRow_rows {target : MemoryId} {r : MemoryRecord} :
    r ∈ (chainRow db target).rows ↔ r ∈ db.memory ∧ r.id ∈ (chainRow db target).ids := by
  have hrows : (chainRow db target).rows =
      (chainRow db target).ids.filterMap db.memory.get? := by simp only [chainRow]
  rw [hrows, List.mem_filterMap]
  constructor
  · rintro ⟨a, ha, hg⟩
    obtain ⟨hr, rfl⟩ := Table.get?_eq_some.mp hg
    exact ⟨hr, ha⟩
  · rintro ⟨hr, ha⟩
    exact ⟨r.id, ha, Table.get?_eq_some.mpr ⟨hr, rfl⟩⟩

/-- The walk comes back as rows exactly when it met no link twice and each link is stored. -/
theorem historyChain_ok_iff {id : MemoryId} {rows : List MemoryRecord} :
    historyChain db space id = .ok rows ↔ InSpace db.memory space [id] ∧
      (chainRow db id).ids.Nodup ∧ rows.map MemoryRecord.id = (chainRow db id).ids ∧
      ∀ r ∈ rows, r ∈ db.memory := by
  have hmem := @mem_chainRow_rows db id
  rw [← ensureMemoriesExist_ok]
  unfold historyChain
  generalize chainRow db id = row at hmem ⊢
  have hrows : ∀ r ∈ row.rows, ∀ q ∈ row.rows, r.id = q.id → r = q :=
    fun r hr q hq => Table.eq_of_key (hmem.mp hr).1 (hmem.mp hq).1
  cases hex : ensureMemoriesExist db space [id] with
  | error e => simp
  | ok u =>
    simp only [true_and]
    rw [takeRows_ok_iff hrows]
    refine and_congr_right fun _ => and_congr_right fun hout => forall₂_congr fun r hr => ?_
    rw [hmem]
    exact and_iff_left (hout ▸ List.mem_map_of_mem hr)

theorem historyChain_unknown {id : MemoryId} (h : ¬ InSpace db.memory space [id]) :
    historyChain db space id = .error (.unknownMemory space id) := by
  have hex : ensureMemoriesExist db space [id] = .error (.unknownMemory space id) := by
    rw [← ensureMemoriesExist_ok] at h
    unfold ensureMemoriesExist at h ⊢
    split at h
    · next id' hid =>
      rw [List.mem_singleton.mp (List.mem_of_find?_eq_some hid)]
    · exact absurd rfl h
  rw [historyChain, hex]

/-- Stored rows are known by their ids. -/
theorem rows_of_ids {rows : List MemoryRecord} (h : ∀ r ∈ rows, r ∈ db.memory) :
    (rows.map MemoryRecord.id).filterMap db.memory.get? = rows := by
  induction rows with
  | nil => rfl
  | cons r rows ih =>
    obtain ⟨hr, hrows⟩ := List.forall_mem_cons.mp h
    rw [List.map_cons, List.filterMap_cons_some (Table.get?_eq_some.mpr ⟨hr, key_memory r⟩),
      ih hrows]

theorem mem_historyChain {id : MemoryId} {rows : List MemoryRecord}
    (h : historyChain db space id = .ok rows) {r : MemoryRecord} :
    r ∈ rows ↔ r ∈ db.memory ∧ OnChain db id r.id := by
  obtain ⟨-, -, hids, hstored⟩ := historyChain_ok_iff.mp h
  rw [← mem_chainRow_ids, ← hids]
  constructor
  · exact fun hr => ⟨hstored r hr, List.mem_map_of_mem hr⟩
  · rintro ⟨hr, hid⟩
    obtain ⟨q, hq, hqid⟩ := List.mem_map.mp hid
    rwa [← Table.eq_of_key (hstored q hq) hr hqid]

end Agmem.Store
