import Agmem.Tools.Pages

/-! What a listing says of what it leaves out. The filters alone are read through the limit of the
pool and cut at `k`; the rows that match are only counted when the page is full, so a page that
the limit kept short passes for the whole. -/

namespace Agmem.Tools.Recall

open Core Store Scoring Relational

/-- A call without a query, with all that it asks resolved. -/
structure Listing (reader : Reader) (db : Db) (params : RecallParams) (lookup : Lookup) (k : ℕ) :
    Prop where
  query : asked params.query = none
  spaces : Tools.spaces reader.service db params.space = .ok lookup.spaces
  k : resolveK reader.maxK params.k = .ok k
  liveness : resolveLiveness params.asOf params.includeInvalidated = .ok lookup.liveness
  window : ∃ window, resolveWindow params.since params.until_ params.changedSince = .ok window
  filters : lookup.filters = ⟨params.kinds, params.entities, params.tags⟩
  limit : lookup.limit = reader.service.pool

/-- The hits are all that the filters select. -/
def Whole (db : Db) (lookup : Lookup) (result : RecallResult) : Prop :=
  ∀ r ∈ lookup.selected db, ∃ hit ∈ result.hits, hit.id = r.id.ulid

variable {reader : Reader} {db db' : Db} {params : RecallParams} {lookup : Lookup} {k : ℕ}

/-! ### What is counted -/

/-- Being recalled changes nothing that a filter reads. -/
theorem countMatching_reinforce (liveness : Liveness) (ids : List MemoryId)
    (now : MemoryId → Timestamp) :
    countMatching (reinforce db liveness ids now) lookup = countMatching db lookup := by
  cases liveness with
  | asOf t => rfl
  | any => rfl
  | live =>
    unfold reinforce Store.reinforce
    cases h : db.memory.update? (fun _ => true) (reinforced now) ids with
    | none => rfl
    | some updated =>
      obtain ⟨g, hg, hsame⟩ := Table.update?_map (p := fun _ => true) (f := reinforced now)
        (R := fun r q : MemoryRecord =>
          memoryWhere lookup.spaces lookup.filters lookup.liveness q =
            memoryWhere lookup.spaces lookup.filters lookup.liveness r)
        (fun _ => rfl) (fun _ _ _ h h' => h'.trans h) (fun _ _ => rfl) ids db.memory updated.1
        updated.2 h
      simp only [countMatching, Lookup.selected, hg, ← List.countP_eq_length_filter,
        List.countP_map]
      exact List.countP_congr fun r hr => by rw [Function.comp, hsame r hr]

theorem length_directLookup :
    (directLookup db lookup).length = min (clampPool lookup.limit) (countMatching db lookup) := by
  rw [directLookup, List.length_map, List.length_take, strongestFirst, List.length_insertionSort]
  rfl

/-! ### The page of a listing -/

/-- The ids of the rows that the filters select. -/
def selectedIds (db : Db) (lookup : Lookup) : List ℕ :=
  (lookup.selected db).map fun r => r.id.ulid

theorem nodup_selectedIds : (selectedIds db lookup).Nodup := by
  have hkeys : (db.memory.rows.map fun r => r.id.ulid).Nodup := by
    have h := db.memory.keys.map (f := MemoryId.ulid) fun a b h => by
      cases a; cases b; exact congrArg MemoryId.mk h
    rwa [List.map_map] at h
  exact hkeys.sublist (List.filter_sublist.map _)

/-- The candidates of a listing. -/
def listing (db : Db) (lookup : Lookup) : List Candidate := (directLookup db lookup).map listed

theorem selected_of_directLookup {row : MemoryRecord} (h : row ∈ directLookup db lookup) :
    ∃ r ∈ lookup.selected db, row = MemoryRecord.read r := by
  obtain ⟨r, hr, rfl⟩ := List.mem_map.mp h
  exact ⟨r, (List.mem_insertionSort _).mp (List.mem_of_mem_take hr), rfl⟩

theorem listing_hit {hit : Hit} (h : hit ∈ (listing db lookup).map Candidate.hit) :
    ∃ r ∈ lookup.selected db, hit = .memory (MemoryRecord.read r) := by
  obtain ⟨c, hc, rfl⟩ := List.mem_map.mp h
  obtain ⟨row, hrow, rfl⟩ := List.mem_map.mp hc
  obtain ⟨r, hr, rfl⟩ := selected_of_directLookup hrow
  exact ⟨r, hr, rfl⟩

theorem nodup_listing : ((listing db lookup).map fun c => c.hit.id).Nodup := by
  have hkeys : ((lookup.selected db).map MemoryRecord.id).Nodup :=
    db.memory.keys.sublist (List.filter_sublist.map _)
  have hsorted : ((strongestFirst (lookup.selected db)).map MemoryRecord.id).Nodup :=
    ((List.perm_insertionSort _ _).map MemoryRecord.id).nodup_iff.mpr hkeys
  have htake : ((directLookup db lookup).map MemoryRecord.id).Nodup := by
    rw [directLookup, List.map_map]
    exact hsorted.sublist ((List.take_sublist ..).map _)
  have h := htake.map (f := HitId.memory) fun a b h => by cases h; rfl
  rw [List.map_map] at h
  rw [listing, List.map_map]
  exact h

/-- The rows on the page of a listing. -/
def listedPage (reader : Reader) (db : Db) (lookup : Lookup) (window : Option TemporalQuery) (k : ℕ)
    (now : Now) : List (Hit × Ranked) :=
  page k [] (rescore reader.exp window now.ranked (listing db lookup))

variable {window : Option TemporalQuery} {now : Now}

/-- How many rows a listing returns. -/
def returned (db : Db) (lookup : Lookup) (k : ℕ) : ℕ :=
  min (min (clampPool lookup.limit) (countMatching db lookup)) k

theorem length_listedPage :
    (listedPage reader db lookup window k now).length = returned db lookup k := by
  rw [returned, listedPage, length_page_rescore, listing, List.length_map, length_directLookup]

theorem listedPage_memory {row : Hit × Ranked}
    (h : row ∈ listedPage reader db lookup window k now) :
    ∃ r ∈ lookup.selected db, row.1 = .memory (MemoryRecord.read r) := by
  obtain ⟨c, hc, hhit⟩ := hit_of_page h
  exact hhit ▸ listing_hit (List.mem_map_of_mem hc)

theorem length_touched {rows : List (Hit × Ranked)}
    (h : ∀ row ∈ rows, ∃ r, row.1 = .memory r) : (touched rows).length = rows.length := by
  induction rows with
  | nil => rfl
  | cons row rows ih =>
    obtain ⟨r, hr⟩ := h row (List.mem_cons_self ..)
    have hrest := ih fun q hq => h q (List.mem_cons_of_mem _ hq)
    rw [touched] at hrest ⊢
    rw [List.filterMap_cons, hr, memoryOf, List.length_cons, hrest, List.length_cons]

theorem hits_memory {rows : List (Hit × Ranked)} (h : ∀ row ∈ rows, ∃ r, row.1 = .memory r) :
    hits db rows = .ok (rows.map fun row => RecallHit.new row.1 row.2 none) := by
  induction rows with
  | nil => rfl
  | cons row rows ih =>
    obtain ⟨r, hr⟩ := h row (List.mem_cons_self ..)
    have hrest := ih fun q hq => h q (List.mem_cons_of_mem _ hq)
    simp only [hits, docOf, hr, hrest, List.map_cons]

/-- What a listing answers. -/
theorem run_listing (h : Listing reader db params lookup k) (now : Now) : ∃ window result,
    (run reader db params now).2 = .ok result ∧
    result.hits = (listedPage reader db lookup window k now).map
      (fun row => RecallHit.new row.1 row.2 none) ∧
    result.truncated =
      if returned db lookup k = k ∧ returned db lookup k < countMatching db lookup then
        some ⟨countMatching db lookup, returned db lookup k, k⟩ else none := by
  obtain ⟨window, hwindow⟩ := h.window
  have hlookup : lookup = ⟨lookup.spaces, ⟨params.kinds, params.entities, params.tags⟩,
      lookup.liveness, reader.service.pool⟩ := by
    rw [← h.filters, ← h.limit]
  have hrun : run reader db params now =
      answer reader db lookup window k false (listing db lookup) [] now := by
    unfold run
    simp only [h.query, h.spaces, h.k, h.liveness, hwindow]
    rw [← hlookup]
    rfl
  have hmemory : ∀ row ∈ listedPage reader db lookup window k now, ∃ r, row.1 = .memory r :=
    fun row hrow => (listedPage_memory hrow).imp' MemoryRecord.read fun _ hr => hr.2
  have hcut : cut reader.service.embedder.thresholds.abstention false
      (((rescore reader.exp window now.ranked (listing db lookup)).take k).map fun row =>
        hitKey row.1) [] (listedPage reader db lookup window k now) =
      (listedPage reader db lookup window k now, none) := rfl
  rw [hrun]
  unfold answer
  dsimp only
  rw [← listedPage, hcut, hits_memory hmemory]
  refine ⟨window, _, rfl, rfl, ?_⟩
  dsimp only
  rw [truncated, countMatching_reinforce, length_touched hmemory, length_listedPage]
  simp only [Option.any_none, and_true, ite_and]

/-- The hits of a listing are all that match exactly if there are as many. -/
theorem whole_iff {result : RecallResult} (hhits : result.hits =
    (listedPage reader db lookup window k now).map fun row => RecallHit.new row.1 row.2 none) :
    Whole db lookup result ↔ countMatching db lookup ≤ returned db lookup k := by
  let ids := (listedPage reader db lookup window k now).map fun row => hitKey row.1
  have hids : ∀ id, (∃ hit ∈ result.hits, hit.id = id) ↔ id ∈ ids := by
    intro id
    have hkey (row : Hit × Ranked) : (RecallHit.new row.1 row.2 none).id = hitKey row.1 := by
      unfold RecallHit.new hitKey
      cases row.1 <;> rfl
    simp only [hhits, ids, List.mem_map, exists_exists_and_eq_and, hkey]
  have hlen : ids.length = returned db lookup k := by
    rw [List.length_map, length_listedPage]
  have hselected : (selectedIds db lookup).length = countMatching db lookup := List.length_map _
  have hsub : ids ⊆ selectedIds db lookup := by
    intro id hid
    obtain ⟨row, hrow, rfl⟩ := List.mem_map.mp hid
    obtain ⟨r, hr, hmem⟩ := listedPage_memory hrow
    rw [hmem]
    exact List.mem_map.mpr ⟨r, hr, rfl⟩
  have hnodup : ids.Nodup := by
    have hrows : ((listedPage reader db lookup window k now).map fun row => row.1.id).Nodup :=
      nodup_page nodup_listing
    have hmemory : (listedPage reader db lookup window k now).map (fun row => row.1.id) =
        ids.map fun id => HitId.memory ⟨id⟩ := by
      rw [List.map_map]
      refine List.map_congr_left fun row hrow => ?_
      obtain ⟨r, -, hr⟩ := listedPage_memory hrow
      rw [Function.comp, hr]
      rfl
    rw [hmemory] at hrows
    exact hrows.of_map
  have hwhole : Whole db lookup result ↔ selectedIds db lookup ⊆ ids := by
    simp only [Whole, hids, selectedIds, List.subset_def, List.forall_mem_map]
  rw [hwhole, ← hselected, ← hlen]
  refine ⟨fun h => nodup_selectedIds.length_le_of_subset h, fun h => ?_⟩
  exact ((List.subperm_of_subset hnodup hsub).perm_of_length_le h).symm.subset

/-- A listing answers, and what it reports is exact where it reports. It reports nothing exactly on
the answers that are whole, if and only if `k` or the number of matches is within the limit of the
pool. -/
theorem report_exact_iff (h : Listing reader db params lookup k) (now : Now) :
    ∃ result, (run reader db params now).2 = .ok result ∧
      ((result.truncated = none ↔ Whole db lookup result) ↔
        k ≤ clampPool reader.service.pool ∨
          countMatching db lookup ≤ clampPool reader.service.pool) ∧
      ∀ report, result.truncated = some report →
        report.matchingClaims = countMatching db lookup ∧
          report.returnedClaims = result.hits.length := by
  obtain ⟨window, result, hrun, hhits, htruncated⟩ := run_listing h now
  refine ⟨result, hrun, ?_, fun report hreport => ?_⟩
  · have hnone : result.truncated = none ↔
        ¬ (returned db lookup k = k ∧ returned db lookup k < countMatching db lookup) := by
      rw [htruncated]
      split_ifs with hboth
      · exact ⟨nofun, fun h => absurd hboth h⟩
      · exact ⟨fun _ => hboth, fun _ => rfl⟩
    rw [hnone, whole_iff hhits, returned, h.limit]
    omega
  · rw [htruncated] at hreport
    split_ifs at hreport
    cases hreport
    rw [hhits, List.length_map, length_listedPage]
    exact ⟨rfl, rfl⟩

/-- Two claims. -/
def shelf : Db where
  memory := ⟨[claimRow 0 .agent, claimRow 1 .agent], by decide, by decide⟩
  episode := ∅
  episodeChunk := ∅
  space := ∅
  dimension := 0
  minted := 2

/-- A call for the two strongest. -/
def twoStrongest : RecallParams := ⟨none, some 2, none, [], [], [], none, none, none, none, false⟩

def unfiltered (pool : ℕ) : Lookup := ⟨[.user], ⟨[], [], []⟩, .live, pool⟩

/-- How many hits an answer has, and what it reports. -/
def reported : Except ErrorData RecallResult → Option (ℕ × Option Truncated)
  | .ok result => some (result.hits.length, result.truncated)
  | .error _ => none

/-- With a pool of one, one of the two claims is left out without a word. -/
theorem narrow_pool_silent :
    countMatching shelf (unfiltered 1) = 2 ∧
      reported (run (shell 1) shelf twoStrongest ⟨0, fun _ => 0⟩).2 = some (1, none) := by
  decide +kernel

/-- The same call with a pool of the usual size. -/
theorem wide_pool_exact : ∃ result,
    (run (shell 64) shelf twoStrongest ⟨0, fun _ => 0⟩).2 = .ok result ∧
      (result.truncated = none ↔ Whole shelf (unfiltered 64) result) := by
  have h : Listing (shell 64) shelf twoStrongest (unfiltered 64) 2 :=
    ⟨rfl, rfl, rfl, rfl, ⟨none, rfl⟩, rfl, rfl⟩
  obtain ⟨result, hrun, hiff, -⟩ := report_exact_iff h ⟨0, fun _ => 0⟩
  exact ⟨result, hrun, hiff.mpr (.inl (by decide))⟩

end Agmem.Tools.Recall
