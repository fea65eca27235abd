import Agmem.Tools.Votes
import Agmem.Tools.Listing
import Agmem.Tools.Order

/-! What a recall may show. Whatever the rankings say, an answer holds rows of the store that its
filters select, in the spaces it asked for, and none of them twice: the arms of the search list such
rows only, the hop brings more of them, and what follows reorders and cuts. -/

namespace Agmem.Tools.Recall

open Core Store Scoring Relational Transition

/-- A fusion ranks what is in one of its lists, and nothing else. -/
def Fuses (rankings : Rankings) : Prop :=
  ∀ arms limit k, ∀ scored ∈ rankings.rrf arms limit k, ∃ arm ∈ arms, scored.1 ∈ arm

/-- The row behind a ranked id is one that the search is for. -/
def Eligible (search : Search) (db : Db) : HitId → Prop
  | .memory id => (db.memory.get? id).any
      (memoryWhere search.spaces search.filters search.liveness) = true
  | .chunk id => (db.episodeChunk.get? id).any
      (chunkWhere search.spaces search.liveness) = true

/-- A hit as a read projects it, of a row that the filters select. -/
def Selects (lookup : Lookup) (db : Db) : Hit → Prop
  | .memory row => ∃ r ∈ lookup.selected db, row = MemoryRecord.read r
  | .chunk row => ∃ c ∈ db.episodeChunk,
      chunkWhere lookup.spaces lookup.liveness c = true ∧ row = EpisodeChunk.read c

/-- The row that an answer shows is one that the filters select. -/
def Shows (lookup : Lookup) (db : Db) (shown : RecallHit) : Prop :=
  (∃ r ∈ lookup.selected db, shown.kind = .ofKind r.kind ∧ shown.id = r.id.ulid ∧
    shown.space = r.space ∧ shown.content = r.content) ∨
  (∃ c ∈ db.episodeChunk, chunkWhere lookup.spaces lookup.liveness c = true ∧
    shown.kind = .episode ∧ shown.id = c.id.ulid ∧ shown.space = c.space ∧ shown.content = c.text)

/-- The row that a hit of an answer is of. -/
def RecallHit.row (shown : RecallHit) : HitId :=
  if shown.kind = .episode then .chunk ⟨shown.id⟩ else .memory ⟨shown.id⟩

/-! ### The search -/

section Search

variable {search : Search} {rankings : Rankings} {db : Db} {note : SearchNote}

/-- The arms and the fused order name only rows that the search is for. -/
structure Sound (search : Search) (db : Db) (note : SearchNote) : Prop where
  arms : ∀ arm ∈ note.arms, ∀ id ∈ arm, Eligible search db id
  fused : ∀ scored ∈ note.fused, Eligible search db scored.1

theorem Sound.arm (h : Sound search db note) {ids : List HitId} {nearest : List (HitId × ℚ)}
    (hids : ∀ id ∈ ids, Eligible search db id) :
    Sound search db ⟨note.arms ++ [ids], nearest, note.fused⟩ where
  arms arm harm := by
    rcases List.mem_append.mp harm with harm | harm
    · exact h.arms arm harm
    · rwa [List.mem_singleton.mp harm]
  fused := h.fused

/-- An arm names what the engine ranks, as far as the search is for it. -/
theorem Sound.ranks {α : Type} {ranked : List α} {name : α → HitId} {keep : α → Bool} {k : ℕ}
    (h : Sound search db note) (hkeep : ∀ a, keep a = true → Eligible search db (name a))
    (nearest : List (HitId × ℚ)) :
    Sound search db
      ⟨note.arms ++ [((ranked.filter keep).take k).map name], nearest, note.fused⟩ := by
  refine h.arm fun id hid => ?_
  obtain ⟨a, ha, rfl⟩ := List.mem_map.mp hid
  exact hkeep a (List.mem_filter.mp (List.mem_of_mem_take ha)).2

theorem sound_fuse (hfuses : Fuses rankings) (next : SearchNote) (h : Sound search db note)
    (hst : fuse rankings search db note = .ok next) : Sound search db next := by
  cases hst
  refine ⟨h.arms, fun scored hscored => ?_⟩
  obtain ⟨arm, harm, hid⟩ := hfuses _ _ _ scored hscored
  exact h.arms arm harm _ hid

theorem sound_statement (hfuses : Fuses rankings) (terms : List Text) {st : SearchStatement}
    (hst : st ∈ searchArms rankings search terms ++ [fuse rankings search])
    (next : SearchNote) (h : Sound search db note) (hnext : st db note = .ok next) :
    Sound search db next := by
  simp only [searchArms, List.mem_append, List.mem_singleton] at hst
  rcases hst with (((hst | hst) | hst) | hst) | rfl
  · split_ifs at hst
    · cases hst
    · cases List.mem_singleton.mp hst
      cases hnext
      exact h.ranks (fun _ => id) _
  · obtain ⟨vector, -, rfl⟩ := List.mem_map.mp hst
    cases hnext
    rw [List.map_map]
    exact h.ranks (fun _ => id) _
  · split_ifs at hst
    · cases List.mem_singleton.mp hst
      cases hnext
      exact h.ranks (fun _ => id) _
    · cases hst
  · split_ifs at hst
    · obtain ⟨vector, -, rfl⟩ := List.mem_map.mp hst
      cases hnext
      rw [List.map_map]
      exact h.ranks (fun _ => id) _
    · cases hst
  · exact sound_fuse hfuses next h hnext

/-- The candidates are the rows behind the ids of the fused order. -/
theorem hitOf_candidates {pool : List Candidate} (h : candidates db note = .ok pool) :
    ∀ c ∈ pool, ∃ scored ∈ note.fused, hitOf db scored.1 = some c.hit := by
  unfold candidates at h
  split at h
  · cases h
  · next hits htake =>
    cases h
    obtain ⟨-, -, hsub⟩ := (takeBy_ok_iff Snapshots.hits_unique).mp htake
    intro c hc
    obtain ⟨i, hi, rfl⟩ := List.getElem_of_mem hc
    rw [List.getElem_zipWith]
    obtain ⟨id, hid, hhit⟩ := List.mem_filterMap.mp (hsub _ (List.getElem_mem _))
    obtain ⟨scored, hscored, rfl⟩ := List.mem_map.mp hid
    exact ⟨scored, hscored, hhit⟩

theorem selects_of_hitOf {lookup : Lookup} (hspaces : search.spaces = lookup.spaces)
    (hfilters : search.filters = lookup.filters) (hliveness : search.liveness = lookup.liveness)
    {id : HitId} (hid : Eligible search db id) {hit : Hit} (h : hitOf db id = some hit) :
    Selects lookup db hit := by
  cases id with
  | memory id =>
    obtain ⟨r, hr, rfl⟩ := Option.map_eq_some_iff.mp h
    rw [Eligible, hr, Option.any_some, hspaces, hfilters, hliveness] at hid
    exact ⟨r, List.mem_filter.mpr ⟨(Table.get?_eq_some.mp hr).1, hid⟩, rfl⟩
  | chunk id =>
    obtain ⟨c, hc, rfl⟩ := Option.map_eq_some_iff.mp h
    rw [Eligible, hc, Option.any_some, hspaces, hliveness] at hid
    exact ⟨c, (Table.get?_eq_some.mp hc).1, hid, rfl⟩

/-- A search finds rows that it is for. -/
theorem selects_of_search {alphabet : Alphabet} {lookup : Lookup} (hfuses : Fuses rankings)
    (hspaces : search.spaces = lookup.spaces) (hfilters : search.filters = lookup.filters)
    (hliveness : search.liveness = lookup.liveness) {pool : List Candidate}
    (h : (searchHybrid alphabet rankings search).alone db = .ok pool) :
    ∀ c ∈ pool, Selects lookup db c.hit := by
  unfold searchHybrid at h
  dsimp only at h
  split_ifs at h
  · cases h
    exact fun c hc => absurd hc List.not_mem_nil
  · have hstart : Sound search db ⟨[], [], []⟩ :=
      ⟨fun _ harm => absurd harm List.not_mem_nil, fun _ hs => absurd hs List.not_mem_nil⟩
    obtain ⟨last, hlast, hanswer⟩ := Scripts.exists_kept_answer
      (fun st hst note next hnote hnext => sound_statement hfuses _ hst next hnote hnext) hstart h
    intro c hc
    obtain ⟨scored, hscored, hhit⟩ := hitOf_candidates hanswer c hc
    exact selects_of_hitOf hspaces hfilters hliveness (hlast.fused scored hscored) hhit

end Search

/-! ### The hop -/

section Hop

variable {candidates : List Candidate} {db : Db} {spaces : List SpaceName} {filters : Filters}
  {liveness : Liveness}

theorem hit_of_vote {weight : ℚ} {row : MemoryRecord} {c : Candidate}
    (h : c ∈ Hop.vote weight row candidates) :
    (∃ d ∈ candidates, c.hit = d.hit) ∨ c.hit = .memory row := by
  induction candidates with
  | nil => exact .inr (by rw [List.mem_singleton.mp h])
  | cons d candidates ih =>
    unfold Hop.vote at h
    split_ifs at h
    · rcases List.mem_cons.mp h with rfl | h
      · exact .inl ⟨d, List.mem_cons_self .., rfl⟩
      · exact .inl ⟨c, List.mem_cons_of_mem _ h, rfl⟩
    · rcases List.mem_cons.mp h with rfl | h
      · exact .inl ⟨c, List.mem_cons_self .., rfl⟩
      · rcases ih h with ⟨e, he, hhit⟩ | hnew
        · exact .inl ⟨e, List.mem_cons_of_mem _ he, hhit⟩
        · exact .inr hnew

theorem hit_of_mergeFrom {rank : ℕ} {rows : List MemoryRecord} {c : Candidate}
    (h : c ∈ Hop.mergeFrom rank candidates rows) :
    (∃ d ∈ candidates, c.hit = d.hit) ∨ ∃ row ∈ rows, c.hit = .memory row := by
  induction rows generalizing rank candidates with
  | nil => exact .inl ⟨c, h, rfl⟩
  | cons row rows ih =>
    rcases ih h with ⟨d, hd, hhit⟩ | ⟨late, hlate, hhit⟩
    · rcases hit_of_vote hd with ⟨e, he, hold⟩ | hnew
      · exact .inl ⟨e, he, hhit.trans hold⟩
      · exact .inr ⟨row, List.mem_cons_self .., hhit.trans hnew⟩
    · exact .inr ⟨late, List.mem_cons_of_mem _ hlate, hhit⟩

/-- What the hop adds is listed by the filters of the call, narrowed to the entities it seeds. -/
theorem hit_of_hop {c : Candidate} (h : c ∈ (Hop.run db spaces filters liveness candidates).1) :
    (∃ d ∈ candidates, c.hit = d.hit) ∨ filters.entities.isEmpty = true ∧ ∃ seeds,
      ∃ row ∈ directLookup db ⟨spaces, { filters with entities := seeds }, liveness, Hop.HOP_SCAN⟩,
        c.hit = .memory row := by
  unfold Hop.run at h
  dsimp only at h
  split_ifs at h with hnone hseeds
  · exact .inl ⟨c, h, rfl⟩
  · rcases hit_of_mergeFrom h with hold | ⟨row, hrow, hhit⟩
    · exact .inl hold
    · exact .inr ⟨hnone, _, row, (List.mem_filter.mp (List.mem_of_mem_take hrow)).1, hhit⟩
  · exact .inl ⟨c, h, rfl⟩

theorem nodup_hop (h : (Hop.ids candidates).Nodup) :
    (Hop.ids (Hop.run db spaces filters liveness candidates).1).Nodup := by
  unfold Hop.run
  dsimp only
  split_ifs
  · exact h
  · exact Hop.nodup_mergeFrom 1 _ h
  · exact h

/-- A filter of entities only narrows. -/
theorem memoryWhere_of_narrower {seeds : List Text} {r : MemoryRecord}
    (hnone : filters.entities.isEmpty = true)
    (h : memoryWhere spaces { filters with entities := seeds } liveness r = true) :
    memoryWhere spaces filters liveness r = true := by
  have hall : containsAny r.entities filters.entities = true := by rw [containsAny, hnone]; rfl
  simp only [memoryWhere, Bool.and_eq_true] at h ⊢
  exact ⟨⟨h.1.1, hall⟩, h.2⟩

/-- The widened pool holds rows that the filters select, where the pool does. -/
theorem selects_of_hop {limit : ℕ}
    (hpool : ∀ c ∈ candidates, Selects ⟨spaces, filters, liveness, limit⟩ db c.hit) :
    ∀ c ∈ (Hop.run db spaces filters liveness candidates).1,
      Selects ⟨spaces, filters, liveness, limit⟩ db c.hit := by
  intro c hc
  rcases hit_of_hop hc with ⟨d, hd, hhit⟩ | ⟨hnone, seeds, row, hrow, hhit⟩
  · rw [hhit]
    exact hpool d hd
  · obtain ⟨r, hr, rfl⟩ := selected_of_directLookup hrow
    obtain ⟨hmem, hwhere⟩ := List.mem_filter.mp hr
    rw [hhit]
    exact ⟨r, List.mem_filter.mpr ⟨hmem, memoryWhere_of_narrower hnone hwhere⟩, rfl⟩

end Hop

/-! ### The answer -/

section Answer

variable {reader : Reader} {db : Db} {lookup : Lookup} {window : Option TemporalQuery} {k : ℕ}
  {isSearch : Bool} {pool : List Candidate} {hopped : List MemoryId} {now : Now}
  {result : RecallResult}

theorem row_new (hit : Hit) (ranked : Ranked) (doc : Option DocRef) :
    (RecallHit.new hit ranked doc).row = hit.id := by
  cases hit with
  | memory row =>
    have hkind : HitKind.ofKind row.kind ≠ .episode := by cases row.kind <;> nofun
    exact if_neg hkind
  | chunk row => exact if_pos rfl

theorem shows_new {hit : Hit} (h : Selects lookup db hit) (ranked : Ranked)
    (doc : Option DocRef) : Shows lookup db (RecallHit.new hit ranked doc) := by
  cases hit with
  | memory row =>
    obtain ⟨r, hr, rfl⟩ := h
    exact .inl ⟨r, hr, rfl, rfl, rfl, rfl⟩
  | chunk row =>
    obtain ⟨c, hc, hwhere, rfl⟩ := h
    exact .inr ⟨c, hc, hwhere, rfl, rfl, rfl, rfl⟩

/-- An answer shows the rows of its page, in their order. -/
theorem hits_ok {rows : List (Hit × Ranked)} {shown : List RecallHit}
    (h : hits db rows = .ok shown) : shown.map RecallHit.row = rows.map (fun row => row.1.id) ∧
      ∀ hit ∈ shown, ∃ row ∈ rows, ∃ doc, hit = RecallHit.new row.1 row.2 doc := by
  induction rows generalizing shown with
  | nil =>
    cases h
    exact ⟨rfl, fun _ hit => absurd hit List.not_mem_nil⟩
  | cons row rows ih =>
    unfold hits at h
    split at h
    · cases h
    · next doc hdoc =>
      split at h
      · cases h
      · next rest hrest =>
        cases h
        obtain ⟨hrows, hnew⟩ := ih hrest
        refine ⟨by rw [List.map_cons, List.map_cons, row_new, hrows], fun hit hhit => ?_⟩
        rcases List.mem_cons.mp hhit with rfl | hhit
        · exact ⟨row, List.mem_cons_self .., doc, rfl⟩
        · obtain ⟨q, hq, hnew⟩ := hnew hit hhit
          exact ⟨q, List.mem_cons_of_mem _ hq, hnew⟩

/-- What an answer keeps to: its spaces, the ceiling of the call, and rows that the filters select,
each of them once. -/
structure Contained (lookup : Lookup) (db : Db) (k : ℕ) (result : RecallResult) : Prop where
  spaces : result.spaces = lookup.spaces
  length : result.hits.length ≤ k
  nodup : (result.hits.map RecallHit.row).Nodup
  shows : ∀ shown ∈ result.hits, Shows lookup db shown

/-- Whatever follows the pool reorders and cuts. -/
theorem contained_answer (hpool : ∀ c ∈ pool, Selects lookup db c.hit)
    (hids : (pool.map fun c => c.hit.id).Nodup)
    (h : (answer reader db lookup window k isSearch pool hopped now).2 = .ok result) :
    Contained lookup db k result := by
  unfold answer at h
  dsimp only at h
  split at h
  · cases h
  · next shown hshown =>
    cases h
    obtain ⟨hrows, hnew⟩ := hits_ok hshown
    have hcut := cut_sublist reader.service.embedder.thresholds.abstention isSearch
      (((rescore reader.exp window now.ranked pool).take k).map fun row => hitKey row.1) hopped
      (page k hopped (rescore reader.exp window now.ranked pool))
    refine ⟨rfl, ?_, ?_, fun hit hhit => ?_⟩
    · have hlen := congrArg List.length hrows
      rw [List.length_map, List.length_map] at hlen
      have hpage : (page k hopped (rescore reader.exp window now.ranked pool)).length ≤ k := by
        rw [length_page]
        exact Nat.min_le_left ..
      exact hlen ▸ hcut.length_le.trans hpage
    · rw [hrows]
      exact (nodup_page hids).sublist (hcut.map _)
    · obtain ⟨row, hrow, doc, rfl⟩ := hnew hit hhit
      obtain ⟨c, hc, hhit⟩ := hit_of_page (hcut.subset hrow)
      exact shows_new (hhit ▸ hpool c hc) row.2 doc

end Answer

/-! ### The call -/

/-- What the parameters of a call come to. -/
structure Resolved (reader : Reader) (db : Db) (params : RecallParams) (lookup : Lookup) (k : ℕ) :
    Prop where
  spaces : Tools.spaces reader.service db params.space = .ok lookup.spaces
  k : resolveK reader.maxK params.k = .ok k
  liveness : resolveLiveness params.asOf params.includeInvalidated = .ok lookup.liveness
  filters : lookup.filters = ⟨params.kinds, params.entities, params.tags⟩

/-- The weight of an id in a list that is ranked. -/
def weightIn (k : ℕ) (id : HitId) (arm : List HitId) : ℚ :=
  if id ∈ arm then 1 / (k + arm.idxOf id + 1 : ℕ) else 0

/-- An engine that finds every row by words, and fuses by reciprocal ranks. -/
def byWords : Rankings where
  matching db _ := db.memory.rows.map MemoryRecord.id
  nearest _ _ _ _ := []
  matchingChunks _ _ := []
  nearestChunks _ _ _ _ := []
  rrf arms limit k := ((arms.flatten.dedup.map fun id =>
    (id, (arms.map (weightIn k id)).sum)).insertionSort fun a b => b.2 ≤ a.2).take limit

theorem byWords_fuses : Fuses byWords := by
  intro arms limit k scored hscored
  obtain ⟨id, hid, rfl⟩ :=
    List.mem_map.mp ((List.mem_insertionSort _).mp (List.mem_of_mem_take hscored))
  exact List.mem_flatten.mp (List.mem_dedup.mp hid)

end Agmem.Tools.Recall
