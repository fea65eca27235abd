import Agmem.Store.Op

/-! Which spaces rows are in. A row stays in its space, a batch adds rows in its own space, and
nothing else adds rows. The registry of spaces only grows. -/

namespace Agmem.Store

open Core Relational

/-- Every row of `db'` is in `space`, or in the space of the row it was. -/
structure Adds (space : SpaceName) (db db' : Db) : Prop where
  memory : ∀ r' ∈ db'.memory, r'.space = space ∨ ∃ r ∈ db.memory, r.id = r'.id ∧ r.space = r'.space
  episode : ∀ e' ∈ db'.episode, e'.space = space ∨ e' ∈ db.episode
  chunk : ∀ c' ∈ db'.episodeChunk, c'.space = space ∨ c' ∈ db.episodeChunk
  registry : db'.space = db.space

/-- Every row of `db'` is in the space of the row it was, and every registered space still is. -/
structure Keeps (db db' : Db) : Prop where
  memory : ∀ r' ∈ db'.memory, ∃ r ∈ db.memory, r.id = r'.id ∧ r.space = r'.space
  episode : ∀ e' ∈ db'.episode, e' ∈ db.episode
  chunk : ∀ c' ∈ db'.episodeChunk, c' ∈ db.episodeChunk
  registry : ∀ row ∈ db.space, row ∈ db'.space

variable {db db' : Db} {space : SpaceName}

namespace Adds

theorem refl (space : SpaceName) (db : Db) : Adds space db db where
  memory r h := .inr ⟨r, h, rfl, rfl⟩
  episode _ h := .inr h
  chunk _ h := .inr h
  registry := rfl

theorem trans {db₁ : Db} (h : Adds space db db₁) (h' : Adds space db₁ db') :
    Adds space db db' where
  memory r'' hr'' := by
    rcases h'.memory r'' hr'' with hin | ⟨r', hr', hid', hs'⟩
    · exact .inl hin
    · rcases h.memory r' hr' with hin | ⟨r, hr, hid, hs⟩
      · exact .inl (hs' ▸ hin)
      · exact .inr ⟨r, hr, hid.trans hid', hs.trans hs'⟩
  episode e he := (h'.episode e he).elim .inl (h.episode e)
  chunk c hc := (h'.chunk c hc).elim .inl (h.chunk c)
  registry := h'.registry.trans h.registry

end Adds

theorem Keeps.refl (db : Db) : Keeps db db :=
  ⟨fun r h => ⟨r, h, rfl, rfl⟩, fun _ h => h, fun _ h => h, fun _ h => h⟩

/-! ### The update statements -/

/-- A rewrite that leaves a row its id and its space. -/
def InPlace (f : MemoryRecord → MemoryRecord) : Prop := ∀ r, (f r).id = r.id ∧ (f r).space = r.space

theorem InPlace.update {f : MemoryRecord → MemoryRecord} (hf : InPlace f)
    {p : MemoryRecord → Bool} {ids : List MemoryId} {t : Table MemoryRecord}
    {rs : List MemoryRecord} (h : db.memory.update? p f ids = some (t, rs)) :
    ∀ r' ∈ t, ∃ r ∈ db.memory, r.id = r'.id ∧ r.space = r'.space := by
  obtain ⟨g, hg, hR⟩ := Table.update?_map
    (R := fun r r' : MemoryRecord => r.id = r'.id ∧ r.space = r'.space)
    (fun r => ⟨rfl, rfl⟩) (fun r q s hq hs => ⟨hq.1.trans hs.1, hq.2.trans hs.2⟩)
    (fun r _ => ⟨(hf r).1.symm, (hf r).2.symm⟩) _ _ _ _ h
  intro r' hr'
  rw [Table.mem_iff, hg] at hr'
  obtain ⟨r, hr, rfl⟩ := List.mem_map.mp hr'
  exact ⟨r, hr, hR r hr⟩

theorem keeps_of_memory {t : Table MemoryRecord}
    (h : ∀ r' ∈ t, ∃ r ∈ db.memory, r.id = r'.id ∧ r.space = r'.space) :
    Keeps db { db with memory := t } :=
  ⟨h, fun _ he => he, fun _ hc => hc, fun _ hrow => hrow⟩

/-! ### The batch -/

theorem closeTargets_adds (space : SpaceName) {named old : List MemoryId} {new : MemoryId}
    {boundary : Timestamp} (h : closeTargets db named old new boundary = .ok db') :
    Adds space db db' := by
  unfold closeTargets at h
  split at h
  · cases h
  · rename_i t sup hu
    split_ifs at h
    cases h
    have hf : InPlace (supersededBy new boundary) := fun r => ⟨rfl, rfl⟩
    exact ⟨fun r' hr' => .inr (hf.update hu r' hr'), fun _ he => .inr he, fun _ hc => .inr hc, rfl⟩

theorem writeMemory_adds {episode : Option EpisodeId} {m : MemoryBinds} {now : Timestamp}
    {w : Written MemoryId} (hm : m.row.space = space)
    (h : writeMemory db space episode m now = .ok (db', w)) : Adds space db db' := by
  unfold writeMemory at h
  split at h
  · split at h
    · cases h
    · rename_i hclose
      cases h
      exact closeTargets_adds space hclose
  · split at h
    · cases h
    · rename_i db₁ new hcreate
      split at h
      · cases h
      · rename_i hclose
        cases h
        obtain ⟨-, -, t, ht, rfl⟩ := createMemory_ok hcreate
        refine Adds.trans ?_ (closeTargets_adds space hclose)
        refine ⟨fun r' hr' => ?_, fun _ he => .inr he, fun _ hc => .inr hc, rfl⟩
        rw [Table.mem_iff, ht] at hr'
        rcases List.mem_append.mp hr' with hold | hnew
        · exact .inr ⟨r', hold, rfl, rfl⟩
        · rw [List.mem_singleton.mp hnew]
          exact .inl hm

theorem writeMemories_adds {episode : Option EpisodeId} {now : ℕ → Timestamp}
    {ms : List MemoryBinds} {ws : List (Written MemoryId)} {i : ℕ}
    (hm : ∀ m ∈ ms, m.row.space = space)
    (h : writeMemories space episode now i db ms = .ok (db', ws)) : Adds space db db' := by
  induction ms generalizing i db ws with
  | nil =>
    cases h
    exact .refl space _
  | cons m ms ih =>
    obtain ⟨hfirst, hrest⟩ := List.forall_mem_cons.mp hm
    obtain ⟨db₁, w, ws', hwrite, hwrites, -⟩ := writeMemories_cons_ok h
    exact (writeMemory_adds hfirst hwrite).trans (ih hrest hwrites)

theorem createChunks_adds {episode : EpisodeId} {occurredAt : Timestamp} {position : ℕ}
    {chunks : List NewChunk}
    (h : createChunks space episode occurredAt position db chunks = .ok db') :
    Adds space db db' := by
  induction chunks generalizing position db with
  | nil =>
    cases h
    exact .refl space _
  | cons chunk chunks ih =>
    unfold createChunks at h
    split_ifs at h
    split at h
    · cases h
    · rename_i t ht
      refine Adds.trans ?_ (ih h)
      refine ⟨fun r hr => .inr ⟨r, hr, rfl, rfl⟩, fun _ he => .inr he, ?_, rfl⟩
      intro c hc
      rw [Table.mem_iff, Table.insert?_eq_some.mp ht] at hc
      rcases List.mem_append.mp hc with hold | hnew
      · exact .inr hold
      · rw [List.mem_singleton.mp hnew]
        exact .inl rfl

variable [Hashing]

theorem writeEpisode_adds {e : NewEpisode} {clock : Clock} {w : Written EpisodeId}
    (h : writeEpisode db space e clock = .ok (db', w)) : Adds space db db' := by
  rcases writeEpisode_eq_ok h with ⟨-, -, rfl, -⟩ | ⟨-, -, t, ht, hchunks⟩
  · exact .refl space _
  · refine Adds.trans ?_ (createChunks_adds hchunks)
    refine ⟨fun r hr => .inr ⟨r, hr, rfl, rfl⟩, ?_, fun _ hc => .inr hc, rfl⟩
    intro e' he'
    rw [Table.mem_iff, Table.insert?_eq_some.mp ht] at he'
    rcases List.mem_append.mp he' with hold | hnew
    · exact .inr hold
    · rw [List.mem_singleton.mp hnew]
      exact .inl rfl

theorem bindMemory_space (batch : Batch) (clock : Clock) (ms : List NewMemory) :
    ∀ m ∈ ms.mapIdx (bindMemory batch clock), m.row.space = batch.space := by
  intro m hm
  obtain ⟨i, hi, rfl⟩ := List.mem_mapIdx.mp hm
  rfl

/-- A batch adds rows in its own space only. -/
theorem batchTransaction_adds {batch : Batch} {clock : Clock} {episode : Option (Written EpisodeId)}
    {ws : List (Written MemoryId)} (h : batchTransaction db batch clock = .ok (db', episode, ws)) :
    Adds batch.space db db' := by
  rcases batchTransaction_eq_ok h with ⟨-, -, hwrites⟩ | ⟨e, db₁, w, -, hepisode, -, hwrites⟩
  · exact writeMemories_adds (bindMemory_space batch clock _) hwrites
  · exact (writeEpisode_adds hepisode).trans
      (writeMemories_adds (bindMemory_space batch clock _) hwrites)

/-! ### The other operations -/

omit [Hashing] in
/-- Whether an operation adds rows. -/
def Op.inserts : Op → Bool
  | .insertBatch _ _ => true
  | _ => false

omit [Hashing] in
theorem ensureSpace_keeps {name : SpaceName} {now : Timestamp}
    (h : ensureSpace db name now = .ok db') : Keeps db db' := by
  unfold ensureSpace at h
  split at h
  · cases h
    exact .refl db
  · split at h
    · rename_i t ht
      cases h
      refine ⟨fun r hr => ⟨r, hr, rfl, rfl⟩, fun _ he => he, fun _ hc => hc, fun row hrow => ?_⟩
      rw [Table.mem_iff, Table.insert?_eq_some.mp ht]
      exact List.mem_append_left _ hrow
    · cases h

/-- The other operations add no rows and unregister no space. -/
theorem step_keeps_spaces {op : Op} (hop : op.inserts = false) (h : step db op = some db') :
    Keeps db db' := by
  rw [step_eq_some] at h
  cases op with
  | insertBatch batch clock => cases hop
  | supersede space old new =>
    obtain ⟨o, ho, n, hn, -, -, -, -, -, t, ht, rfl⟩ := supersede_ok h
    refine keeps_of_memory fun r' hr' => ?_
    obtain ⟨r, hr, rfl⟩ := (mem_of_rows_map ht).mp hr'
    have he := Evolves.closing [o.id] n.id n.validFrom r
    exact ⟨r, hr, he.id.symm, he.space.symm⟩
  | forget request now =>
    obtain ⟨out, h⟩ := map_fst_ok.mp h
    unfold Store.forget at h
    split_ifs at h
    · cases h
      refine ⟨fun r hr => ?_, fun e he => ?_, fun c hc => ?_, fun _ hrow => hrow⟩
      · exact ⟨r, (Table.mem_deleteKeys.mp hr).1, rfl, rfl⟩
      · exact (Table.mem_deleteKeys.mp he).1
      · exact (Table.mem_delete.mp hc).1
    · obtain ⟨t, closed, hu, rfl⟩ := forgetSoft_eq_ok h
      have hf : InPlace fun r => closedAs .forgotten (now r.id) r := fun r => ⟨rfl, rfl⟩
      exact keeps_of_memory (hf.update hu)
  | pruneExpired horizon asked now =>
    obtain ⟨out, h⟩ := map_fst_ok.mp h
    unfold Store.pruneExpired at h
    split at h
    · cases h
    · rename_i t closed hu
      cases h
      have hf : InPlace fun r => closedAs .expired (now r.id) r := fun r => ⟨rfl, rfl⟩
      exact keeps_of_memory (hf.update hu)
  | reinforce ids now =>
    obtain ⟨n, h⟩ := map_fst_ok.mp h
    unfold Store.reinforce at h
    split at h
    · cases h
    · rename_i t touched hu
      cases h
      have hf : InPlace (reinforced now) := fun r => ⟨rfl, rfl⟩
      exact keeps_of_memory (hf.update hu)
  | ensureSpace name now => exact ensureSpace_keeps h

end Agmem.Store
