import Agmem.Store.Effect

/-! The life of a row. Whatever a write does, a row keeps its content, its place in
time and its provenance, and once closed it keeps the date, the reason and the
successor it was closed with. Ids are minted upwards and never reused, so a row of a
later database is a row of the earlier one as it evolved, or it is new. `Change` lists
the ways one statement may alter the database while keeping its rows; every writer is
a sequence of them, and only a purge erases rows after it. -/

namespace Agmem.Store

open Core Relational Relation

/-! ### Rows -/

/-- What a row may become: only recall's counters move freely, and what closed it stands. -/
structure Evolves (r r' : MemoryRecord) : Prop where
  frame : r' = { r with
    strength := r'.strength, lastAccessed := r'.lastAccessed, accessCount := r'.accessCount,
    invalidAt := r'.invalidAt, invalidReason := r'.invalidReason, supersededBy := r'.supersededBy }
  closed : r.isLive = false → r'.invalidAt = r.invalidAt ∧ r'.invalidReason = r.invalidReason ∧
    r'.supersededBy = r.supersededBy

namespace Evolves

variable {r r' r'' : MemoryRecord}

theorem refl (r : MemoryRecord) : Evolves r r := ⟨rfl, fun _ => ⟨rfl, rfl, rfl⟩⟩

theorem trans (h : Evolves r r') (h' : Evolves r' r'') : Evolves r r'' where
  frame := by rw [h'.frame, h.frame]
  closed hr := by
    obtain ⟨hat, hreason, hby⟩ := h.closed hr
    have hr' : r'.isLive = false := by rw [MemoryRecord.isLive, hat]; exact hr
    obtain ⟨hat', hreason', hby'⟩ := h'.closed hr'
    exact ⟨hat'.trans hat, hreason'.trans hreason, hby'.trans hby⟩

theorem id (h : Evolves r r') : r'.id = r.id := by rw [h.frame]

theorem space (h : Evolves r r') : r'.space = r.space := by rw [h.frame]

theorem kind (h : Evolves r r') : r'.kind = r.kind := by rw [h.frame]

theorem content (h : Evolves r r') : r'.content = r.content := by rw [h.frame]

theorem contentHash (h : Evolves r r') : r'.contentHash = r.contentHash := by rw [h.frame]

theorem validFrom (h : Evolves r r') : r'.validFrom = r.validFrom := by rw [h.frame]

theorem supersedes (h : Evolves r r') : r'.supersedes = r.supersedes := by rw [h.frame]

theorem source (h : Evolves r r') : r'.source = r.source := by rw [h.frame]

theorem derivedFrom (h : Evolves r r') : r'.derivedFrom = r.derivedFrom := by rw [h.frame]

theorem live_of_live (h : Evolves r r') (hr : r'.isLive = true) : r.isLive = true := by
  by_contra hc
  rw [Bool.not_eq_true] at hc
  rw [MemoryRecord.isLive, (h.closed hc).1] at hr
  rw [MemoryRecord.isLive, hr] at hc
  cases hc

theorem closing (T : List MemoryId) (new : MemoryId) (boundary : Timestamp) (r : MemoryRecord) :
    Evolves r (Store.closing T new boundary r) := by
  cases hl : r.isLive with
  | false => rw [closing_of_closed hl]; exact refl r
  | true =>
    refine ⟨?_, fun h => by simp [hl] at h⟩
    unfold Store.closing
    split_ifs <;> rfl

theorem closedAs {r : MemoryRecord} (hl : r.isLive = true) (reason : InvalidReason)
    (now : Timestamp) : Evolves r (Store.closedAs reason now r) :=
  ⟨rfl, fun h => by simp [hl] at h⟩

theorem reinforced (now : MemoryId → Timestamp) (r : MemoryRecord) :
    Evolves r (Store.reinforced now r) :=
  ⟨rfl, fun _ => ⟨rfl, rfl, rfl⟩⟩

end Evolves

/-! ### Databases -/

/-- Ids and links name only what was minted, and an open row has no successor. -/
structure Db.WellFormed (db : Db) : Prop where
  memory : ∀ r ∈ db.memory, r.id.ulid < db.minted
  supersedes : ∀ r ∈ db.memory, ∀ id ∈ r.supersedes, id.ulid < db.minted
  supersededBy : ∀ r ∈ db.memory, ∀ id, r.supersededBy = some id → id.ulid < db.minted
  live : ∀ r ∈ db.memory, r.isLive = true → r.supersededBy = none
  episode : ∀ e ∈ db.episode, e.id.ulid < db.minted
  chunk : ∀ c ∈ db.episodeChunk, c.id.ulid < db.minted

theorem wellFormed_empty (dimension : ℕ) : (Db.empty dimension).WellFormed where
  memory r h := absurd h (Table.not_mem_empty r)
  supersedes r h := absurd h (Table.not_mem_empty r)
  supersededBy r h := absurd h (Table.not_mem_empty r)
  live r h := absurd h (Table.not_mem_empty r)
  episode e h := absurd h (Table.not_mem_empty e)
  chunk c h := absurd h (Table.not_mem_empty c)

/-- Every row of `db'` is a row of `db` as it evolved, or was minted since. -/
structure Grown (db db' : Db) : Prop where
  minted : db.minted ≤ db'.minted
  rows : ∀ r' ∈ db'.memory, db.minted ≤ r'.id.ulid ∨ ∃ r ∈ db.memory, Evolves r r'

/-- No row of `db` is gone from `db'`. -/
def Kept (db db' : Db) : Prop := ∀ r ∈ db.memory, ∃ r' ∈ db'.memory, Evolves r r'

theorem Grown.refl (db : Db) : Grown db db := ⟨le_rfl, fun r h => .inr ⟨r, h, .refl r⟩⟩

theorem Grown.trans {s t u : Db} (h : Grown s t) (h' : Grown t u) : Grown s u where
  minted := h.minted.trans h'.minted
  rows r'' hr'' := by
    rcases h'.rows r'' hr'' with hnew | ⟨r', hr', he'⟩
    · exact .inl (h.minted.trans hnew)
    · rcases h.rows r' hr' with hnew | ⟨r, hr, he⟩
      · exact .inl (he'.id ▸ hnew)
      · exact .inr ⟨r, hr, he.trans he'⟩

theorem Kept.refl (db : Db) : Kept db db := fun r h => ⟨r, h, .refl r⟩

theorem Kept.trans {s t u : Db} (h : Kept s t) (h' : Kept t u) : Kept s u := by
  intro r hr
  obtain ⟨r', hr', he⟩ := h r hr
  obtain ⟨r'', hr'', he'⟩ := h' r' hr'
  exact ⟨r'', hr'', he.trans he'⟩

/-- A row keeps its id, so the rows of one id at two moments are one row as it evolved. -/
theorem Grown.evolves {db db' : Db} (h : Grown db db') (hw : db.WellFormed) {r r' : MemoryRecord}
    (hr : r ∈ db.memory) (hr' : r' ∈ db'.memory) (hid : r'.id = r.id) : Evolves r r' := by
  rcases h.rows r' hr' with hnew | ⟨q, hq, he⟩
  · have := hw.memory r hr
    rw [hid] at hnew
    omega
  · rwa [Table.eq_of_key hr hq (by rw [key_memory, key_memory, ← he.id, hid])]

/-! ### Statements -/

/-- The memory table stands; anything else moved, upwards. -/
structure Aside (db db' : Db) : Prop where
  memory : db'.memory = db.memory
  dimension : db'.dimension = db.dimension
  minted : db.minted ≤ db'.minted
  episode : ∀ e ∈ db'.episode,
    e ∈ db.episode ∨ db.minted ≤ e.id.ulid ∧ e.id.ulid < db'.minted
  chunk : ∀ c ∈ db'.episodeChunk, c ∈ db.episodeChunk ∨ c.id.ulid < db'.minted

/-- The two ways a statement links rows: a block of a batch, and the standalone supersede. -/
inductive Linking where
  | block
  | standalone

/-- What one statement may do to the database while keeping its rows, linking them only in the
ways `links` allows. -/
inductive Change (links : Linking → Prop) : Db → Db → Prop
  | aside {db db' : Db} (h : Aside db db') : Change links db db'
  | wrote {db db' : Db} {space : SpaceName} {m : MemoryBinds} {w : Written MemoryId}
      (allowed : links .block) (coherent : m.Coherent space)
      (inSpace : InSpace db.memory space m.old)
      (h : Wrote space m db w db') : Change links db db'
  | supersede {db : Db} {old new : MemoryRecord} {t : Table MemoryRecord} 
      (allowed : links .standalone) (hold : old ∈ db.memory) (hnew : new ∈ db.memory)
      (space : old.space = new.space) (live : old.isLive = true)
      (rows : t.rows = db.memory.rows.map (closing [old.id] new.id new.validFrom)) :
      Change links db { db with memory := t }
  | retire {db : Db} {t : Table MemoryRecord} (p : MemoryRecord → Bool) (reason : InvalidReason)
      (now : MemoryId → Timestamp) (guard : ∀ r, p r = true → r.isLive = true)
      (rows : t.rows = db.memory.rows.map fun r =>
        if p r = true then closedAs reason (now r.id) r else r) :
      Change links db { db with memory := t }
  | touch {db : Db} {t : Table MemoryRecord} (g : MemoryRecord → MemoryRecord)
      (rows : t.rows = db.memory.rows.map g)
      (frame : ∀ r ∈ db.memory, g r = { r with
        strength := (g r).strength, lastAccessed := (g r).lastAccessed,
        accessCount := (g r).accessCount }) :
      Change links db { db with memory := t }

/-- Rows were deleted, and nothing else happened. -/
def Erased (db db' : Db) : Prop :=
  ∃ t : Table MemoryRecord, (∀ r ∈ t, r ∈ db.memory) ∧ db' = { db with memory := t }

theorem mem_of_rows_map {t u : Table MemoryRecord} {g : MemoryRecord → MemoryRecord}
    (h : u.rows = t.rows.map g) {r' : MemoryRecord} : r' ∈ u ↔ ∃ r ∈ t, g r = r' := by
  rw [Table.mem_iff, h, List.mem_map]; rfl

theorem mem_of_rows_map_append {t u : Table MemoryRecord} {g : MemoryRecord → MemoryRecord}
    {row : MemoryRecord} (h : u.rows = t.rows.map g ++ [row]) {r' : MemoryRecord} :
    r' ∈ u ↔ (∃ r ∈ t, g r = r') ∨ r' = row := by
  rw [Table.mem_iff, h, List.mem_append, List.mem_map, List.mem_singleton]; rfl

section Statements

variable {links : Linking → Prop} {db db' : Db} {space : SpaceName} {m : MemoryBinds}
  {w : Written MemoryId}

theorem grown_of_map {t : Table MemoryRecord} {g : MemoryRecord → MemoryRecord}
    (rows : t.rows = db.memory.rows.map g) (hg : ∀ r ∈ db.memory, Evolves r (g r)) :
    Grown db { db with memory := t } ∧ Kept db { db with memory := t } := by
  refine ⟨⟨le_rfl, fun r' hr' => ?_⟩, fun r hr => ?_⟩
  · obtain ⟨r, hr, rfl⟩ := (mem_of_rows_map rows).mp hr'
    exact .inr ⟨r, hr, hg r hr⟩
  · exact ⟨g r, (mem_of_rows_map rows).mpr ⟨r, hr, rfl⟩, hg r hr⟩

theorem Wrote.grown (h : Wrote space m db w db') : Grown db db' ∧ Kept db db' := by
  cases h with
  | @created source now t _ _ _ _ _ rows =>
    refine ⟨⟨Nat.le_succ _, fun r' hr' => ?_⟩, fun r hr => ?_⟩
    · rcases (mem_of_rows_map_append rows).mp hr' with ⟨r, hr, rfl⟩ | rfl
      · exact .inr ⟨r, hr, .closing _ _ _ r⟩
      · exact .inl le_rfl
    · exact ⟨_, (mem_of_rows_map_append rows).mpr (.inl ⟨r, hr, rfl⟩), .closing _ _ _ r⟩
  | duplicate _ _ _ _ _ _ _ rows => exact grown_of_map rows fun r _ => .closing _ _ _ r

/-- Every row is one of an earlier table as it evolved. -/
def Inherits (memory memory' : Table MemoryRecord) : Prop :=
  ∀ r' ∈ memory', ∃ r ∈ memory, Evolves r r'

theorem inherits_of_map {t u : Table MemoryRecord} {g : MemoryRecord → MemoryRecord}
    (rows : u.rows = t.rows.map g) (hg : ∀ r ∈ t, Evolves r (g r)) : Inherits t u := by
  intro r' hr'
  obtain ⟨r, hr, rfl⟩ := (mem_of_rows_map rows).mp hr'
  exact ⟨r, hr, hg r hr⟩

/-- Only a block that creates its row adds one; everything else works on the rows there are. -/
theorem Change.inherits_or_created (h : Change links db db') :
    Inherits db.memory db'.memory ∨ links .block ∧ ∃ space m id, m.Coherent space ∧
      InSpace db.memory space m.old ∧ Wrote space m db (.created id) db' := by
  cases h with
  | aside h => exact .inl fun r hr => ⟨r, h.memory ▸ hr, .refl r⟩
  | wrote hb hm hin h =>
    cases h with
    | created source now hf holder nd targets tw rows =>
      exact .inr ⟨hb, _, _, _, hm, hin, .created source now hf holder nd targets tw rows⟩
    | duplicate _ _ _ _ _ _ _ rows => exact .inl (inherits_of_map rows fun r _ => .closing _ _ _ r)
  | supersede _ _ _ _ _ rows => exact .inl (inherits_of_map rows fun r _ => .closing _ _ _ r)
  | retire p reason now guard rows =>
    refine .inl (inherits_of_map rows fun r _ => ?_)
    split_ifs with hp
    · exact .closedAs (guard r hp) _ _
    · exact .refl r
  | touch g rows frame =>
    refine .inl (inherits_of_map rows fun r hr => ?_)
    have hg := frame r hr
    exact ⟨by rw [hg], fun _ => by rw [hg]; exact ⟨rfl, rfl, rfl⟩⟩

/-- A change keeps every row. -/
theorem Change.kept (h : Change links db db') : Kept db db' := by
  cases h with
  | aside h => exact fun r hr => ⟨r, h.memory ▸ hr, .refl r⟩
  | wrote _ _ _ h => exact h.grown.2
  | supersede _ _ _ _ _ rows => exact (grown_of_map rows fun r _ => .closing _ _ _ r).2
  | retire p reason now guard rows =>
    refine (grown_of_map rows fun r _ => ?_).2
    split_ifs with hp
    · exact .closedAs (guard r hp) _ _
    · exact .refl r
  | touch g rows frame =>
    refine (grown_of_map rows fun r hr => ?_).2
    have hg := frame r hr
    exact ⟨by rw [hg], fun _ => by rw [hg]; exact ⟨rfl, rfl, rfl⟩⟩

theorem closing_supersededBy {T : List MemoryId} {new id : MemoryId} {boundary : Timestamp}
    {r : MemoryRecord} (h : (closing T new boundary r).supersededBy = some id) :
    r.supersededBy = some id ∨ id = new := by
  unfold closing at h
  split_ifs at h
  · exact .inr (Option.some.inj h).symm
  · exact .inl h

/-- A successor after a change was one before, or is a row of the table now. -/
theorem Change.supersededBy_cases (h : Change links db db') {r' : MemoryRecord}
    (hr' : r' ∈ db'.memory) {id : MemoryId} (hid : r'.supersededBy = some id) :
    (∃ r ∈ db.memory, r.id = r'.id ∧ r.supersededBy = some id) ∨ ∃ q ∈ db'.memory, q.id = id := by
  have hclosing {t : Table MemoryRecord} {T : List MemoryId} {new : MemoryRecord}
      {boundary : Timestamp} (hnew : new ∈ db.memory)
      (rows : t.rows = db.memory.rows.map (closing T new.id boundary)) (hr' : r' ∈ t) :
      (∃ r ∈ db.memory, r.id = r'.id ∧ r.supersededBy = some id) ∨ ∃ q ∈ t, q.id = id := by
    obtain ⟨r, hr, rfl⟩ := (mem_of_rows_map rows).mp hr'
    rcases closing_supersededBy hid with hid | rfl
    · exact .inl ⟨r, hr, closing_id.symm, hid⟩
    · exact .inr ⟨_, (mem_of_rows_map rows).mpr ⟨new, hnew, rfl⟩, closing_id⟩
  cases h with
  | aside h => exact .inl ⟨r', h.memory ▸ hr', rfl, hid⟩
  | wrote _ hm hin h =>
    cases h with
    | created _ _ _ _ _ _ _ rows =>
      rcases (mem_of_rows_map_append rows).mp hr' with ⟨r, hr, rfl⟩ | rfl
      · rcases closing_supersededBy hid with hid | rfl
        · exact .inl ⟨r, hr, closing_id.symm, hid⟩
        · exact .inr ⟨_, (mem_of_rows_map_append rows).mpr (.inr rfl), rfl⟩
      · cases hid
    | duplicate mem _ _ _ _ _ _ rows => exact hclosing mem rows hr'
  | supersede _ _ hnew _ _ rows => exact hclosing hnew rows hr'
  | retire p reason now guard rows =>
    obtain ⟨r, hr, rfl⟩ := (mem_of_rows_map rows).mp hr'
    refine .inl ⟨r, hr, ?_, ?_⟩
    · split_ifs <;> rfl
    · split_ifs at hid <;> exact hid
  | touch g rows frame =>
    obtain ⟨r, hr, rfl⟩ := (mem_of_rows_map rows).mp hr'
    rw [frame r hr] at hid
    exact .inl ⟨r, hr, by rw [frame r hr], hid⟩

theorem Change.minted_le (h : Change links db db') : db.minted ≤ db'.minted := by
  cases h with
  | aside h => exact h.minted
  | wrote _ _ _ h => exact h.grown.1.minted
  | _ => exact le_rfl

theorem Change.grown (h : Change links db db') : Grown db db' := by
  refine ⟨h.minted_le, fun r' hr' => ?_⟩
  rcases h.inherits_or_created with hi | ⟨-, _, _, _, -, -, h⟩
  · exact .inr (hi r' hr')
  · exact h.grown.1.rows r' hr'

/-- A rewrite of the rows that names only minted successors, and none on an open row, keeps the
database well formed. -/
theorem Db.WellFormed.of_map (hw : db.WellFormed) {t : Table MemoryRecord}
    {g : MemoryRecord → MemoryRecord} (rows : t.rows = db.memory.rows.map g)
    (hg : ∀ r ∈ db.memory, Evolves r (g r))
    (hby : ∀ r ∈ db.memory, ∀ id, (g r).supersededBy = some id →
      r.supersededBy = some id ∨ id.ulid < db.minted)
    (hlive : ∀ r ∈ db.memory, (g r).isLive = true → (g r).supersededBy = r.supersededBy) :
    Db.WellFormed { db with memory := t } where
  memory r' hr' := by
    obtain ⟨r, hr, rfl⟩ := (mem_of_rows_map rows).mp hr'
    rw [(hg r hr).id]
    exact hw.memory r hr
  supersedes r' hr' id hid := by
    obtain ⟨r, hr, rfl⟩ := (mem_of_rows_map rows).mp hr'
    rw [(hg r hr).supersedes] at hid
    exact hw.supersedes r hr id hid
  supersededBy r' hr' id hid := by
    obtain ⟨r, hr, rfl⟩ := (mem_of_rows_map rows).mp hr'
    exact (hby r hr id hid).elim (hw.supersededBy r hr id) fun h => h
  live r' hr' hl := by
    obtain ⟨r, hr, rfl⟩ := (mem_of_rows_map rows).mp hr'
    rw [hlive r hr hl]
    exact hw.live r hr ((hg r hr).live_of_live hl)
  episode := hw.episode
  chunk := hw.chunk

/-- Closing in favour of a minted id. -/
theorem Db.WellFormed.of_closing (hw : db.WellFormed) {t : Table MemoryRecord}
    {T : List MemoryId} {new : MemoryId} {boundary : Timestamp}
    (rows : t.rows = db.memory.rows.map (closing T new boundary)) (hnew : new.ulid < db.minted) :
    Db.WellFormed { db with memory := t } := by
  refine hw.of_map rows (fun r _ => .closing _ _ _ r) (fun r _ id hid => ?_) (fun r _ hl => ?_)
  · unfold closing at hid
    split_ifs at hid
    · exact .inr (Option.some.inj hid ▸ hnew)
    · exact .inl hid
  · rw [closing_of_notMem (closing_isLive.mp hl).2]

theorem Wrote.wellFormed (hm : m.Coherent space) (hs : InSpace db.memory space m.old)
    (h : Wrote space m db w db') (hw : db.WellFormed) : db'.WellFormed := by
  cases h with
  | @created source now t _ _ _ _ _ rows =>
    have hrow : ∀ r' ∈ t, (∃ r ∈ db.memory, closing m.old ⟨db.minted⟩ m.row.validFrom r = r') ∨
        r' = m.row.record ⟨db.minted⟩ source now := fun _ => (mem_of_rows_map_append rows).mp
    refine ⟨fun r' hr' => ?_, fun r' hr' id hid => ?_, fun r' hr' id hid => ?_,
      fun r' hr' hl => ?_, fun e he => Nat.lt_succ_of_lt (hw.episode e he),
      fun c hc => Nat.lt_succ_of_lt (hw.chunk c hc)⟩
    · rcases hrow r' hr' with ⟨r, hr, rfl⟩ | rfl
      · simpa using Nat.lt_succ_of_lt (hw.memory r hr)
      · exact Nat.lt_succ_self _
    · rcases hrow r' hr' with ⟨r, hr, rfl⟩ | rfl
      · rw [closing_supersedes] at hid
        exact Nat.lt_succ_of_lt (hw.supersedes r hr id hid)
      · obtain ⟨r, hr, rfl, -⟩ := hs id (hm.supersedes ▸ hid)
        exact Nat.lt_succ_of_lt (hw.memory r hr)
    · rcases hrow r' hr' with ⟨r, hr, rfl⟩ | rfl
      · unfold closing at hid
        split_ifs at hid
        · exact Option.some.inj hid ▸ Nat.lt_succ_self _
        · exact Nat.lt_succ_of_lt (hw.supersededBy r hr id hid)
      · cases hid
    · rcases hrow r' hr' with ⟨r, hr, rfl⟩ | rfl
      · obtain ⟨hl, hT⟩ := closing_isLive.mp hl
        rw [closing_of_notMem hT]
        exact hw.live r hr hl
      · rfl
  | duplicate mem _ _ _ _ _ _ rows => exact hw.of_closing rows (hw.memory _ mem)

theorem Aside.wellFormed (h : Aside db db') (hw : db.WellFormed) : db'.WellFormed := by
  refine ⟨?_, ?_, ?_, ?_, fun e he => ?_, fun c hc => ?_⟩
  · rw [h.memory]; exact fun r hr => (hw.memory r hr).trans_le h.minted
  · rw [h.memory]; exact fun r hr id hid => (hw.supersedes r hr id hid).trans_le h.minted
  · rw [h.memory]; exact fun r hr id hid => (hw.supersededBy r hr id hid).trans_le h.minted
  · rw [h.memory]; exact hw.live
  · exact (h.episode e he).elim (fun he => (hw.episode e he).trans_le h.minted) And.right
  · exact (h.chunk c hc).elim (fun hc => (hw.chunk c hc).trans_le h.minted) id

theorem Change.wellFormed (h : Change links db db') (hw : db.WellFormed) : db'.WellFormed := by
  cases h with
  | aside h => exact h.wellFormed hw
  | wrote _ hm hs h => exact h.wellFormed hm hs hw
  | supersede _ _ hnew _ _ rows => exact hw.of_closing rows (hw.memory _ hnew)
  | retire p reason now guard rows =>
    refine hw.of_map rows (fun r _ => ?_) (fun r _ id hid => ?_) (fun r _ hl => ?_)
    · split_ifs with hp
      · exact .closedAs (guard r hp) _ _
      · exact .refl r
    · split_ifs at hid <;> exact .inl hid
    · split_ifs <;> rfl
  | touch g rows frame =>
    have hby : ∀ r ∈ db.memory, (g r).supersededBy = r.supersededBy := fun r hr => by
      rw [frame r hr]
    refine hw.of_map rows (fun r hr => ?_) (fun r hr id hid => .inl (hby r hr ▸ hid))
      (fun r hr _ => hby r hr)
    have hg := frame r hr
    exact ⟨by rw [hg], fun _ => by rw [hg]; exact ⟨rfl, rfl, rfl⟩⟩

theorem Erased.inherits (h : Erased db db') : Inherits db.memory db'.memory := by
  obtain ⟨t, ht, rfl⟩ := h
  exact fun r hr => ⟨r, ht r hr, .refl r⟩

theorem Erased.grown (h : Erased db db') : Grown db db' := by
  obtain ⟨t, ht, rfl⟩ := h
  exact ⟨le_rfl, fun r hr => .inr ⟨r, ht r hr, .refl r⟩⟩

theorem Erased.wellFormed (h : Erased db db') (hw : db.WellFormed) : db'.WellFormed := by
  obtain ⟨t, ht, rfl⟩ := h
  exact ⟨fun r hr => hw.memory r (ht r hr), fun r hr => hw.supersedes r (ht r hr),
    fun r hr => hw.supersededBy r (ht r hr), fun r hr => hw.live r (ht r hr), hw.episode, hw.chunk⟩

end Statements

end Agmem.Store
