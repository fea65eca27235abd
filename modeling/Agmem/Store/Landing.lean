import Agmem.Store.Passes

/-! Which batches land. A batch needs no row named twice, no row of another claim named by
two of its memories, no target with a copy that was closed at the very start of the
memory that closes it, and vectors of the right width. Only the copies depend on the
clock, and running into one is taken for a lost race, so the batch lands if one of its
three attempts avoids them. -/

namespace Agmem.Store.Landing

open Core Relational Claims Transition
open Columns (toDatetime)

variable {db db' : Db} {space : SpaceName}

section Batch

variable [Hashing] {batch : Batch}

/-- The vectors of an episode that is not stored yet have the width of the index. -/
def EpisodeFits (db : Db) (batch : Batch) : Prop :=
  ∀ e, batch.episode = some e →
    (∀ row ∈ db.episode, row.space = batch.space → row.contentHash ≠ contentHash e.content) →
    ∀ c ∈ e.chunks, fits db.dimension c.embedding = true

theorem writeEpisode_cases {e : NewEpisode} (hw : db.WellFormed) (clock : Clock)
    (he : batch.episode = some e) :
    EpisodeFits db batch ∧ (∃ out, writeEpisode db batch.space e clock = .ok out) ∨
      ¬ EpisodeFits db batch ∧ writeEpisode db batch.space e clock = .error .vectorWidth := by
  have hfits : EpisodeFits db batch ↔
      ((∀ row ∈ db.episode, row.space = batch.space → row.contentHash ≠ contentHash e.content) →
        ∀ c ∈ e.chunks, fits db.dimension c.embedding = true) := by
    unfold EpisodeFits
    rw [he]
    simp
  rw [hfits]
  unfold writeEpisode
  cases hf : db.episode.rows.find? fun row =>
      decide (row.space = batch.space ∧ row.contentHash = contentHash e.content) with
  | some row =>
    have hp := List.find?_some hf
    simp only [decide_eq_true_eq] at hp
    exact .inl ⟨fun h => absurd hp.2 (h row (List.mem_of_find?_eq_some hf) hp.1), _, rfl⟩
  | none =>
    have hnone : ∀ row ∈ db.episode, row.space = batch.space →
        row.contentHash ≠ contentHash e.content := by
      intro row hr hs hh
      have := List.find?_eq_none.mp hf row hr
      simp [hs, hh] at this
    have hins : (db.episode.insert? (e.record ⟨db.minted⟩ batch.space clock)).isSome := by
      refine Table.insert?_isSome.mpr fun row hr => ⟨fun h => ?_, fun h => ?_⟩
      · have hlt := hw.episode row hr
        rw [key_episode, key_episode] at h
        rw [h] at hlt
        exact absurd hlt (lt_irrefl db.minted)
      · rw [index_episode, index_episode, Prod.mk.injEq] at h
        exact hnone row hr h.1 h.2
    obtain ⟨t, ht⟩ := Option.isSome_iff_exists.mp hins
    let db₁ : Db := { db with episode := t, minted := db.minted + 1 }
    have hchunks : ∀ c ∈ db₁.episodeChunk, c.id.ulid < db₁.minted :=
      fun c hc => Nat.lt_succ_of_lt (hw.chunk c hc)
    have hcases := createChunks_cases batch.space ⟨db.minted⟩
      (toDatetime (e.occurredAt.getD clock.occurredAt)) 0 e.chunks hchunks
    rcases hcases with ⟨hall, db', hok⟩ | ⟨hno, herr⟩
    · refine .inl ⟨fun _ => hall, (db', .created ⟨db.minted⟩), ?_⟩
      simp only [db₁] at hok
      simp only [ht, hok]
    · refine .inr ⟨fun h => hno (h hnone), ?_⟩
      simp only [db₁] at herr
      simp only [ht, herr]

/-! ### The batch -/

/-- What the memories of a batch need of the database it starts from; targets that were already
closed are dropped and need nothing. -/
structure MemoriesLand (db : Db) (space : SpaceName) (memories : List NewMemory) (clock : Clock) :
    Prop where
  /-- No open row of another claim is named twice by one memory. -/
  once : ∀ m ∈ memories, ∀ r ∈ db.memory, r.isLive = true →
    r.contentHash ≠ contentHash m.content → m.supersedes.count r.id ≤ 1
  /-- An open row that two memories name holds the claim of the earlier one. -/
  apart : memories.Pairwise fun p m => ∀ r ∈ db.memory, r.isLive = true → r.id ∈ p.supersedes →
    r.id ∈ m.supersedes → r.contentHash = contentHash p.content
  /-- No copy of a target was closed at the instant the target would be. -/
  untwinned : ∀ (i : ℕ) (m : NewMemory), memories[i]? = some m → ∀ r ∈ db.memory,
    r.isLive = true → r.id ∈ m.supersedes → r.contentHash ≠ contentHash m.content →
    ¬ Twin db.memory r (toDatetime (m.validFrom.getD (clock.validFrom i)))
  /-- The vector of a memory whose claim does not stand at its turn has the width of the index. -/
  fits : ∀ pre m post, memories = pre ++ m :: post →
    contentHash m.content ∉ standing (liveClaims db space) (pre.map (NewMemory.assertion db)) →
    fits db.dimension m.embedding = true

/-- What an attempt at a batch needs. -/
structure Lands (db : Db) (batch : Batch) (clock : Clock) : Prop where
  episode : EpisodeFits db batch
  memories : MemoriesLand db batch.space batch.memories clock

/-- What a query binds for the memory at a position. -/
structure BoundAt (db : Db) (clock : Clock) (i : ℕ) (m : NewMemory) (b : MemoryBinds) : Prop
    extends BoundFor db m b where
  count : ∀ r ∈ db.memory, r.isLive = true → b.old.count r.id = m.supersedes.count r.id
  validFrom : b.row.validFrom = toDatetime (m.validFrom.getD (clock.validFrom i))

section BoundAt

variable {clock : Clock} {m m' : NewMemory} {b b' : MemoryBinds} {i i' : ℕ}

theorem BoundAt.once_iff (hb : BoundAt db clock i m b) :
    (∀ r ∈ db.memory, r.contentHash ≠ b.hash → b.old.count r.id ≤ 1) ↔
      ∀ r ∈ db.memory, r.isLive = true → r.contentHash ≠ contentHash m.content →
        m.supersedes.count r.id ≤ 1 := by
  rw [hb.hash]
  refine forall₂_congr fun r hr => ⟨fun h hl hne => hb.count r hr hl ▸ h hne, fun h hne => ?_⟩
  by_cases hid : r.id ∈ b.old
  · have hl := ((hb.targets r hr).mp hid).2
    exact hb.count r hr hl ▸ h hl hne
  · rw [List.count_eq_zero_of_not_mem hid]
    exact Nat.zero_le 1

theorem BoundAt.apart_iff (hb : BoundAt db clock i m b) (hb' : BoundAt db clock i' m' b') :
    (∀ r ∈ db.memory, r.id ∈ b.old → r.id ∈ b'.old → r.contentHash = b.hash) ↔
      ∀ r ∈ db.memory, r.isLive = true → r.id ∈ m.supersedes → r.id ∈ m'.supersedes →
        r.contentHash = contentHash m.content := by
  rw [hb.hash]
  refine forall₂_congr fun r hr => ?_
  rw [hb.targets r hr, hb'.targets r hr]
  exact ⟨fun h hl hid hid' => h ⟨hid, hl⟩ ⟨hid', hl⟩, fun h hid hid' => h hid.2 hid.1 hid'.1⟩

theorem BoundAt.untwinned_iff (hb : BoundAt db clock i m b) :
    (∀ r ∈ db.memory, r.id ∈ b.old → r.contentHash ≠ b.hash →
        ¬ Twin db.memory r b.row.validFrom) ↔
      ∀ r ∈ db.memory, r.isLive = true → r.id ∈ m.supersedes →
        r.contentHash ≠ contentHash m.content →
          ¬ Twin db.memory r (toDatetime (m.validFrom.getD (clock.validFrom i))) := by
  rw [hb.hash, hb.validFrom]
  refine forall₂_congr fun r hr => ?_
  rw [hb.targets r hr]
  exact ⟨fun h hl hid => h ⟨hid, hl⟩, fun h hid => h hid.2 hid.1⟩

end BoundAt

/-- Blocks and the memories they were bound for need the same. -/
theorem passes_mapIdx_iff {clock : Clock} {ms : List NewMemory} {f : ℕ → NewMemory → MemoryBinds}
    (hf : ∀ i m, ms[i]? = some m → BoundAt db clock i m (f i m)) :
    Passes db space (ms.mapIdx f) ↔ MemoriesLand db space ms clock := by
  have hat (i : ℕ) (hi : i < ms.length) : BoundAt db clock i ms[i] (f i ms[i]) :=
    hf i ms[i] (List.getElem?_eq_getElem hi)
  have hfits : EachTurn (MemoryBinds.assertion db)
      (fun L b => b.hash ∉ L → fits db.dimension b.row.embedding = true) (liveClaims db space)
        (ms.mapIdx f) ↔
      EachTurn (NewMemory.assertion db)
        (fun L m => contentHash m.content ∉ L → fits db.dimension m.embedding = true)
        (liveClaims db space) ms := by
    refine eachTurn_congr (List.forall₂_iff_get.mpr ⟨by simp, fun i h₁ h₂ => ?_⟩) _
    simp only [List.get_eq_getElem, List.getElem_mapIdx]
    have hb := hat i h₂
    exact ⟨hb.toBoundFor.assertion, fun L => by rw [hb.hash, hb.embedding]⟩
  rw [eachTurn_iff (f := NewMemory.assertion db)] at hfits
  constructor
  · rintro ⟨h₁, h₂, h₃, h₄⟩
    refine ⟨fun m hm => ?_, ?_, fun i m hi => ?_, hfits.mp h₄⟩
    · obtain ⟨i, hi, rfl⟩ := List.mem_iff_getElem.mp hm
      exact (hat i hi).once_iff.mp (h₁ _ (List.mem_mapIdx.mpr ⟨i, hi, rfl⟩))
    · rw [List.pairwise_iff_getElem] at h₂ ⊢
      intro i j hi hj hij
      have := h₂ i j (by simpa using hi) (by simpa using hj) hij
      simp only [List.getElem_mapIdx] at this
      exact ((hat i hi).apart_iff (hat j hj)).mp this
    · obtain ⟨hlt, rfl⟩ := List.getElem?_eq_some_iff.mp hi
      exact (hat i hlt).untwinned_iff.mp (h₃ _ (List.mem_mapIdx.mpr ⟨i, hlt, rfl⟩))
  · rintro ⟨h₁, h₂, h₃, h₄⟩
    refine ⟨fun b hb => ?_, ?_, fun b hb => ?_, hfits.mpr h₄⟩
    · obtain ⟨i, hi, rfl⟩ := List.mem_mapIdx.mp hb
      exact (hat i hi).once_iff.mpr (h₁ _ (List.getElem_mem hi))
    · rw [List.pairwise_iff_getElem] at h₂ ⊢
      intro i j hi hj hij
      simp only [List.length_mapIdx] at hi hj
      simp only [List.getElem_mapIdx]
      exact ((hat i hi).apart_iff (hat j hj)).mpr (h₂ i j hi hj hij)
    · obtain ⟨i, hi, rfl⟩ := List.mem_mapIdx.mp hb
      exact (hat i hi).untwinned_iff.mpr (h₃ i _ (List.getElem?_eq_getElem hi))

/-- What the query binds for memories of a batch, less the targets that were closed. -/
def bound (batch : Batch) (closed : List AlreadyClosed) (clock : Clock) (i : ℕ) (m : NewMemory) :
    MemoryBinds := bindMemory batch clock i (m.retain closed)

theorem binds_retain (batch : Batch) (closed : List AlreadyClosed) (clock : Clock) :
    (batch.retain closed).binds clock = batch.memories.mapIdx (bound batch closed clock) := by
  refine List.ext_getElem (by simp [Batch.binds, Batch.retain]) fun i h₁ h₂ => ?_
  simp only [Batch.binds, Batch.retain, List.getElem_mapIdx, List.getElem_map]
  rfl

theorem bound_boundAt (hin : InSpace db.memory batch.space batch.targets) (clock : Clock) (i : ℕ)
    {m : NewMemory} (hm : m ∈ batch.memories) :
    BoundAt db clock i m (bound batch (closedMemories db batch.space batch.targets) clock i m) where
  hash := rfl
  embedding := rfl
  targets r hr := mem_retain_iff hin hm hr
  count r hr hl := by
    refine List.count_filter ?_
    simp only [Bool.not_eq_true', List.any_eq_false, decide_eq_true_eq]
    intro c hc he
    obtain ⟨q, hq, hk, -, -, hql⟩ := mem_closedMemories.mp ⟨c, hc, he⟩
    rw [Table.eq_of_key hq hr hk, hl] at hql
    cases hql
  validFrom := rfl

theorem bound_open (hin : InSpace db.memory batch.space batch.targets) :
    ∀ b ∈ (batch.retain (closedMemories db batch.space batch.targets)).binds clock,
      Open db.memory b.old := by
  intro b hb id hid
  obtain ⟨r, hr, rfl, -⟩ := retain_inSpace hin b hb id hid
  rw [binds_retain] at hb
  obtain ⟨i, hi, rfl⟩ := List.mem_mapIdx.mp hb
  have hat := bound_boundAt hin clock i (List.getElem_mem hi)
  exact ⟨r, hr, rfl, ((hat.targets r hr).mp hid).2⟩

/-! ### One attempt -/

/-- A transaction fails in its episode, or is what its blocks make of the table. -/
theorem batchTransaction_cases (hw : db.WellFormed) (batch : Batch) (clock : Clock) :
    (EpisodeFits db batch ∧ ∃ db₁ ep id, Aside db db₁ ∧ batchTransaction db batch clock =
        (writeMemories batch.space id clock.engine 0 db₁ (batch.binds clock)).map
          fun u => (u.1, ep, u.2)) ∨
      ¬ EpisodeFits db batch ∧ batchTransaction db batch clock = .error .vectorWidth := by
  unfold batchTransaction Batch.binds
  cases he : batch.episode with
  | none =>
    have ha : Aside db db := ⟨rfl, rfl, le_rfl, fun _ h => .inl h, fun _ h => .inl h⟩
    refine .inl ⟨fun e h => ?_, db, none, none, ha, ?_⟩
    · rw [he] at h
      cases h
    · dsimp only
      cases writeMemories batch.space none clock.engine 0 db
        (batch.memories.mapIdx (bindMemory batch clock)) <;> rfl
  | some e =>
    dsimp only
    rcases writeEpisode_cases hw clock he with ⟨hfits, ⟨db₁, ep⟩, hok⟩ | ⟨hno, herr⟩
    · refine .inl ⟨hfits, db₁, some ep, some ep.id, writeEpisode_ok hok, ?_⟩
      rw [hok]
      dsimp only
      cases writeMemories batch.space (some ep.id) clock.engine 0 db₁
        (batch.memories.mapIdx (bindMemory batch clock)) <;> rfl
    · exact .inr ⟨hno, by rw [herr]⟩

/-- The target that a list of memories fails on: those before it land, and it gets to close an open
row of which a copy was closed at that very instant. -/
def CollidesAt (db : Db) (space : SpaceName) (clock : Clock) (pre : List NewMemory)
    (m : NewMemory) : Prop :=
  MemoriesLand db space pre clock ∧
    (contentHash m.content ∉ standing (liveClaims db space) (pre.map (NewMemory.assertion db)) →
      fits db.dimension m.embedding = true) ∧
    ∃ r ∈ db.memory, r.isLive = true ∧ r.id ∈ m.supersedes ∧
      r.contentHash ≠ contentHash m.content ∧
      (∀ p ∈ pre, r.id ∈ p.supersedes → r.contentHash = contentHash p.content) ∧
      Twin db.memory r (toDatetime (m.validFrom.getD (clock.validFrom pre.length)))

/-- An attempt comes to close a row of which a copy was closed at that very instant. -/
def Collides (db : Db) (batch : Batch) (clock : Clock) : Prop :=
  EpisodeFits db batch ∧ ∃ pre m post, batch.memories = pre ++ m :: post ∧
    CollidesAt db batch.space clock pre m

omit [Hashing] in
/-- The only index a block can run into is that of the memories. -/
theorem writeMemory_race {episode : Option EpisodeId} {m : MemoryBinds} {now : Timestamp}
    {e : EngineError} (h : writeMemory db space episode m now = .error e)
    (hr : isWriteRace e = true) :
    e = .indexExists .memHashLive := by
  have hclose {db : Db} {named old : List MemoryId} {new : MemoryId} {boundary : Timestamp}
      {e : EngineError} (h : closeTargets db named old new boundary = .error e)
      (hr : isWriteRace e = true) : e = .indexExists .memHashLive := by
    unfold closeTargets at h
    split at h
    · cases h; rfl
    · split_ifs at h
      cases h
      cases hr
  unfold writeMemory at h
  split at h
  · split at h
    · next herr => cases h; exact hclose herr hr
    · cases h
  · split at h
    · next herr =>
      cases h
      unfold createMemory at herr
      split_ifs at herr
      · split at herr
        · cases herr
        · cases herr; rfl
      · cases herr; cases hr
    · split at h
      · next herr => cases h; exact hclose herr hr
      · cases h

omit [Hashing] in
theorem map_isOk {ε α β : Type} {f : α → β} {x : Except ε α} :
    (∃ b, x.map f = .ok b) ↔ ∃ a, x = .ok a := by
  cases x <;> simp [Except.map]

omit [Hashing] in
theorem map_error {ε α β : Type} {f : α → β} {x : Except ε α} {e : ε} :
    x.map f = .error e ↔ x = .error e := by
  cases x <;> simp [Except.map]

/-- An attempt ends as its transaction does. -/
theorem insertBatchOnce_eq (hin : InSpace db.memory batch.space batch.targets) (clock : Clock) :
    ∃ f, insertBatchOnce db batch clock =
      ((batchTransaction db (batch.retain (closedMemories db batch.space batch.targets)) clock).map
        f).mapError .db := by
  refine ⟨fun u => (u.1, ⟨u.2.1, u.2.2, (List.zipWith closedTargets
    (batch.retain (closedMemories db batch.space batch.targets)).memories u.2.2).flatten,
    closedMemories db batch.space batch.targets⟩), ?_⟩
  unfold insertBatchOnce
  rw [ensureMemoriesExist_ok.mpr hin]
  dsimp only
  cases batchTransaction db (batch.retain (closedMemories db batch.space batch.targets)) clock
  · rfl
  · rfl

section Attempt

variable {clock : Clock} (hw : db.WellFormed)
  (hin : InSpace db.memory batch.space batch.targets)
include hin

theorem insertBatchOnce_isOk_iff_transaction :
    (∃ out, insertBatchOnce db batch clock = .ok out) ↔ ∃ out, batchTransaction db
      (batch.retain (closedMemories db batch.space batch.targets)) clock = .ok out := by
  obtain ⟨f, hf⟩ := insertBatchOnce_eq hin clock
  rw [hf, ← map_isOk (f := f)]
  cases (batchTransaction db
    (batch.retain (closedMemories db batch.space batch.targets)) clock).map f <;>
  simp [Except.mapError]

theorem insertBatchOnce_error_iff_transaction {e : EngineError} :
    insertBatchOnce db batch clock = .error (.db e) ↔ batchTransaction db
      (batch.retain (closedMemories db batch.space batch.targets)) clock = .error e := by
  obtain ⟨f, hf⟩ := insertBatchOnce_eq hin clock
  rw [hf, ← map_error (f := f)]
  cases (batchTransaction db
    (batch.retain (closedMemories db batch.space batch.targets)) clock).map f <;>
  simp [Except.mapError]

include hw

/-- The blocks of an attempt meet the table of the database it starts from. -/
theorem attempt_cases (clock : Clock) :
    (EpisodeFits db batch ∧ ∃ db₁ id, Aside db db₁ ∧
      ((∃ out, insertBatchOnce db batch clock = .ok out) ↔
        ∃ out, writeMemories batch.space id clock.engine 0 db₁ (batch.memories.mapIdx
          (bound batch (closedMemories db batch.space batch.targets) clock)) = .ok out) ∧
      ∀ e, insertBatchOnce db batch clock = .error (.db e) ↔
        writeMemories batch.space id clock.engine 0 db₁ (batch.memories.mapIdx
          (bound batch (closedMemories db batch.space batch.targets) clock)) = .error e) ∨
    ¬ EpisodeFits db batch ∧ insertBatchOnce db batch clock = .error (.db .vectorWidth) := by
  rcases batchTransaction_cases hw
    (batch.retain (closedMemories db batch.space batch.targets)) clock with
    ⟨hfits, db₁, ep, id, ha, he⟩ | ⟨hno, herr⟩
  · rw [binds_retain] at he
    refine .inl ⟨hfits, db₁, id, ha, ?_, fun e => ?_⟩
    · rw [insertBatchOnce_isOk_iff_transaction hin, he, map_isOk]
      rfl
    · rw [insertBatchOnce_error_iff_transaction hin, he, map_error]
      rfl
  · exact .inr ⟨hno, (insertBatchOnce_error_iff_transaction hin).mpr herr⟩

/-- The bindings of an attempt, at the database its blocks start from. -/
theorem bound_start (clock : Clock) {db₁ : Db} (ha : Aside db db₁) :
    db₁.WellFormed ∧ ∀ b ∈ batch.memories.mapIdx
        (bound batch (closedMemories db batch.space batch.targets) clock),
      InSpace db₁.memory batch.space b.old ∧ b.Coherent batch.space ∧ Open db₁.memory b.old := by
  refine ⟨ha.wellFormed hw, fun b hb => ?_⟩
  rw [← binds_retain] at hb
  rw [ha.memory]
  exact ⟨retain_inSpace hin b hb, (Batch.mem_binds hb).1, bound_open hin b hb⟩

theorem attempt_isOk_iff :
    (∃ out, insertBatchOnce db batch clock = .ok out) ↔ Lands db batch clock := by
  rcases attempt_cases hw hin clock with ⟨hfits, db₁, id, ha, hok, -⟩ | ⟨hno, herr⟩
  · obtain ⟨hw₁, hb⟩ := bound_start hw hin clock ha
    rw [hok, writeMemories_isOk_iff hw₁ (fun b h => (hb b h).1) (fun b h => (hb b h).2.1)
      (fun b h => (hb b h).2.2), ha.passes_iff,
      passes_mapIdx_iff fun i m hi => bound_boundAt hin clock i (List.mem_of_getElem? hi)]
    exact ⟨fun h => ⟨hfits, h⟩, fun h => h.memories⟩
  · rw [herr]
    exact iff_of_false (by simp) fun h => hno h.episode

omit [Hashing] hw hin in
theorem mapIdx_split {α β : Type} {f : ℕ → α → β} {as : List α} {pre post : List β} {b : β} :
    as.mapIdx f = pre ++ b :: post ↔ ∃ pre' a post', as = pre' ++ a :: post' ∧
      pre'.mapIdx f = pre ∧ f pre'.length a = b ∧
      post'.mapIdx (fun i => f (i + 1 + pre'.length)) = post := by
  rw [List.mapIdx_eq_append_iff]
  constructor
  · rintro ⟨pre', rest, rfl, hpre, hrest⟩
    obtain ⟨a, post', rfl, hb, hpost⟩ := List.mapIdx_eq_cons_iff.mp hrest
    rw [Nat.zero_add] at hb
    exact ⟨pre', a, post', rfl, hpre, hb, hpost⟩
  · rintro ⟨pre', a, post', rfl, hpre, hb, hpost⟩
    refine ⟨pre', a :: post', rfl, hpre, List.mapIdx_eq_cons_iff.mpr ⟨a, post', rfl, ?_, hpost⟩⟩
    rwa [Nat.zero_add]

omit hw in
/-- The block an attempt fails on, read off the memories. -/
theorem collidesAt_iff {db₁ : Db} (ha : Aside db db₁) {pre post : List NewMemory} {m : NewMemory}
    {f : ℕ → NewMemory → MemoryBinds}
    (hf : f = bound batch (closedMemories db batch.space batch.targets) clock)
    (he : batch.memories = pre ++ m :: post) :
    (Passes db₁ batch.space (pre.mapIdx f) ∧
      ((f pre.length m).hash ∉ standing (liveClaims db₁ batch.space)
          ((pre.mapIdx f).map (MemoryBinds.assertion db₁)) →
        fits db₁.dimension (f pre.length m).row.embedding = true) ∧
      ∃ r ∈ db₁.memory, r.id ∈ (f pre.length m).old ∧ r.contentHash ≠ (f pre.length m).hash ∧
        (∀ p ∈ pre.mapIdx f, r.id ∈ p.old → r.contentHash = p.hash) ∧
        Twin db₁.memory r (f pre.length m).row.validFrom) ↔
    CollidesAt db batch.space clock pre m := by
  have hmem {q : NewMemory} (hq : q ∈ pre) : q ∈ batch.memories :=
    he ▸ List.mem_append_left _ hq
  have hat {q : NewMemory} (i : ℕ) (hq : q ∈ batch.memories) : BoundAt db clock i q (f i q) :=
    hf ▸ bound_boundAt hin clock i hq
  have hm : BoundAt db clock pre.length m (f pre.length m) := hat _ (by simp [he])
  have hpre (i : ℕ) (hi : i < pre.length) : BoundAt db clock i pre[i] (f i pre[i]) :=
    hat i (hmem (List.getElem_mem hi))
  have hstand : (pre.mapIdx f).map (MemoryBinds.assertion db) =
      pre.map (NewMemory.assertion db) := by
    refine List.ext_getElem (by simp) fun i h₁ h₂ => ?_
    simp only [List.getElem_map, List.getElem_mapIdx]
    exact (hpre i (by simpa using h₂)).toBoundFor.assertion
  rw [ha.passes_iff, ha.liveClaims, ha.assertion, ha.dimension, ha.memory, hstand,
    passes_mapIdx_iff fun i q hi => hat i (hmem (List.mem_of_getElem? hi)), hm.hash, hm.embedding,
    hm.validFrom]
  refine and_congr_right fun _ => and_congr_right fun _ => exists_congr fun r =>
    and_congr_right fun hr => ?_
  have hbefore : (∀ p ∈ pre.mapIdx f, r.id ∈ p.old → r.contentHash = p.hash) ↔
      ∀ p ∈ pre, r.id ∈ p.supersedes ∧ r.isLive = true →
        r.contentHash = contentHash p.content := by
    constructor
    · intro h p hp
      obtain ⟨i, hi, rfl⟩ := List.mem_iff_getElem.mp hp
      rw [← (hpre i hi).targets r hr, ← (hpre i hi).hash]
      exact h _ (List.mem_mapIdx.mpr ⟨i, hi, rfl⟩)
    · intro h b hb
      obtain ⟨i, hi, rfl⟩ := List.mem_mapIdx.mp hb
      rw [(hpre i hi).targets r hr, (hpre i hi).hash]
      exact h _ (List.getElem_mem hi)
  rw [hbefore, hm.targets r hr]
  constructor
  · rintro ⟨⟨hid, hl⟩, hne, hbef, htw⟩
    exact ⟨hl, hid, hne, fun p hp hidp => hbef p hp ⟨hidp, hl⟩, htw⟩
  · rintro ⟨hl, hid, hne, hbef, htw⟩
    exact ⟨⟨hid, hl⟩, hne, fun p hp h => hbef p hp h.1, htw⟩

theorem attempt_index_iff {index : Index} :
    insertBatchOnce db batch clock = .error (.db (.indexExists index)) ↔
      index = .memHashLive ∧ Collides db batch clock := by
  rcases attempt_cases hw hin clock with ⟨hfits, db₁, id, ha, -, herr⟩ | ⟨hno, herr⟩
  · obtain ⟨hw₁, hb⟩ := bound_start hw hin clock ha
    rw [herr, writeMemories_index_iff hw₁ (fun b h => (hb b h).1) (fun b h => (hb b h).2.1)
      (fun b h => (hb b h).2.2), Collides, and_iff_right hfits]
    refine and_congr_right fun _ => ?_
    constructor
    · rintro ⟨pre, b, post, hsplit, hit⟩
      obtain ⟨pre, m, post, he, rfl, rfl, -⟩ := mapIdx_split.mp hsplit
      exact ⟨pre, m, post, he, (collidesAt_iff hin ha rfl he).mp hit⟩
    · rintro ⟨pre, m, post, he, hit⟩
      exact ⟨_, _, _, mapIdx_split.mpr ⟨pre, m, post, he, rfl, rfl, rfl⟩,
        (collidesAt_iff hin ha rfl he).mpr hit⟩
  · rw [herr]
    refine iff_of_false (by simp) fun h => hno h.2.1

theorem attempt_race {e : EngineError} (h : insertBatchOnce db batch clock = .error (.db e))
    (hr : isWriteRace e = true) : e = .indexExists .memHashLive := by
  rcases attempt_cases hw hin clock with ⟨-, db₁, id, -, -, herr⟩ | ⟨-, herr⟩
  · obtain ⟨pre, m, post, db₂, ws, -, -, he⟩ := writeMemories_error_iff.mp ((herr e).mp h)
    exact writeMemory_race he hr
  · rw [herr] at h
    cases h
    cases hr

omit hw hin in
/-- Attempts differ in their clocks only, so one that fails where another lands ran into a twin. -/
theorem collides_of_lands {clock' : Clock} (h : Lands db batch clock')
    (hno : ¬ Lands db batch clock) :
    Collides db batch clock := by
  classical
  let Hit (i : ℕ) : Prop := ∃ m, batch.memories[i]? = some m ∧ ∃ r ∈ db.memory, r.isLive = true ∧
    r.id ∈ m.supersedes ∧ r.contentHash ≠ contentHash m.content ∧
    Twin db.memory r (toDatetime (m.validFrom.getD (clock.validFrom i)))
  have hex : ∃ i, Hit i := by
    by_contra hnone
    refine hno ⟨h.episode, h.memories.once, h.memories.apart, fun i m hi r hr hl hid hne htw => ?_,
      h.memories.fits⟩
    exact hnone ⟨i, m, hi, r, hr, hl, hid, hne, htw⟩
  obtain ⟨i, ⟨m, hi, r, hr, hl, hid, hne, htw⟩, hfirst⟩ : ∃ i, Hit i ∧ ∀ j < i, ¬ Hit j :=
    ⟨Nat.find hex, Nat.find_spec hex, fun j hj => Nat.find_min hex hj⟩
  obtain ⟨hlt, hmi⟩ := List.getElem?_eq_some_iff.mp hi
  have hsplit : batch.memories = batch.memories.take i ++ m :: batch.memories.drop (i + 1) := by
    rw [← hmi, List.getElem_cons_drop, List.take_append_drop]
  have hlen : (batch.memories.take i).length = i := List.length_take_of_le hlt.le
  have hapart := h.memories.apart
  rw [hsplit, List.pairwise_append] at hapart
  refine ⟨h.episode, _, m, _, hsplit, ⟨fun m' hm' => h.memories.once m' (List.mem_of_mem_take hm'),
    hapart.1, fun j m' hj r hr hl hid hne htw => ?_, fun pre m' post he => ?_⟩, ?_,
    r, hr, hl, hid, hne, fun p hp hidp => ?_, hlen.symm ▸ htw⟩
  · have hj' : j < i := by
      have := (List.getElem?_eq_some_iff.mp hj).1
      omega
    rw [List.getElem?_take_of_lt hj'] at hj
    exact hfirst j hj' ⟨m', hj, r, hr, hl, hid, hne, htw⟩
  · refine h.memories.fits pre m' (post ++ m :: batch.memories.drop (i + 1)) ?_
    exact hsplit.trans (by rw [he]; simp)
  · exact h.memories.fits _ _ _ hsplit
  · exact hapart.2.2 p hp m List.mem_cons_self r hr hl hidp hid

end Attempt

/-! ### The retries -/

section Retries

variable {clock : ℕ → Clock} (hw : db.WellFormed)
  (hin : InSpace db.memory batch.space batch.targets)
include hw hin

theorem insertBatchFrom_isOk_iff {k left : ℕ} :
    (∃ out, insertBatchFrom db batch clock k left = .ok out) ↔
      ∃ j, k ≤ j ∧ j ≤ k + left ∧ Lands db batch (clock j) := by
  constructor
  · rintro ⟨⟨db', out⟩, h⟩
    obtain ⟨j, hkj, hj, hok⟩ := insertBatchFrom_ok h
    exact ⟨j, hkj, hj, (attempt_isOk_iff hw hin).mp ⟨_, hok⟩⟩
  · rintro ⟨j, hkj, hj, hlands⟩
    induction left generalizing k with
    | zero =>
      obtain rfl : j = k := by omega
      exact (attempt_isOk_iff hw hin).mpr hlands
    | succ left ih =>
      unfold insertBatchFrom
      by_cases hk : Lands db batch (clock k)
      · obtain ⟨out, hout⟩ := (attempt_isOk_iff hw hin).mpr hk
        rw [hout]
        exact ⟨out, rfl⟩
      · have hne : j ≠ k := fun h => hk (h ▸ hlands)
        have hcol := collides_of_lands hlands hk
        rw [(attempt_index_iff hw hin).mpr ⟨rfl, hcol⟩]
        exact ih (by omega) (by omega)

omit [Hashing] hw hin in
theorem forall_attempts_succ {P : ℕ → Prop} {k left : ℕ} :
    (∀ j, k ≤ j → j ≤ k + (left + 1) → P j) ↔ P k ∧ ∀ j, k + 1 ≤ j → j ≤ k + 1 + left → P j := by
  refine ⟨fun h => ⟨h k le_rfl (by omega), fun j hlow hhigh => h j (by omega) (by omega)⟩,
    fun h j hlow hhigh => ?_⟩
  rcases Nat.eq_or_lt_of_le hlow with rfl | hlt
  · exact h.1
  · exact h.2 j hlt (by omega)

theorem insertBatchFrom_index_iff {k left : ℕ} {index : Index} :
    insertBatchFrom db batch clock k left = .error (.db (.indexExists index)) ↔
      index = .memHashLive ∧ ∀ j, k ≤ j → j ≤ k + left → Collides db batch (clock j) := by
  induction left generalizing k with
  | zero =>
    unfold insertBatchFrom
    rw [attempt_index_iff hw hin]
    refine and_congr_right fun _ => ⟨fun h j hkj hj => ?_, fun h => h k le_rfl le_rfl⟩
    obtain rfl : j = k := by omega
    exact h
  | succ left ih =>
    rw [forall_attempts_succ]
    unfold insertBatchFrom
    by_cases hcol : Collides db batch (clock k)
    · rw [(attempt_index_iff hw hin).mpr ⟨rfl, hcol⟩]
      simp only [isWriteRace, if_true, ih, hcol, true_and]
    · -- an attempt that does not collide is the last, and does not end on an index
      refine iff_of_false (fun h => ?_) fun h => hcol h.2.1
      cases hone : insertBatchOnce db batch (clock k) with
      | ok out => simp [hone] at h
      | error e =>
        have hindex (index : Index) : e ≠ .db (.indexExists index) := by
          rintro rfl
          exact hcol ((attempt_index_iff hw hin).mp hone).2
        cases e with
        | db e =>
          simp only [hone] at h
          split_ifs at h with hrace
          · exact hindex _ (congrArg StoreError.db (attempt_race hw hin hone hrace))
          · exact hindex index (Except.error.inj h)
        | _ => simp [hone] at h

end Retries

/-! ### What comes back -/

/-- Of the memories of one claim the first is created, unless the claim stood, and those after a
created one are duplicates of it. -/
structure Collapses (db : Db) (batch : Batch) (written : List (Written MemoryId)) : Prop where
  created : ∀ pre m post, batch.memories = pre ++ m :: post →
    contentHash m.content ∉ liveClaims db batch.space →
    (∀ p ∈ pre, contentHash p.content ≠ contentHash m.content) →
    ∃ id, written[pre.length]? = some (.created id)
  duplicate : ∀ (i j : ℕ) (m m' : NewMemory) (id : MemoryId), i < j →
    batch.memories[i]? = some m → batch.memories[j]? = some m' →
    contentHash m'.content = contentHash m.content → written[i]? = some (.created id) →
    written[j]? = some (.duplicate id)

theorem collapses {clock : ℕ → Clock} {out : BatchOutcome} (hw : db.WellFormed)
    (h : insertBatch db batch clock = .ok (db', out)) : Collapses db batch out.memories := by
  obtain ⟨k, -, hok⟩ := insertBatch_ok h
  obtain ⟨hin, hclosed, -, db₁, ha, hall⟩ := insertBatchOnce_ok hw hok
  rw [hclosed] at hall
  obtain ⟨hw₁, hb⟩ := bound_start hw hin (clock k) ha
  rw [binds_retain] at hall
  have hm := fun b h => (hb b h).2.1
  have hin₁ := fun b h => (hb b h).1
  constructor
  · intro pre m post he hnew hfirst
    rw [← ha.liveClaims] at hnew
    obtain ⟨id, hid⟩ := hall.created_of_new hw₁ hm hin₁
      (mapIdx_split.mpr ⟨pre, m, post, he, rfl, rfl, rfl⟩) hnew fun p hp => by
        obtain ⟨i, hi, rfl⟩ := List.mem_mapIdx.mp hp
        exact hfirst pre[i] (List.getElem_mem hi)
    exact ⟨id, by simpa using hid⟩
  · intro i j m m' id hij hi hj hh hcreated
    exact hall.duplicate_of_created hw₁ hm hin₁ hij
      (by rw [List.getElem?_mapIdx, hi]; rfl) (by rw [List.getElem?_mapIdx, hj]; rfl) hh hcreated

/-- A batch whose targets are open commits, and returns its copies collapsed, exactly when one of
its three attempts lands. -/
theorem insertBatch_commits_iff (hdb : db.Reachable) {clock : ℕ → Clock}
    (htargets : ∀ id ∈ batch.targets,
      ∃ r ∈ db.memory, r.id = id ∧ r.space = batch.space ∧ r.isLive = true) :
    (∃ db' out, insertBatch db batch clock = .ok (db', out) ∧ Collapses db batch out.memories) ↔
      ∃ k < 3, Lands db batch (clock k) := by
  have hw := hdb.wellFormed
  have hin : InSpace db.memory batch.space batch.targets := fun id hid => by
    obtain ⟨r, hr, hk, hs, -⟩ := htargets id hid
    exact ⟨r, hr, hk, hs⟩
  have hiff : (∃ out, insertBatch db batch clock = .ok out) ↔
      ∃ j, 0 ≤ j ∧ j ≤ 0 + 2 ∧ Lands db batch (clock j) := insertBatchFrom_isOk_iff hw hin
  constructor
  · rintro ⟨db', out, h, -⟩
    obtain ⟨j, -, hj, hl⟩ := hiff.mp ⟨_, h⟩
    exact ⟨j, by omega, hl⟩
  · rintro ⟨k, hk, hl⟩
    obtain ⟨⟨db', out⟩, h⟩ := hiff.mpr ⟨k, Nat.zero_le k, by omega, hl⟩
    exact ⟨db', out, h, collapses hw h⟩

omit [Hashing] in
/-- One claim is replaced by another. -/
theorem insertBatch_commits_iff_correction : ∃ db batch clock, @Db.Reachable plain db ∧
    batch.targets ≠ [] ∧
    (∀ id ∈ batch.targets, ∃ r ∈ db.memory, r.id = id ∧ r.space = batch.space ∧ r.isLive = true) ∧
    ((∃ db' out, @insertBatch plain db batch clock = .ok (db', out) ∧
      @Collapses plain db batch out.memories) ↔ ∃ k < 3, @Lands plain db batch (clock k)) := by
  obtain ⟨steps, db, hrun, -, hp⟩ := exists_run_of_exec (@step plain) (Db.empty 0)
    [remember 0 [claim 'a' [] none]] (fun u => u.2.memory.rows.any fun r =>
      decide (r.id = ⟨0⟩ ∧ r.space = agmem ∧ r.isLive = true)) (by decide)
  simp only [List.any_eq_true, decide_eq_true_eq] at hp
  have hreach : @Db.Reachable plain db := ⟨0, steps, hrun⟩
  have htargets : ∀ id ∈ (batchOf [claim 'b' [0] none]).targets, ∃ r ∈ db.memory,
      r.id = id ∧ r.space = agmem ∧ r.isLive = true := by
    intro id hid
    rw [show (batchOf [claim 'b' [0] none]).targets = [⟨0⟩] from rfl, List.mem_singleton] at hid
    exact hid ▸ hp
  exact ⟨db, batchOf [claim 'b' [0] none], ticking 9, hreach, by decide, htargets,
    @insertBatch_commits_iff db plain _ hreach (ticking 9) htargets⟩

omit [Hashing] in
/-- Two memories of a batch that name the same open row abort it, also when they are identical. -/
theorem shared_target_aborts : ∃ db, @Db.Reachable plain db ∧
    ∀ batch ∈ [batchOf [claim 'b' [0] none, claim 'c' [0] none],
        batchOf [claim 'b' [0] none, claim 'b' [0] none]],
      (∀ id ∈ batch.targets, ∃ r ∈ db.memory, r.id = id ∧ r.space = batch.space ∧
        r.isLive = true) ∧
      @insertBatch plain db batch (ticking 9) = .error (.db (.thrown (.targetsGone [⟨0⟩]))) := by
  obtain ⟨steps, db, hrun, -, hp⟩ := exists_run_of_exec (@step plain) (Db.empty 0)
    [remember 0 [claim 'a' [] none]]
    (fun u => decide (∀ batch ∈ [batchOf [claim 'b' [0] none, claim 'c' [0] none],
        batchOf [claim 'b' [0] none, claim 'b' [0] none]],
      (∀ id ∈ batch.targets, ∃ r ∈ u.2.memory.rows, r.id = id ∧ r.space = batch.space ∧
        r.isLive = true) ∧
      failsWith (.db (.thrown (.targetsGone [⟨0⟩])))
        (@insertBatch plain u.2 batch (ticking 9)) = true)) (by decide)
  refine ⟨db, ⟨0, steps, hrun⟩, fun batch hb => ?_⟩
  obtain ⟨htargets, hfail⟩ := of_decide_eq_true hp batch hb
  exact ⟨htargets, eq_error_of_failsWith hfail⟩

end Batch

end Agmem.Store.Landing
