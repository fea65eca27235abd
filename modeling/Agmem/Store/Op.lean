import Agmem.Store.Change
import Agmem.Transition.Run

/-! The store as a system: its operations, the runs they make, and what every
reachable database satisfies. An operation that goes through is a sequence of
changes; one that fails leaves the database alone, so a run does not list it. -/

namespace Agmem.Store

open Core Relational Relation Transition

variable {links : Linking → Prop} {db db' : Db}

/-! ### A batch, block by block -/

/-- The blocks of a batch, one after the other. -/
inductive WroteAll (space : SpaceName) :
    Db → List MemoryBinds → List (Written MemoryId) → Db → Prop
  | nil (db : Db) : WroteAll space db [] [] db
  | cons {db db₁ db' : Db} {m : MemoryBinds} {ms : List MemoryBinds} {w : Written MemoryId}
      {ws : List (Written MemoryId)} (h : Wrote space m db w db₁)
      (rest : WroteAll space db₁ ms ws db') : WroteAll space db (m :: ms) (w :: ws) db'

theorem writeMemories_ok {space : SpaceName} {episode : Option EpisodeId} {now : ℕ → Timestamp}
    {ms : List MemoryBinds} {ws : List (Written MemoryId)} {i : ℕ}
    (hold : ∀ m ∈ ms, ∀ id ∈ m.old, id.ulid < db.minted)
    (h : writeMemories space episode now i db ms = .ok (db', ws)) :
    WroteAll space db ms ws db' := by
  induction ms generalizing db i ws with
  | nil =>
    simp only [writeMemories, Except.ok.injEq, Prod.mk.injEq] at h
    obtain ⟨rfl, rfl⟩ := h
    exact .nil db
  | cons m ms ih =>
    obtain ⟨db₁, w, ws', hw, hws, rfl⟩ := writeMemories_cons_ok h
    have hwrote := writeMemory_ok (hold m List.mem_cons_self) hw
    have hle := hwrote.grown.1.minted
    exact .cons hwrote (ih (fun m' hm' id hid =>
      (hold m' (List.mem_cons_of_mem _ hm') id hid).trans_le hle) hws)

theorem InSpace.kept {space : SpaceName} {ids : List MemoryId}
    (h : InSpace db.memory space ids) (hk : Kept db db') : InSpace db'.memory space ids := by
  intro id hid
  obtain ⟨r, hr, rfl, hs⟩ := h id hid
  obtain ⟨r', hr', he⟩ := hk r hr
  exact ⟨r', hr', he.id, he.space.trans hs⟩

theorem WroteAll.grown {space : SpaceName} {ms : List MemoryBinds} {ws : List (Written MemoryId)}
    (h : WroteAll space db ms ws db') : Grown db db' ∧ Kept db db' := by
  induction h with
  | nil db => exact ⟨.refl db, .refl db⟩
  | cons h _ ih => exact ⟨h.grown.1.trans ih.1, h.grown.2.trans ih.2⟩

theorem WroteAll.changes {space : SpaceName} {ms : List MemoryBinds} {ws : List (Written MemoryId)}
    (h : WroteAll space db ms ws db') (hb : links .block) (hm : ∀ m ∈ ms, m.Coherent space)
    (hs : ∀ m ∈ ms, InSpace db.memory space m.old) : ReflTransGen (Change links) db db' := by
  induction h with
  | nil db => exact .refl
  | cons h _ ih =>
    refine .head (.wrote hb (hm _ List.mem_cons_self) (hs _ List.mem_cons_self) h) (ih ?_ ?_)
    · exact fun m hm' => hm m (List.mem_cons_of_mem _ hm')
    · exact fun m hm' => (hs m (List.mem_cons_of_mem _ hm')).kept h.grown.2

theorem WroteAll.wellFormed {space : SpaceName} {ms : List MemoryBinds}
    {ws : List (Written MemoryId)} (h : WroteAll space db ms ws db')
    (hm : ∀ m ∈ ms, m.Coherent space) (hs : ∀ m ∈ ms, InSpace db.memory space m.old)
    (hw : db.WellFormed) : db'.WellFormed := by
  induction h with
  | nil db => exact hw
  | cons h _ ih =>
    obtain ⟨hm₀, hm⟩ := List.forall_mem_cons.mp hm
    obtain ⟨hs₀, hs⟩ := List.forall_mem_cons.mp hs
    exact ih hm (fun m hm' => (hs m hm').kept h.grown.2) (h.wellFormed hm₀ hs₀ hw)

theorem WroteAll.length {space : SpaceName} {ms : List MemoryBinds} {ws : List (Written MemoryId)}
    (h : WroteAll space db ms ws db') : ws.length = ms.length := by
  induction h with
  | nil db => rfl
  | cons _ _ ih => simp [ih]

theorem WroteAll.episode_eq {space : SpaceName} {ms : List MemoryBinds}
    {ws : List (Written MemoryId)} (h : WroteAll space db ms ws db') :
    db'.episode = db.episode := by
  induction h with
  | nil db => rfl
  | cons h _ ih => cases h <;> exact ih

theorem createChunks_ok {space : SpaceName} {e : EpisodeId} {at_ : Timestamp} {i : ℕ}
    {chunks : List NewChunk} (h : createChunks space e at_ i db chunks = .ok db') :
    Aside db db' ∧ db'.episode = db.episode := by
  induction chunks generalizing db i with
  | nil =>
    simp only [createChunks, Except.ok.injEq] at h
    subst h
    exact ⟨⟨rfl, rfl, le_rfl, fun e he => .inl he, fun c hc => .inl hc⟩, rfl⟩
  | cons chunk chunks ih =>
    unfold createChunks at h
    split_ifs at h with hf
    split at h
    · cases h
    · next t ht =>
      obtain ⟨ha, hep⟩ := ih h
      refine ⟨⟨ha.memory, ha.dimension, (Nat.le_succ _).trans ha.minted,
        fun e he => .inl (hep ▸ he), fun c hc => ?_⟩, hep⟩
      rcases ha.chunk c hc with hc | hc
      · rw [Table.mem_iff, Table.insert?_eq_some.mp ht, List.mem_append, List.mem_singleton] at hc
        rcases hc with hc | rfl
        · exact .inl hc
        · exact .inr ((Nat.lt_succ_self _).trans_le ha.minted)
      · exact .inr hc

section Batch

variable [Hashing] {batch : Batch}

theorem writeEpisode_ok {space : SpaceName} {e : NewEpisode} {clock : Clock}
    {w : Written EpisodeId} (h : writeEpisode db space e clock = .ok (db', w)) : Aside db db' := by
  rcases writeEpisode_eq_ok h with ⟨-, -, rfl, -⟩ | ⟨-, -, t, ht, hc⟩
  · exact ⟨rfl, rfl, le_rfl, fun e he => .inl he, fun c hc => .inl hc⟩
  · obtain ⟨ha, hep⟩ := createChunks_ok hc
    refine ⟨ha.memory, ha.dimension, (Nat.le_succ _).trans ha.minted, fun e he => ?_, ha.chunk⟩
    rw [hep, Table.mem_iff, Table.insert?_eq_some.mp ht, List.mem_append,
      List.mem_singleton] at he
    rcases he with he | rfl
    · exact .inl he
    · exact .inr ⟨le_rfl, (Nat.lt_succ_self _).trans_le ha.minted⟩

theorem bindMemory_coherent (batch : Batch) (clock : Clock) (i : ℕ) (m : NewMemory) :
    (bindMemory batch clock i m).Coherent batch.space := ⟨rfl, rfl, rfl⟩

/-- What a query binds for the memories of a batch. -/
def Batch.binds (batch : Batch) (clock : Clock) : List MemoryBinds :=
  batch.memories.mapIdx (bindMemory batch clock)

theorem Batch.mem_binds {clock : Clock} {b : MemoryBinds} (h : b ∈ batch.binds clock) :
    b.Coherent batch.space ∧ ∃ m ∈ batch.memories, b.hash = contentHash m.content ∧
      b.old = m.supersedes := by
  obtain ⟨i, hi, rfl⟩ := List.mem_mapIdx.mp h
  exact ⟨bindMemory_coherent _ _ _ _, _, List.getElem_mem hi, rfl, rfl⟩

theorem batchTransaction_ok {clock : Clock} {ep : Option (Written EpisodeId)}
    {ws : List (Written MemoryId)}
    (hold : ∀ m ∈ batch.memories, ∀ id ∈ m.supersedes, id.ulid < db.minted)
    (h : batchTransaction db batch clock = .ok (db', ep, ws)) :
    ∃ db₁, Aside db db₁ ∧ WroteAll batch.space db₁ (batch.binds clock) ws db' := by
  have hbinds : ∀ db₁ : Db, db.minted ≤ db₁.minted →
      ∀ b ∈ batch.binds clock, ∀ id ∈ b.old, id.ulid < db₁.minted := by
    intro db₁ hle b hb id hid
    obtain ⟨-, m, hm, -, hb⟩ := Batch.mem_binds hb
    exact (hold m hm id (hb ▸ hid)).trans_le hle
  rcases batchTransaction_eq_ok h with ⟨-, -, hws⟩ | ⟨e, db₁, w, -, hep, -, hws⟩
  · exact ⟨db, ⟨rfl, rfl, le_rfl, fun e he => .inl he, fun c hc => .inl hc⟩,
      writeMemories_ok (hbinds db le_rfl) hws⟩
  · have ha := writeEpisode_ok hep
    exact ⟨db₁, ha, writeMemories_ok (hbinds _ ha.minted) hws⟩

omit [Hashing] in
theorem ensureMemoriesExist_ok {space : SpaceName} {ids : List MemoryId} :
    ensureMemoriesExist db space ids = .ok () ↔ InSpace db.memory space ids := by
  have hid (id : MemoryId) : (db.memory.get? id).any (fun r => decide (r.space = space)) = true ↔
      ∃ r ∈ db.memory, r.id = id ∧ r.space = space := by
    simp only [Option.any_eq_true, decide_eq_true_eq]
    constructor
    · rintro ⟨r, hr, hs⟩
      obtain ⟨hr, hk⟩ := Table.get?_eq_some.mp hr
      exact ⟨r, hr, hk, hs⟩
    · rintro ⟨r, hr, hk, hs⟩
      exact ⟨r, Table.get?_eq_some.mpr ⟨hr, hk⟩, hs⟩
  unfold ensureMemoriesExist
  cases hf : ids.find? fun id => !(db.memory.get? id).any (fun r => decide (r.space = space)) with
  | none =>
    simp only [true_iff]
    intro id hmem
    have := List.find?_eq_none.mp hf id hmem
    exact (hid id).mp (by simpa using this)
  | some id =>
    have hp := List.find?_some hf
    simp only [reduceCtorEq, false_iff]
    intro hs
    have := (hid id).mpr (hs id (List.mem_of_find?_eq_some hf))
    simp [this] at hp

omit [Hashing] in
theorem mem_retain {m : NewMemory} {closed : List AlreadyClosed} {id : MemoryId} :
    id ∈ (m.retain closed).supersedes ↔ id ∈ m.supersedes ∧ ∀ c ∈ closed, c.id ≠ id := by
  simp [NewMemory.retain]

/-- An attempt that goes through: its targets exist in the space, and what the transaction
wrote is what it reports. -/
theorem insertBatchOnce_ok {clock : Clock} {out : BatchOutcome} (hw : db.WellFormed)
    (h : insertBatchOnce db batch clock = .ok (db', out)) :
    InSpace db.memory batch.space batch.targets ∧
      out.alreadyClosed = closedMemories db batch.space batch.targets ∧
      batchTransaction db (batch.retain out.alreadyClosed) clock =
        .ok (db', out.episode, out.memories) ∧
      ∃ db₁, Aside db db₁ ∧ WroteAll batch.space db₁
        ((batch.retain out.alreadyClosed).binds clock) out.memories db' := by
  obtain ⟨hex, hclosed, htx, -⟩ := insertBatchOnce_eq_ok h
  have hs := ensureMemoriesExist_ok.mp hex
  refine ⟨hs, hclosed, htx, batchTransaction_ok (fun m hm id hid => ?_) htx⟩
  obtain ⟨m₀, hm₀, rfl⟩ := List.mem_map.mp hm
  obtain ⟨r, hr, rfl, -⟩ := hs id (List.mem_flatMap.mpr ⟨m₀, hm₀, (mem_retain.mp hid).1⟩)
  exact hw.memory r hr

theorem insertBatchFrom_ok {clock : ℕ → Clock} {out : BatchOutcome} {k left : ℕ}
    (h : insertBatchFrom db batch clock k left = .ok (db', out)) :
    ∃ j, k ≤ j ∧ j ≤ k + left ∧ insertBatchOnce db batch (clock j) = .ok (db', out) := by
  induction left generalizing k with
  | zero => exact ⟨k, le_rfl, le_rfl, h⟩
  | succ left ih =>
    unfold insertBatchFrom at h
    split at h
    · split_ifs at h
      obtain ⟨j, hk, hj, hok⟩ := ih h
      exact ⟨j, by omega, by omega, hok⟩
    · exact ⟨k, le_rfl, Nat.le_add_right _ _, h⟩

/-- A batch lands on one of its three attempts. -/
theorem insertBatch_ok {clock : ℕ → Clock} {out : BatchOutcome}
    (h : insertBatch db batch clock = .ok (db', out)) :
    ∃ k < 3, insertBatchOnce db batch (clock k) = .ok (db', out) := by
  obtain ⟨j, -, hj, hok⟩ := insertBatchFrom_ok h
  exact ⟨j, by omega, hok⟩

omit [Hashing] in
theorem Aside.kept {db db₁ : Db} (h : Aside db db₁) : Kept db db₁ :=
  fun r hr => ⟨r, h.memory ▸ hr, .refl r⟩

theorem retain_inSpace {closed : List AlreadyClosed} {clock : Clock}
    (h : InSpace db.memory batch.space batch.targets) :
    ∀ b ∈ (batch.retain closed).binds clock, InSpace db.memory batch.space b.old := by
  intro b hb id hid
  obtain ⟨-, m, hm, -, hold⟩ := Batch.mem_binds hb
  obtain ⟨m₀, hm₀, rfl⟩ := List.mem_map.mp hm
  exact h id (List.mem_flatMap.mpr ⟨m₀, hm₀, (mem_retain.mp (hold ▸ hid)).1⟩)

theorem insertBatch_changes {clock : ℕ → Clock} {out : BatchOutcome} (hw : db.WellFormed)
    (hb : links .block) (h : insertBatch db batch clock = .ok (db', out)) :
    ReflTransGen (Change links) db db' := by
  obtain ⟨k, -, hok⟩ := insertBatch_ok h
  obtain ⟨hs, -, -, db₁, ha, hall⟩ := insertBatchOnce_ok hw hok
  refine .head (.aside ha) (hall.changes hb (fun b hb => (Batch.mem_binds hb).1) fun b hb => ?_)
  exact (retain_inSpace hs b hb).kept ha.kept

end Batch

/-! ### The other writers -/

theorem ensureSpace_ok {space : SpaceName} {now : Timestamp}
    (h : ensureSpace db space now = .ok db') : Aside db db' := by
  unfold ensureSpace at h
  split at h
  · cases h
    exact ⟨rfl, rfl, le_rfl, fun e he => .inl he, fun c hc => .inl hc⟩
  · split at h
    · cases h
      exact ⟨rfl, rfl, le_rfl, fun e he => .inl he, fun c hc => .inl hc⟩
    · cases h

theorem closedMemories_eq_nil {space : SpaceName} {ids : List MemoryId} :
    closedMemories db space ids = [] ↔
      ∀ r ∈ db.memory, r.space = space → r.id ∈ ids → r.isLive = true := by
  unfold closedMemories
  rw [List.map_eq_nil_iff, List.filter_eq_nil_iff]
  refine forall₂_congr fun r _ => ?_
  simp only [Bool.and_eq_true, decide_eq_true_eq, Bool.not_eq_true', not_and, and_imp,
    Bool.not_eq_false]

/-- A standalone supersede closes one open row in favour of a stored row of its space. -/
theorem supersede_ok {space : SpaceName} {old new : MemoryId}
    (h : supersede db space old new = .ok db') :
    ∃ o ∈ db.memory, ∃ n ∈ db.memory, o.id = old ∧ n.id = new ∧ o.space = space ∧
      n.space = space ∧ o.isLive = true ∧ ∃ t : Table MemoryRecord,
        t.rows = db.memory.rows.map (closing [o.id] n.id n.validFrom) ∧
        db' = { db with memory := t } := by
  unfold supersede at h
  split at h
  · cases h
  · next hex =>
    have hs := ensureMemoriesExist_ok.mp hex
    obtain ⟨o, ho, rfl, hos⟩ := hs old (by simp)
    obtain ⟨n, hn, rfl, hns⟩ := hs new (by simp)
    split at h
    · cases h
    · split at h
      · cases h
      · next htx =>
        cases h
        unfold supersedeTransaction at htx
        have hg : db.memory.get? n.id = some n := Table.get?_eq_some.mpr ⟨hn, rfl⟩
        simp only [hg] at htx
        split at htx
        · cases htx
        · next t done hu =>
          split_ifs at htx with hlen
          cases htx
          have hc := closes_supersededBy n.id n.validFrom
          obtain ⟨hle, hiff⟩ := hc.oneShot.length _ _ _ _ hu
          have hlen' : done.length = [o.id].length := by
            simp only [List.length_singleton] at hle ⊢
            omega
          obtain ⟨-, hopen⟩ := hiff.mp hlen'
          obtain ⟨q, hq, hqk, hql⟩ := hopen o.id (List.mem_singleton_self _)
          rw [Table.eq_of_key hq ho hqk] at hql
          exact ⟨o, ho, n, hn, rfl, rfl, hos, hns, hql, t, hc.oneShot.rows _ _ _ _ hu, rfl⟩

theorem rows_of_update {p : MemoryRecord → Bool} {f : MemoryRecord → MemoryRecord}
    {at_ : MemoryRecord → Timestamp} (hc : Closes p f at_) {ids : List MemoryId}
    {t : Table MemoryRecord} {rs : List MemoryRecord}
    (h : db.memory.update? p f ids = some (t, rs)) :
    t.rows = db.memory.rows.map fun r =>
      if (p r && decide (r.id ∈ ids)) = true then f r else r := by
  rw [hc.oneShot.rows _ _ _ _ h]
  simp [Bool.and_eq_true]

theorem forgetSoft_changes {request : Forget} {now : MemoryId → Timestamp} {out : Forgotten}
    (h : forgetSoft db request now = .ok (db', out)) : ReflTransGen (Change links) db db' := by
  obtain ⟨t, closed, hu, rfl⟩ := forgetSoft_eq_ok h
  have hp : ∀ r : MemoryRecord, (decide (r.space ∈ request.spaces) && r.isLive) = true →
      r.isLive = true := fun r hr => (Bool.and_eq_true_iff.mp hr).2
  refine .single (.retire _ .forgotten now (fun r hr => ?_)
    (rows_of_update (closes_closedAs hp .forgotten now) hu))
  exact hp r (Bool.and_eq_true_iff.mp hr).1

/-- A purge drops chunks and episodes aside, then erases the memories it named in its spaces. -/
theorem forgetPurge_changes (db : Db) (request : Forget) :
    ∃ db₁, Change links db db₁ ∧ Erased db₁ (forgetPurge db request).1 := by
  refine ⟨{ db with
    episodeChunk := db.episodeChunk.delete _, episode := (db.episode.deleteKeys _ _).1 },
    .aside ⟨rfl, rfl, le_rfl, fun e he => .inl (Table.mem_deleteKeys.mp he).1,
      fun c hc => .inl (Table.mem_delete.mp hc).1⟩, _, fun r hr => ?_, rfl⟩
  exact (Table.mem_deleteKeys.mp hr).1

theorem pruneExpired_changes {horizon : ℚ} {asked now : MemoryId → Timestamp}
    {out : List MemoryId} (h : pruneExpired db horizon asked now = .ok (db', out)) :
    ReflTransGen (Change links) db db' := by
  unfold pruneExpired at h
  split at h
  · cases h
  · next t closed hu =>
    simp only [Except.ok.injEq, Prod.mk.injEq] at h
    obtain ⟨rfl, -⟩ := h
    have hp : ∀ r : MemoryRecord, (decide (r.decayClass = PRUNE_CLASS) && r.isLive &&
        decide (r.lastAccessed + rowHorizon horizon r < asked r.id)) = true → r.isLive = true :=
      fun r hr => (Bool.and_eq_true_iff.mp (Bool.and_eq_true_iff.mp hr).1).2
    refine .single (.retire _ .expired now (fun r hr => ?_)
      (rows_of_update (closes_closedAs hp .expired now) hu))
    exact hp r (Bool.and_eq_true_iff.mp hr).1

theorem reinforce_changes {ids : List MemoryId} {now : MemoryId → Timestamp} {n : ℕ}
    (h : reinforce db ids now = .ok (db', n)) : ReflTransGen (Change links) db db' := by
  unfold reinforce at h
  split at h
  · cases h
  · next t touched hu =>
    simp only [Except.ok.injEq, Prod.mk.injEq] at h
    obtain ⟨rfl, -⟩ := h
    obtain ⟨g, hg, hR⟩ := Table.update?_map
      (R := fun r r' : MemoryRecord => r' = { r with
        strength := r'.strength, lastAccessed := r'.lastAccessed, accessCount := r'.accessCount })
      (fun r => rfl) (fun r q s hq hs => by rw [hs, hq]) (fun r _ => rfl) _ _ _ _ hu
    exact .single (.touch g hg hR)

/-! ### Operations and runs -/

/-- What a caller may ask of the store, with the readings of the clock it will meet. -/
inductive Op where
  | insertBatch (batch : Batch) (clock : ℕ → Clock)
  | supersede (space : SpaceName) (old new : MemoryId)
  | forget (request : Forget) (now : MemoryId → Timestamp)
  | pruneExpired (horizon : ℚ) (asked now : MemoryId → Timestamp)
  | reinforce (ids : List MemoryId) (now : MemoryId → Timestamp)
  | ensureSpace (space : SpaceName) (now : Timestamp)

variable [Hashing]

def Op.run (db : Db) : Op → Except StoreError Db
  | .insertBatch batch clock => (Store.insertBatch db batch clock).map Prod.fst
  | .supersede space old new => Store.supersede db space old new
  | .forget request now => (Store.forget db request now).map Prod.fst
  | .pruneExpired horizon asked now => (Store.pruneExpired db horizon asked now).map Prod.fst
  | .reinforce ids now => (Store.reinforce db ids now).map Prod.fst
  | .ensureSpace space now => Store.ensureSpace db space now

def step (db : Db) (op : Op) : Option Db := (op.run db).toOption

/-- A database some run of operations leaves, starting from an empty store. -/
def Db.Reachable (db : Db) : Prop :=
  ∃ dimension, Transition.Reachable step (Db.empty dimension) db

theorem step_eq_some {op : Op} : step db op = some db' ↔ op.run db = .ok db' := by
  unfold step
  cases op.run db <;> simp [Except.toOption]

omit [Hashing] in
theorem map_fst_ok {ε α β : Type} {x : Except ε (α × β)} {a : α} :
    x.map Prod.fst = .ok a ↔ ∃ b, x = .ok (a, b) := by
  cases x with
  | error e => simp [Except.map]
  | ok p => obtain ⟨a', b⟩ := p; simp [Except.map]

omit [Hashing] in
/-- Whether an operation deletes rows. -/
def Op.Purges : Op → Prop
  | .forget request _ => request.purge = true
  | _ => False

omit [Hashing] in
/-- The ways in which an operation links rows. -/
def Op.Links : Op → Linking → Prop
  | .insertBatch _ _, .block => True
  | .supersede _ _ _, .standalone => True
  | _, _ => False

/-- An operation that goes through is a sequence of changes, after which a purge erases. -/
theorem step_changes {op : Op} (hw : db.WellFormed) (h : step db op = some db') :
    ∃ db₁, ReflTransGen (Change op.Links) db db₁ ∧
      (db' = db₁ ∨ op.Purges ∧ Erased db₁ db') := by
  rw [step_eq_some] at h
  cases op with
  | insertBatch batch clock =>
    obtain ⟨out, h⟩ := map_fst_ok.mp h
    exact ⟨_, insertBatch_changes hw trivial h, .inl rfl⟩
  | supersede space old new =>
    obtain ⟨o, ho, n, hn, -, -, hos, hns, hl, t, ht, rfl⟩ := supersede_ok h
    exact ⟨_, .single (.supersede trivial ho hn (hos.trans hns.symm) hl ht), .inl rfl⟩
  | forget request now =>
    obtain ⟨out, h⟩ := map_fst_ok.mp h
    unfold Store.forget at h
    split_ifs at h with hp
    · simp only [Except.ok.injEq] at h
      obtain ⟨db₁, hc, he⟩ := forgetPurge_changes db request
      rw [h] at he
      exact ⟨db₁, .single hc, .inr ⟨hp, he⟩⟩
    · exact ⟨_, forgetSoft_changes h, .inl rfl⟩
  | pruneExpired horizon asked now =>
    obtain ⟨out, h⟩ := map_fst_ok.mp h
    exact ⟨_, pruneExpired_changes h, .inl rfl⟩
  | reinforce ids now =>
    obtain ⟨n, h⟩ := map_fst_ok.mp h
    exact ⟨_, reinforce_changes h, .inl rfl⟩
  | ensureSpace space now => exact ⟨_, .single (.aside (ensureSpace_ok h)), .inl rfl⟩

/-- What every change of a well-formed database keeps, and erasing rows keeps, every operation
keeps. -/
theorem step_keeps {I : Db → Prop}
    (hc : ∀ s db db', Change s db db' → db.WellFormed → I db → I db')
    (he : ∀ db db', Erased db db' → db.WellFormed → I db → I db') {op : Op}
    (h : step db op = some db') (hw : db.WellFormed) (hi : I db) : db'.WellFormed ∧ I db' := by
  obtain ⟨db₁, hch, hend⟩ := step_changes hw h
  have h₁ : db₁.WellFormed ∧ I db₁ := by
    clear hend
    induction hch with
    | refl => exact ⟨hw, hi⟩
    | tail _ hc' ih => exact ⟨hc'.wellFormed ih.1, hc _ _ _ hc' ih.1 ih.2⟩
  rcases hend with rfl | ⟨-, he'⟩
  · exact h₁
  · exact ⟨he'.wellFormed h₁.1, he _ _ he' h₁.1 h₁.2⟩

omit [Hashing] in
theorem grown_of_changes (h : ReflTransGen (Change links) db db') : Grown db db' := by
  induction h with
  | refl => exact .refl db
  | tail _ hc ih => exact ih.trans hc.grown

theorem step_wellFormed {op : Op} (h : step db op = some db') (hw : db.WellFormed) :
    db'.WellFormed :=
  (step_keeps (I := fun _ => True) (fun _ _ _ _ _ _ => trivial) (fun _ _ _ _ _ => trivial) h hw
    trivial).1

theorem step_grown {op : Op} (h : step db op = some db') (hw : db.WellFormed) : Grown db db' := by
  obtain ⟨db₁, hch, rfl | ⟨-, he⟩⟩ := step_changes hw h
  · exact grown_of_changes hch
  · exact (grown_of_changes hch).trans he.grown

theorem Db.Reachable.wellFormed (h : db.Reachable) : db.WellFormed := by
  obtain ⟨dimension, h⟩ := h
  exact h.invariant (fun _ _ _ hs hw => step_wellFormed hs hw) (wellFormed_empty dimension)

/-- A property of the empty store that changes and erasing keep holds of every reachable one. -/
theorem Db.Reachable.of_changes {I : Db → Prop} (h₀ : ∀ dimension, I (Db.empty dimension))
    (hc : ∀ s db db', Change s db db' → db.WellFormed → I db → I db')
    (he : ∀ db db', Erased db db' → db.WellFormed → I db → I db') (h : db.Reachable) :
    I db := by
  obtain ⟨dimension, h⟩ := h
  let Both (db : Db) : Prop := db.WellFormed ∧ I db
  have hboth : ∀ s op t, step s op = some t → Both s → Both t :=
    fun s op t hs hi => step_keeps hc he hs hi.1 hi.2
  exact (h.invariant hboth ⟨wellFormed_empty dimension, h₀ dimension⟩).2

/-! ### Small scripts -/

/-- Lower-casing as on ASCII, and a hash without collisions. -/
abbrev plain : Hashing := ⟨List.map Char.toLower, id⟩

/-- The space, the writer and the clock of the scripts. -/
def agmem : SpaceName := ⟨['a', 'g', 'm', 'e', 'm'], by decide⟩

def agent : Writer := ⟨['c', 'l', 'i'], none, ['s', '1'], ['r', 'e', 'm', 'e', 'm', 'b', 'e', 'r']⟩

def ticking (start : Timestamp) : ℕ → Clock := fun k =>
  ⟨fun i => start + 100 * k + i, start, fun i => start + 100 * k + i⟩

/-- A one-letter claim, in place of the rows with the given numbers. -/
def claim (letter : Char) (supersedes : List ℕ) (validFrom : Option Timestamp) : NewMemory :=
  { NewMemory.new .fact [letter] with
    supersedes := supersedes.map MemoryId.mk, validFrom := validFrom }

def batchOf (memories : List NewMemory) : Batch := ⟨agmem, none, memories, agent⟩

def failsWith {α : Type} (e : StoreError) : Except StoreError α → Bool
  | .error e' => decide (e' = e)
  | .ok _ => false

omit [Hashing] in
theorem eq_error_of_failsWith {α : Type} {e : StoreError} {x : Except StoreError α}
    (h : failsWith e x = true) : x = .error e := by
  cases x with
  | error e' => rw [of_decide_eq_true h]
  | ok a => cases h

def succeedsWith {ε α : Type} (p : α → Bool) : Except ε α → Bool
  | .ok a => p a
  | .error _ => false

omit [Hashing] in
theorem exists_of_succeedsWith {ε α : Type} {p : α → Bool} {x : Except ε α}
    (h : succeedsWith p x = true) : ∃ a, x = .ok a ∧ p a = true := by
  cases x with
  | error e => cases h
  | ok a => exact ⟨a, rfl, h⟩

/-- A `remember` call at an instant. -/
def remember (start : Timestamp) (memories : List NewMemory) : Op :=
  .insertBatch (batchOf memories) (ticking start)

end Agmem.Store
