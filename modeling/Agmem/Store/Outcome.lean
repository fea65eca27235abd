import Agmem.Store.Landing
import Agmem.Store.Rows

/-! What a batch reports. The outcome lists the rows that the batch closed, the targets that were
closed before it, and one entry for each memory: the entry of a memory names the row that holds its
content once the memories before it took effect, and that row is new exactly if the entry says so.
-/

namespace Agmem.Store.Outcome

open Core Relational Transition Landing

variable {db db' : Db} {space : SpaceName}

/-! ### Moments -/

/-- The memories before a position. -/
def upTo (batch : Batch) (i : ℕ) : Batch := { batch with memories := batch.memories.take i }

section

variable [Hashing]

/-- The store once the memories before a position took effect. -/
def moment (db : Db) (batch : Batch) (clock : Clock) (i : ℕ) : Except EngineError Db :=
  (batchTransaction db (upTo (batch.retain (closedMemories db batch.space batch.targets)) i)
    clock).map Prod.fst

/-- The open row of a space that holds a content. -/
def Carries (db : Db) (space : SpaceName) (content : Text) (id : MemoryId) : Prop :=
  ∃ r ∈ db.memory, r.id = id ∧ r.space = space ∧ r.isLive = true ∧
    contentHash r.content = contentHash content

/-- An entry of the outcome, between the moments before and after its memory. -/
structure EntryRight (before after : Db) (space : SpaceName) (content : Text)
    (w : Written MemoryId) : Prop where
  carries : Carries after space content w.id
  found : ∀ id, w = .duplicate id ↔ Carries before space content id
  made : w.isCreated = true ↔ ∀ r ∈ before.memory, r.id ≠ w.id

/-- The hash stands for the normal form where it has no collisions. -/
theorem Carries.normalize {content : Text} {id : MemoryId} (h : Carries db space content id)
    (hinj : Function.Injective Hashing.blake3) :
    ∃ r ∈ db.memory, r.id = id ∧ Core.normalize r.content = Core.normalize content := by
  obtain ⟨r, hr, hid, -, -, hcontent⟩ := h
  exact ⟨r, hr, hid, hinj hcontent⟩

end

def LiveIn (db : Db) (id : MemoryId) : Prop := ∃ r ∈ db.memory, r.id = id ∧ r.isLive = true

def ClosedIn (db : Db) (id : MemoryId) : Prop := ∃ r ∈ db.memory, r.id = id ∧ r.isLive = false

/-- What the outcome of a batch says of the store before it and the store after it. -/
structure Accurate [Hashing] (db : Db) (batch : Batch) (clock : Clock) (db' : Db)
    (out : BatchOutcome) : Prop where
  superseded : ∀ id, id ∈ out.superseded ↔ LiveIn db id ∧ ClosedIn db' id
  /-- No row is made and closed by the same batch. -/
  stored : ∀ id, ClosedIn db' id → LiveIn db id ∨ ClosedIn db id
  alreadyClosed : ∀ c, c ∈ out.alreadyClosed ↔ ∃ r ∈ db.memory, r.id ∈ batch.targets ∧
    r.isLive = false ∧ c = ⟨r.id, r.invalidReason, r.supersededBy⟩
  length : out.memories.length = batch.memories.length
  last : moment db batch clock batch.memories.length = .ok db'
  entries : ∀ i m w, batch.memories[i]? = some m → out.memories[i]? = some w →
    ∃ before after, moment db batch clock i = .ok before ∧
      moment db batch clock (i + 1) = .ok after ∧
      EntryRight before after batch.space m.content w ∧
      (Function.Injective Hashing.blake3 →
        ∃ r ∈ after.memory, r.id = w.id ∧ Core.normalize r.content = Core.normalize m.content)

/-! ### What is closed -/

/-- The targets that a block closes. -/
def closedBy (m : MemoryBinds) : Written MemoryId → List MemoryId
  | .created _ => m.old
  | .duplicate dup => complement m.old [dup]

theorem closedIn_closing {T : List MemoryId} (new : MemoryId) (boundary : Timestamp)
    {id : MemoryId} (hopen : Open db.memory T) :
    (∃ r ∈ db.memory, (closing T new boundary r).id = id ∧
      (closing T new boundary r).isLive = false) ↔ ClosedIn db id ∨ id ∈ T := by
  simp only [closing_id, ← Bool.not_eq_true, closing_isLive, not_and, not_not]
  constructor
  · rintro ⟨r, hr, rfl, h⟩
    by_cases hl : r.isLive = true
    · exact .inr (h hl)
    · exact .inl ⟨r, hr, rfl, (Bool.not_eq_true _).mp hl⟩
  · rintro (⟨r, hr, rfl, hl⟩ | hid)
    · exact ⟨r, hr, rfl, fun h => by rw [hl] at h; cases h⟩
    · obtain ⟨r, hr, rfl, -⟩ := hopen id hid
      exact ⟨r, hr, rfl, fun _ => hid⟩

theorem closedIn_block {m : MemoryBinds} {w : Written MemoryId} (h : Wrote space m db w db')
    (id : MemoryId) : ClosedIn db' id ↔ ClosedIn db id ∨ id ∈ closedBy m w := by
  cases h with
  | created _ _ _ _ _ targets _ rows =>
    refine Iff.trans ?_ (closedIn_closing ⟨db.minted⟩ m.row.validFrom targets)
    constructor
    · rintro ⟨r', hr', hid, hl⟩
      rcases (mem_of_rows_map_append rows).mp hr' with ⟨r, hr, rfl⟩ | rfl
      · exact ⟨r, hr, hid, hl⟩
      · cases hl
    · rintro ⟨r, hr, h⟩
      exact ⟨_, (mem_of_rows_map_append rows).mpr (.inl ⟨r, hr, rfl⟩), h⟩
  | @duplicate dup _ _ _ _ _ _ targets _ rows =>
    refine Iff.trans ?_ (closedIn_closing dup.id m.row.validFrom targets)
    constructor
    · rintro ⟨r', hr', h⟩
      obtain ⟨r, hr, rfl⟩ := (mem_of_rows_map rows).mp hr'
      exact ⟨r, hr, h⟩
    · rintro ⟨r, hr, h⟩
      exact ⟨_, (mem_of_rows_map rows).mpr ⟨r, hr, rfl⟩, h⟩

theorem closedIn_blocks {ms : List MemoryBinds} {ws : List (Written MemoryId)}
    (h : WroteAll space db ms ws db') (id : MemoryId) :
    ClosedIn db' id ↔ ClosedIn db id ∨ id ∈ (List.zipWith closedBy ms ws).flatten := by
  induction h with
  | nil db => simp
  | cons h _ ih =>
    rw [ih, closedIn_block h, List.zipWith_cons_cons, List.flatten_cons, List.mem_append, or_assoc]

/-- The targets that were closed before, when each is a row of the space. -/
theorem mem_alreadyClosed {ids : List MemoryId} (hin : InSpace db.memory space ids)
    {c : AlreadyClosed} : c ∈ closedMemories db space ids ↔ ∃ r ∈ db.memory, r.id ∈ ids ∧
      r.isLive = false ∧ c = ⟨r.id, r.invalidReason, r.supersededBy⟩ := by
  rw [closedMemories, List.mem_map]
  constructor
  · rintro ⟨r, hr, rfl⟩
    obtain ⟨hr, hp⟩ := List.mem_filter.mp hr
    obtain ⟨hid, hl⟩ := Bool.and_eq_true_iff.mp hp
    exact ⟨r, hr, (of_decide_eq_true hid).2, by simpa using hl, rfl⟩
  · rintro ⟨r, hr, hid, hl, rfl⟩
    obtain ⟨q, hq, hqid, hs⟩ := hin r.id hid
    obtain rfl : q = r := Table.eq_of_key hq hr hqid
    exact ⟨q, List.mem_filter.mpr ⟨hr, by simp [hs, hid, hl]⟩, rfl⟩

/-- The blocks close what is open. -/
theorem liveIn_of_closedBy {ms : List MemoryBinds} {ws : List (Written MemoryId)} {id : MemoryId}
    (hopen : ∀ b ∈ ms, Open db.memory b.old) (hid : id ∈ (List.zipWith closedBy ms ws).flatten) :
    LiveIn db id := by
  obtain ⟨ids, hids, hid⟩ := List.mem_flatten.mp hid
  obtain ⟨i, hi, rfl⟩ := List.mem_iff_getElem.mp hids
  rw [List.length_zipWith, lt_min_iff] at hi
  rw [List.getElem_zipWith] at hid
  refine hopen _ (List.getElem_mem hi.1) id ?_
  cases hw : ws[i] with
  | created new => rwa [hw] at hid
  | duplicate dup =>
    rw [hw] at hid
    exact (mem_complement.mp hid).1

theorem LiveIn.not_closedIn {id : MemoryId} (h : LiveIn db id) : ¬ ClosedIn db id := by
  obtain ⟨r, hr, hid, hlive⟩ := h
  rintro ⟨q, hq, hqid, hclosed⟩
  rw [Table.eq_of_key hq hr (hqid.trans hid.symm), hlive] at hclosed
  cases hclosed

/-! ### Block after block -/

theorem writeMemories_prefix {episode : Option EpisodeId} {now : ℕ → Timestamp}
    {ms ns : List MemoryBinds} {ws : List (Written MemoryId)} {i : ℕ}
    (h : writeMemories space episode now i db (ms ++ ns) = .ok (db', ws)) :
    ∃ db₁, writeMemories space episode now i db ms = .ok (db₁, ws.take ms.length) ∧
      writeMemories space episode now (i + ms.length) db₁ ns = .ok (db', ws.drop ms.length) := by
  induction ms generalizing db ws i with
  | nil => exact ⟨db, rfl, h⟩
  | cons m ms ih =>
    rw [List.cons_append] at h
    obtain ⟨db₁, w, ws₁, hw, hws, rfl⟩ := writeMemories_cons_ok h
    obtain ⟨db₃, hfirst, hrest⟩ := ih hws
    refine ⟨db₃, ?_, ?_⟩
    · unfold writeMemories
      rw [hw]
      dsimp only
      rw [hfirst]
      rfl
    · rw [List.length_cons, ← Nat.add_assoc, Nat.add_right_comm]
      exact hrest

theorem length_take_of_getElem? {α : Type} {l : List α} {i : ℕ} {a : α} (hi : l[i]? = some a) :
    (l.take i).length = i :=
  List.length_take_of_le (List.getElem?_eq_some_iff.mp hi).1.le

theorem take_of_getElem? {α : Type} {l : List α} {i : ℕ} {a : α} (hi : l[i]? = some a) :
    l.take (i + 1) = l.take i ++ [a] := by
  rw [List.take_add_one, hi]
  rfl

variable [Hashing] {batch : Batch} {clock : Clock}

/-- A transaction writes its episode, and then the blocks of its memories. -/
theorem batchTransaction_start {ep : Option (Written EpisodeId)} {ws : List (Written MemoryId)}
    (h : batchTransaction db batch clock = .ok (db', ep, ws)) :
    ∃ db₁ id, Aside db db₁ ∧ ∀ memories : List NewMemory,
      batchTransaction db { batch with memories := memories } clock =
        (writeMemories batch.space id clock.engine 0 db₁
          (memories.mapIdx (bindMemory batch clock))).map fun u => (u.1, ep, u.2) := by
  have hbind (memories : List NewMemory) :
      bindMemory { batch with memories := memories } clock = bindMemory batch clock := rfl
  have hparts := batchTransaction_eq_ok h
  unfold batchTransaction
  simp only [hbind]
  rcases hparts with ⟨he, rfl, -⟩ | ⟨e, db₁, ep₁, he, hep, rfl, -⟩
  · refine ⟨db, none, ⟨rfl, rfl, le_rfl, fun _ h => .inl h, fun _ h => .inl h⟩, fun ms => ?_⟩
    rw [he]
    dsimp only
    cases writeMemories batch.space none clock.engine 0 db (ms.mapIdx (bindMemory batch clock)) <;>
      rfl
  · refine ⟨db₁, some ep₁.id, writeEpisode_ok hep, fun ms => ?_⟩
    rw [he]
    dsimp only
    rw [hep]
    dsimp only
    cases writeMemories batch.space (some ep₁.id) clock.engine 0 db₁
      (ms.mapIdx (bindMemory batch clock)) <;> rfl

omit [Hashing] in
theorem map_eq_ok {ε α β : Type} {f : α → β} {x : Except ε α} {b : β} (h : x.map f = .ok b) :
    ∃ a, x = .ok a ∧ f a = b := by
  cases x with
  | error e => cases h
  | ok a => exact ⟨a, rfl, Except.ok.inj h⟩

/-- The blocks before a memory, its own, and those after it. -/
theorem mapIdx_split {i : ℕ} {m : NewMemory} (hi : batch.memories[i]? = some m) :
    batch.memories.mapIdx (bindMemory batch clock) =
      (batch.memories.take i).mapIdx (bindMemory batch clock) ++
        bindMemory batch clock i m :: (batch.memories.drop (i + 1)).mapIdx
          fun j => bindMemory batch clock (j + (i + 1)) := by
  conv_lhs => rw [← List.take_append_drop (i + 1) batch.memories, take_of_getElem? hi]
  rw [List.append_assoc, List.mapIdx_append, length_take_of_getElem? hi, List.singleton_append,
    List.mapIdx_cons, Nat.zero_add]
  simp only [Nat.add_right_comm, Nat.add_assoc]

/-- A transaction that goes through does so up to any of its memories, with the entries up to it,
and the memory after those adds its own block and its own entry. -/
theorem batchTransaction_at (hold : ∀ m ∈ batch.memories, ∀ id ∈ m.supersedes, id.ulid < db.minted)
    {ep : Option (Written EpisodeId)} {ws : List (Written MemoryId)}
    (h : batchTransaction db batch clock = .ok (db', ep, ws)) {i : ℕ} {m : NewMemory}
    (hi : batch.memories[i]? = some m) {w : Written MemoryId} (hw : ws[i]? = some w) :
    ∃ db₁ before after ws₁ ws₂, Aside db db₁ ∧
      batchTransaction db (upTo batch i) clock = .ok (before, ep, ws₁) ∧
      batchTransaction db (upTo batch (i + 1)) clock = .ok (after, ep, ws₂) ∧
      WroteAll batch.space db₁ ((upTo batch i).binds clock) ws₁ before ∧
      Wrote batch.space (bindMemory batch clock i m) before w after := by
  obtain ⟨db₁, id, ha, hstart⟩ := batchTransaction_start h
  have hmin := length_take_of_getElem? hi
  have hnext := take_of_getElem? hi
  have hold₁ : ∀ b ∈ batch.binds clock, ∀ id ∈ b.old, id.ulid < db₁.minted := by
    intro b hb id hid
    obtain ⟨-, m, hm, -, hold'⟩ := Batch.mem_binds hb
    exact (hold m hm id (hold' ▸ hid)).trans_le ha.minted
  obtain ⟨⟨db₂, ws₃⟩, hwrote, he⟩ := map_eq_ok ((hstart batch.memories).symm.trans h)
  cases he
  have hbinds := @mapIdx_split _ batch clock i m hi
  rw [hbinds] at hwrote
  obtain ⟨before, hfirst, hrest⟩ := writeMemories_prefix hwrote
  rw [List.length_mapIdx, hmin] at hfirst hrest
  obtain ⟨after, w', ws₄, hblock, -, hentries⟩ := writeMemories_cons_ok hrest
  have hentry : w' = w := by
    have h₀ := congrArg List.head? hentries
    rw [List.head?_drop, hw] at h₀
    exact (Option.some.inj h₀).symm
  have hlater : writeMemories batch.space id clock.engine 0 db₁
      ((batch.memories.take (i + 1)).mapIdx (bindMemory batch clock)) =
        .ok (after, ws₃.take i ++ [w]) := by
    rw [hnext, List.mapIdx_concat, writeMemories_concat, hfirst, hmin, List.length_mapIdx, hmin]
    simp only [Except.bind, hblock, Except.map, hentry]
  have hpre : WroteAll batch.space db₁ ((upTo batch i).binds clock) (ws₃.take i) before := by
    refine writeMemories_ok (fun b hb => hold₁ b ?_) hfirst
    rw [Batch.binds, hbinds]
    exact List.mem_append_left _ hb
  refine ⟨db₁, before, after, ws₃.take i, ws₃.take i ++ [w], ha, ?_, ?_, hpre, ?_⟩
  · exact (hstart (batch.memories.take i)).trans (by rw [hfirst]; rfl)
  · exact (hstart (batch.memories.take (i + 1))).trans (by rw [hlater]; rfl)
  · refine writeMemory_ok (fun id hid => ?_) (hentry ▸ hblock)
    have hmem : bindMemory batch clock i m ∈ batch.binds clock := by
      rw [Batch.binds, hbinds]
      exact List.mem_append_right _ List.mem_cons_self
    exact (hold₁ _ hmem id hid).trans_le hpre.grown.1.minted

/-! ### The outcome -/

/-- A block and its entry, on a table whose hashes are those of the contents. -/
theorem entryRight {before after : Db} {b : MemoryBinds} {content : Text} {w : Written MemoryId}
    (hwf : before.WellFormed)
    (hhash : ∀ r ∈ before.memory, r.contentHash = contentHash r.content)
    (hspace : b.row.space = space) (hcontent : b.row.content = content)
    (hb : b.hash = contentHash content) (h : Wrote space b before w after) :
    EntryRight before after space content w := by
  cases h with
  | created source now _ holder _ _ _ rows =>
    refine ⟨?_, fun id => ⟨fun h => ?_, ?_⟩, iff_of_true rfl fun r hr hid => ?_⟩
    · refine ⟨_, (mem_of_rows_map_append rows).mpr (.inr rfl), rfl, hspace, rfl, ?_⟩
      exact congrArg contentHash hcontent
    · cases h
    · rintro ⟨r, hr, -, hs, hl, hc⟩
      rw [holder r hr hs ((hhash r hr).trans (hc.trans hb.symm))] at hl
      cases hl
    · exact absurd (hwf.memory r hr) (by rw [hid]; exact lt_irrefl _)
  | @duplicate dup _ mem inSpace hash live _ _ _ rows =>
    have hsame := (hhash dup mem).symm.trans (hash.trans hb)
    refine ⟨?_, fun id => ⟨?_, ?_⟩, iff_of_false (fun h => by cases h) fun h => h dup mem rfl⟩
    · refine ⟨_, (mem_of_rows_map rows).mpr ⟨dup, mem, rfl⟩, closing_id, ?_, ?_, ?_⟩
      · rw [closing_space, inSpace]
      · refine closing_isLive.mpr ⟨live, fun hid => ?_⟩
        exact (mem_complement.mp hid).2 (List.mem_singleton_self _)
      · rw [(Evolves.closing _ _ _ dup).content, hsame]
    · intro h
      cases h
      exact ⟨dup, mem, rfl, inSpace, live, hsame⟩
    · rintro ⟨r, hr, rfl, hs, hl, hc⟩
      have hclaim := (hhash r hr).trans (hc.trans (hsame.symm.trans (hhash dup mem).symm))
      rw [live_unique hr mem hl live (hs.trans inSpace.symm) hclaim]

theorem insertBatchOnce_superseded {out : BatchOutcome}
    (h : insertBatchOnce db batch clock = .ok (db', out)) :
    out.superseded = (List.zipWith closedTargets (batch.retain out.alreadyClosed).memories
      out.memories).flatten :=
  (insertBatchOnce_eq_ok h).2.2.2

/-- What the outcome takes for closed are the targets that the blocks close. -/
theorem zipWith_closedTargets (batch : Batch) (clock : Clock) (ws : List (Written MemoryId)) :
    List.zipWith closedTargets batch.memories ws =
      List.zipWith closedBy (batch.binds clock) ws := by
  refine List.ext_getElem (by simp [Batch.binds]) fun i h₁ h₂ => ?_
  have hlen : i < ws.length := (List.length_zipWith ▸ h₁).trans_le (Nat.min_le_right ..)
  rw [List.getElem_zipWith, List.getElem_zipWith]
  cases ws[i] with
  | created id => simp [Batch.binds, closedTargets, closedBy, bindMemory]
  | duplicate id => simp [Batch.binds, closedTargets, closedBy, bindMemory, complement]

/-- The blocks of a batch keep the hashes those of the contents. -/
theorem contentHash_blocks {ws : List (Written MemoryId)}
    (h : WroteAll space db (batch.binds clock) ws db')
    (hdb : ∀ r ∈ db.memory, r.contentHash = contentHash r.content) :
    ∀ r ∈ db'.memory, r.contentHash = contentHash r.content := by
  refine h.gains.all (fun r r' he hr => ?_) ?_ hdb
  · rw [he.contentHash, he.content, hr]
  · rintro _ ⟨b, hb, id, source, now, rfl⟩
    obtain ⟨j, hj, rfl⟩ := List.mem_mapIdx.mp hb
    rfl

/-- An entry of a transaction is right between the moments of its memory. -/
theorem entry_at (hdb : db.Reachable) (hin : InSpace db.memory batch.space batch.targets)
    {ep : Option (Written EpisodeId)} {ws : List (Written MemoryId)}
    (h : batchTransaction db (batch.retain (closedMemories db batch.space batch.targets)) clock =
      .ok (db', ep, ws)) {i : ℕ} {m : NewMemory} (hi : batch.memories[i]? = some m)
    {w : Written MemoryId} (hw : ws[i]? = some w) :
    ∃ before after, moment db batch clock i = .ok before ∧
      moment db batch clock (i + 1) = .ok after ∧
        EntryRight before after batch.space m.content w := by
  have hwf := hdb.wellFormed
  have hm : (batch.retain (closedMemories db batch.space batch.targets)).memories[i]? =
      some (m.retain (closedMemories db batch.space batch.targets)) := by
    rw [Batch.retain, List.getElem?_map, hi]
    rfl
  have hstored : ∀ m' ∈ (batch.retain (closedMemories db batch.space batch.targets)).memories,
      InSpace db.memory batch.space m'.supersedes := by
    intro m' hm' id hid
    obtain ⟨m₀, hm₀, rfl⟩ := List.mem_map.mp hm'
    exact hin id (List.mem_flatMap.mpr ⟨m₀, hm₀, (mem_retain.mp hid).1⟩)
  have hold : ∀ m' ∈ (batch.retain (closedMemories db batch.space batch.targets)).memories,
      ∀ id ∈ m'.supersedes, id.ulid < db.minted := by
    intro m' hm' id hid
    obtain ⟨r, hr, rfl, -⟩ := hstored m' hm' id hid
    exact hwf.memory r hr
  obtain ⟨db₁, before, after, ws₁, ws₂, haside, hbefore, hafter, hpre, hblock⟩ :=
    batchTransaction_at hold h hm hw
  have hwfBefore : before.WellFormed := by
    refine hpre.wellFormed (fun b hb => (Batch.mem_binds hb).1) (fun b hb => ?_)
      (haside.wellFormed hwf)
    obtain ⟨-, m', hm', -, hold'⟩ := Batch.mem_binds hb
    rw [haside.memory, hold']
    exact hstored m' (List.mem_of_mem_take hm')
  have hhash : ∀ r ∈ before.memory, r.contentHash = contentHash r.content :=
    contentHash_blocks hpre (haside.memory ▸ contentHash_reachable hdb)
  refine ⟨before, after, ?_, ?_, entryRight hwfBefore hhash rfl rfl rfl hblock⟩
  · rw [moment, hbefore]
    rfl
  · rw [moment, hafter]
    rfl

theorem attempt_accurate {out : BatchOutcome} (hdb : db.Reachable)
    (h : insertBatchOnce db batch clock = .ok (db', out)) : Accurate db batch clock db' out := by
  obtain ⟨hin, hclosed, htx, db₁, ha, hall⟩ := insertBatchOnce_ok hdb.wellFormed h
  have hsuperseded := insertBatchOnce_superseded h
  rw [zipWith_closedTargets _ clock] at hsuperseded
  rw [hclosed] at htx hall hsuperseded
  have hmemory : ∀ id, ClosedIn db₁ id ↔ ClosedIn db id := fun id => by
    rw [ClosedIn, ha.memory]
    rfl
  have hiff (id : MemoryId) : ClosedIn db' id ↔ ClosedIn db id ∨ id ∈ out.superseded := by
    rw [closedIn_blocks hall, hmemory, hsuperseded]
  have hlive : ∀ id ∈ out.superseded, LiveIn db id := by
    intro id hid
    exact liveIn_of_closedBy (bound_open hin) (hsuperseded ▸ hid)
  refine ⟨fun id => ?_, fun id hid => ?_, fun c => ?_, ?_, ?_, fun i m w hi hw => ?_⟩
  · constructor
    · exact fun hid => ⟨hlive id hid, (hiff id).mpr (.inr hid)⟩
    · exact fun ⟨hl, hid⟩ => ((hiff id).mp hid).resolve_left hl.not_closedIn
  · exact ((hiff id).mp hid).elim .inr fun hid => .inl (hlive id hid)
  · rw [hclosed]
    exact mem_alreadyClosed hin
  · rw [hall.length]
    simp [Batch.binds, Batch.retain]
  · have hwhole : upTo (batch.retain (closedMemories db batch.space batch.targets))
        batch.memories.length = batch.retain (closedMemories db batch.space batch.targets) := by
      rw [upTo, List.take_of_length_le (by simp [Batch.retain])]
    rw [moment, hwhole, htx]
    rfl
  · obtain ⟨before, after, hbefore, hafter, hright⟩ := entry_at hdb hin htx hi hw
    exact ⟨before, after, hbefore, hafter, hright, fun hinj => hright.carries.normalize hinj⟩

/-- What a batch that goes through reports is right, for the clock of the attempt that landed. -/
theorem insertBatch_accurate {clock : ℕ → Clock} {out : BatchOutcome} (hdb : db.Reachable)
    (h : insertBatch db batch clock = .ok (db', out)) :
    ∃ k < 3, Accurate db batch (clock k) db' out := by
  obtain ⟨k, hk, hok⟩ := insertBatch_ok h
  exact ⟨k, hk, attempt_accurate hdb hok⟩

omit [Hashing] in
/-- A claim that is stored, twice in place of another: the second entry names the row of the
first. -/
theorem merged_accurate : ∃ db db' out, @Db.Reachable plain db ∧
    @insertBatch plain db (batchOf [claim 'b' [0] none, claim 'B' [] none]) (ticking 9) =
      .ok (db', out) ∧
    out.memories = [.created ⟨1⟩, .duplicate ⟨1⟩] ∧ out.superseded = [⟨0⟩] ∧
    ∃ k < 3, @Accurate plain db (batchOf [claim 'b' [0] none, claim 'B' [] none]) (ticking 9 k)
      db' out := by
  obtain ⟨steps, db, hrun, -, hp⟩ := exists_run_of_exec (@step plain) (Db.empty 0)
    [remember 0 [claim 'a' [] none]]
    (fun u => succeedsWith (fun v : Db × BatchOutcome => decide
        (v.2.memories = [.created ⟨1⟩, .duplicate ⟨1⟩] ∧ v.2.superseded = [⟨0⟩]))
      (@insertBatch plain u.2 (batchOf [claim 'b' [0] none, claim 'B' [] none]) (ticking 9)))
    (by decide)
  obtain ⟨⟨db', out⟩, h, hout⟩ := exists_of_succeedsWith hp
  have hreach : @Db.Reachable plain db := ⟨0, steps, hrun⟩
  obtain ⟨hmemories, hsuperseded⟩ := of_decide_eq_true hout
  exact ⟨db, db', out, hreach, h, hmemories, hsuperseded,
    @insertBatch_accurate db db' plain _ _ out hreach h⟩

end Agmem.Store.Outcome
