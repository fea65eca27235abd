import Agmem.Store.Op
import Agmem.Claims.Assertion

/-! What a space is for: the set of claims that stand in it. A batch is a sequence of
assertions over that set, and the transaction that writes the batch refines them, one
block after the other. -/

namespace Agmem.Store

open Core Relational Claims

variable {db db' : Db} {space : SpaceName}

def liveClaims (db : Db) (space : SpaceName) : Set Text :=
  {h | ∃ r ∈ db.memory, r.space = space ∧ r.contentHash = h ∧ r.isLive = true}

/-- The claims of the rows that a list of ids names. -/
def claimsOf (db : Db) (ids : List MemoryId) : Set Text :=
  {h | ∃ r ∈ db.memory, r.id ∈ ids ∧ r.contentHash = h}

/-- What one block asserts: its own claim, in place of those of its targets. -/
def MemoryBinds.assertion (db : Db) (m : MemoryBinds) : Assertion Text :=
  ⟨m.hash, claimsOf db m.old⟩

/-- What a memory of a batch asserts: targets that were already closed withdraw nothing. -/
def NewMemory.assertion [Hashing] (db : Db) (m : NewMemory) : Assertion Text where
  claim := contentHash m.content
  closes := {h | ∃ r ∈ db.memory, r.id ∈ m.supersedes ∧ r.isLive = true ∧ r.contentHash = h}

def Batch.assertions [Hashing] (db : Db) (batch : Batch) : List (Assertion Text) :=
  batch.memories.map (NewMemory.assertion db)

/-! ### One block -/

theorem mem_liveClaims_of_closing {t : Table MemoryRecord} {T : List MemoryId} {new : MemoryId}
    {boundary : Timestamp} (rows : t.rows = db.memory.rows.map (closing T new boundary))
    {h : Text} :
    h ∈ liveClaims { db with memory := t } space ↔
      ∃ r ∈ db.memory, r.space = space ∧ r.contentHash = h ∧ r.isLive = true ∧ r.id ∉ T := by
  constructor
  · rintro ⟨r', hr', hs, hh, hl⟩
    obtain ⟨r, hr, rfl⟩ := (mem_of_rows_map rows).mp hr'
    rw [closing_space] at hs
    rw [closing_contentHash] at hh
    exact ⟨r, hr, hs, hh, closing_isLive.mp hl⟩
  · rintro ⟨r, hr, hs, hh, hl⟩
    refine ⟨_, (mem_of_rows_map rows).mpr ⟨r, hr, rfl⟩, ?_, ?_, closing_isLive.mpr hl⟩
    · rw [closing_space, hs]
    · rw [closing_contentHash, hh]

/-- An open row of the space is withdrawn by a list of its open rows exactly when the list
names it. -/
theorem mem_claimsOf_iff {r : MemoryRecord} {ids : List MemoryId} (hr : r ∈ db.memory)
    (hs : r.space = space) (hl : r.isLive = true) (hin : InSpace db.memory space ids)
    (hopen : Open db.memory ids) : r.contentHash ∈ claimsOf db ids ↔ r.id ∈ ids := by
  constructor
  · rintro ⟨q, hq, hqid, hqh⟩
    obtain ⟨q₁, hq₁, hk₁, hl₁⟩ := hopen q.id hqid
    obtain ⟨q₂, hq₂, hk₂, hs₂⟩ := hin q.id hqid
    have h₁ : q₁ = q := Table.eq_of_key hq₁ hq hk₁
    have h₂ : q₂ = q := Table.eq_of_key hq₂ hq hk₂
    subst h₁ h₂
    rwa [live_unique hr hq hl hl₁ (hs.trans hs₂.symm) hqh.symm]
  · exact fun hid => ⟨r, hr, hid, rfl⟩

section Block

variable {m : MemoryBinds} {w : Written MemoryId}

/-- When a block goes through, all of its targets were open. -/
theorem Wrote.targets_open (h : Wrote space m db w db') : Open db.memory m.old := by
  cases h with
  | created _ _ _ _ _ targets _ _ => exact targets
  | @duplicate dup t mem _ _ live _ targets _ _ =>
    intro id hid
    by_cases hd : id = dup.id
    · exact ⟨dup, mem, hd.symm, live⟩
    · exact targets id (mem_complement.mpr ⟨hid, by simp [hd]⟩)

/-- A block refines its assertion. -/
theorem Wrote.liveClaims (hm : m.Coherent space) (hin : InSpace db.memory space m.old)
    (h : Wrote space m db w db') :
    liveClaims db' space = (m.assertion db).apply (liveClaims db space) := by
  have hopen := h.targets_open
  ext c
  rw [Assertion.mem_apply]
  cases h with
  | @created source now t _ holder _ targets _ rows =>
    constructor
    · rintro ⟨r', hr', hs, hh, hl⟩
      rcases (mem_of_rows_map_append rows).mp hr' with ⟨r, hr, rfl⟩ | rfl
      · rw [closing_space] at hs
        rw [closing_contentHash] at hh
        obtain ⟨hl, hT⟩ := closing_isLive.mp hl
        refine .inr ⟨⟨r, hr, hs, hh, hl⟩, fun hw => hT ?_⟩
        subst hh
        exact (mem_claimsOf_iff hr hs hl hin targets).mp hw.1
      · exact .inl (hh.symm.trans hm.hash)
    · rintro (rfl | ⟨⟨r, hr, hs, hh, hl⟩, hn⟩)
      · exact ⟨_, (mem_of_rows_map_append rows).mpr (.inr rfl), hm.space, hm.hash, rfl⟩
      · have hne : m.hash ≠ c := fun he => by
          rw [holder r hr hs (hh.trans he.symm)] at hl
          cases hl
        have hT : r.id ∉ m.old := fun hid => hn ⟨⟨r, hr, hid, hh⟩, hne⟩
        refine ⟨r, (mem_of_rows_map_append rows).mpr (.inl ⟨r, hr, closing_of_notMem hT⟩), hs, hh,
          hl⟩
  | @duplicate dup t mem inSpace hash live _ _ _ rows =>
    rw [mem_liveClaims_of_closing rows]
    constructor
    · rintro ⟨r, hr, hs, hh, hl, hT⟩
      by_cases hc : c = m.hash
      · exact .inl hc
      · refine .inr ⟨⟨r, hr, hs, hh, hl⟩, fun hw => hT ?_⟩
        subst hh
        have hid := (mem_claimsOf_iff hr hs hl hin hopen).mp hw.1
        refine mem_complement.mpr ⟨hid, fun hd => hc ?_⟩
        rw [Table.eq_of_key hr mem (List.mem_singleton.mp hd), hash]
    · rintro (rfl | ⟨⟨r, hr, hs, hh, hl⟩, hn⟩)
      · exact ⟨dup, mem, inSpace, hash, live, fun hd => (mem_complement.mp hd).2 (by simp)⟩
      · refine ⟨r, hr, hs, hh, hl, fun hT => ?_⟩
        obtain ⟨hid, hne⟩ := mem_complement.mp hT
        refine hn ⟨⟨r, hr, hid, hh⟩, fun he => hne ?_⟩
        rw [live_unique hr mem hl live (hs.trans inSpace.symm) (hh.trans (he.symm.trans hash.symm))]
        simp

/-- A block creates its row exactly when its claim did not stand. -/
theorem Wrote.created_iff (h : Wrote space m db w db') :
    (∃ id, w = .created id) ↔ m.hash ∉ Store.liveClaims db space := by
  cases h with
  | created _ _ _ holder _ _ _ _ =>
    refine iff_of_true ⟨_, rfl⟩ ?_
    rintro ⟨r, hr, hs, hh, hl⟩
    rw [holder r hr hs hh] at hl
    cases hl
  | @duplicate dup t mem inSpace hash live _ _ _ _ =>
    refine iff_of_false (fun h => by obtain ⟨id, h⟩ := h; cases h) (not_not.mpr ?_)
    exact ⟨dup, mem, inSpace, hash, live⟩

end Block

/-! ### The whole batch -/

/-- Ids that name stored rows name the same claims later on. -/
theorem claimsOf_eq (hw : db.WellFormed) (hg : Grown db db') (hk : Kept db db')
    {ids : List MemoryId} (hin : InSpace db.memory space ids) :
    claimsOf db' ids = claimsOf db ids := by
  ext c
  constructor
  · rintro ⟨r', hr', hid, rfl⟩
    obtain ⟨r, hr, hrid, -⟩ := hin r'.id hid
    have he := hg.evolves hw hr hr' hrid.symm
    exact ⟨r, hr, hrid ▸ hid, he.contentHash.symm⟩
  · rintro ⟨r, hr, hid, rfl⟩
    obtain ⟨r', hr', he⟩ := hk r hr
    exact ⟨r', hr', he.id ▸ hid, he.contentHash⟩

/-- The blocks of a batch refine their assertions, in order. -/
theorem WroteAll.liveClaims {ms : List MemoryBinds} {ws : List (Written MemoryId)}
    (h : WroteAll space db ms ws db') (hw : db.WellFormed) (hm : ∀ m ∈ ms, m.Coherent space)
    (hin : ∀ m ∈ ms, InSpace db.memory space m.old) :
    liveClaims db' space =
      standing (liveClaims db space) (ms.map (MemoryBinds.assertion db)) := by
  induction h with
  | nil db => rfl
  | @cons db db₁ db' m ms w ws h _ ih =>
    obtain ⟨hm₀, hm⟩ := List.forall_mem_cons.mp hm
    obtain ⟨hin₀, hin⟩ := List.forall_mem_cons.mp hin
    have hg := h.grown
    rw [ih (h.wellFormed hm₀ hin₀ hw) hm fun m' hm' => (hin m' hm').kept hg.2, List.map_cons,
      standing_cons, h.liveClaims hm₀ hin₀]
    congr 1
    refine List.map_congr_left fun m' hm' => ?_
    rw [MemoryBinds.assertion, MemoryBinds.assertion, claimsOf_eq hw hg.1 hg.2 (hin m' hm')]

theorem WroteAll.append_inv {ms ns : List MemoryBinds} {ws : List (Written MemoryId)}
    (h : WroteAll space db (ms ++ ns) ws db') : ∃ db₁ ws₁ ws₂, ws = ws₁ ++ ws₂ ∧
      WroteAll space db ms ws₁ db₁ ∧ WroteAll space db₁ ns ws₂ db' := by
  induction ms generalizing db ws with
  | nil => exact ⟨db, [], ws, rfl, .nil db, h⟩
  | cons m ms ih =>
    cases h with
    | cons h rest =>
      obtain ⟨db₁, ws₁, ws₂, rfl, h₁, h₂⟩ := ih rest
      exact ⟨db₁, _ :: ws₁, ws₂, rfl, .cons h h₁, h₂⟩

theorem Aside.liveClaims (h : Aside db db') (space : SpaceName) :
    Store.liveClaims db' space = Store.liveClaims db space := by
  unfold Store.liveClaims; rw [h.memory]

theorem Aside.assertion (h : Aside db db') :
    MemoryBinds.assertion db' = MemoryBinds.assertion db := by
  funext m
  simp only [MemoryBinds.assertion, claimsOf, h.memory]

section Retain

variable {batch : Batch} {closed : List AlreadyClosed}

theorem mem_closedMemories {ids : List MemoryId} {id : MemoryId} :
    (∃ c ∈ closedMemories db space ids, c.id = id) ↔
      ∃ r ∈ db.memory, r.id = id ∧ r.space = space ∧ r.id ∈ ids ∧ r.isLive = false := by
  unfold closedMemories
  simp only [List.mem_map, List.mem_filter, Bool.and_eq_true, decide_eq_true_eq,
    Bool.not_eq_true', exists_exists_and_eq_and]
  constructor
  · rintro ⟨r, ⟨hr, ⟨hs, hid⟩, hl⟩, rfl⟩
    exact ⟨r, hr, rfl, hs, hid, hl⟩
  · rintro ⟨r, hr, rfl, hs, hid, hl⟩
    exact ⟨r, ⟨hr, ⟨hs, hid⟩, hl⟩, rfl⟩

/-- What survives the drop are the targets that are open. -/
theorem mem_retain_iff (hin : InSpace db.memory batch.space batch.targets) {m : NewMemory}
    (hm : m ∈ batch.memories) {r : MemoryRecord} (hr : r ∈ db.memory) :
    r.id ∈ (m.retain (closedMemories db batch.space batch.targets)).supersedes ↔
      r.id ∈ m.supersedes ∧ r.isLive = true := by
  rw [mem_retain]
  refine and_congr_right fun hid => ?_
  have ht : r.id ∈ batch.targets := List.mem_flatMap.mpr ⟨m, hm, hid⟩
  constructor
  · intro h
    by_contra hl
    obtain ⟨q, hq, hqid, hqs⟩ := hin r.id ht
    have : q = r := Table.eq_of_key hq hr hqid
    subst this
    obtain ⟨c, hc, he⟩ := mem_closedMemories.mpr ⟨q, hr, rfl, hqs, ht, (Bool.not_eq_true _).mp hl⟩
    exact h c hc he
  · rintro hl c hc he
    obtain ⟨q, hq, hqid, -, -, hql⟩ := mem_closedMemories.mp ⟨c, hc, he⟩
    rw [Table.eq_of_key hq hr hqid, hl] at hql
    cases hql

variable [Hashing]

/-- What a query binds, beside the memory it was bound for: its targets are those of the memory
that are open. -/
structure BoundFor (db : Db) (m : NewMemory) (b : MemoryBinds) : Prop where
  hash : b.hash = contentHash m.content
  embedding : b.row.embedding = m.embedding
  targets : ∀ r ∈ db.memory, r.id ∈ b.old ↔ r.id ∈ m.supersedes ∧ r.isLive = true

theorem BoundFor.assertion {m : NewMemory} {b : MemoryBinds} (h : BoundFor db m b) :
    b.assertion db = m.assertion db := by
  rw [MemoryBinds.assertion, NewMemory.assertion, h.hash]
  congr 1
  ext c
  constructor
  · rintro ⟨r, hr, hid, hc⟩
    obtain ⟨hid, hl⟩ := (h.targets r hr).mp hid
    exact ⟨r, hr, hid, hl, hc⟩
  · rintro ⟨r, hr, hid, hl, hc⟩
    exact ⟨r, hr, (h.targets r hr).mpr ⟨hid, hl⟩, hc⟩

/-- The bindings of a batch, one by one. -/
theorem binds_boundFor (hin : InSpace db.memory batch.space batch.targets) (clock : Clock) :
    List.Forall₂ (BoundFor db) batch.memories
      ((batch.retain (closedMemories db batch.space batch.targets)).binds clock) := by
  refine List.forall₂_iff_get.mpr ⟨by simp [Batch.binds, Batch.retain], fun i h₁ h₂ => ?_⟩
  simp only [Batch.binds, Batch.retain, List.get_eq_getElem, List.getElem_mapIdx, List.getElem_map]
  exact ⟨rfl, rfl, fun r hr => mem_retain_iff hin (List.getElem_mem h₁) hr⟩

theorem binds_assertions (hin : InSpace db.memory batch.space batch.targets) (clock : Clock) :
    ((batch.retain (closedMemories db batch.space batch.targets)).binds clock).map
      (MemoryBinds.assertion db) = batch.assertions db := by
  symm
  rw [← List.forall₂_eq_eq_eq, Batch.assertions, List.forall₂_map_left_iff,
    List.forall₂_map_right_iff]
  exact (binds_boundFor hin clock).imp fun m b h => h.assertion.symm

/-- A batch that lands refines its assertions. -/
theorem insertBatch_refines {clock : ℕ → Clock} {out : BatchOutcome} (hw : db.WellFormed)
    (h : insertBatch db batch clock = .ok (db', out)) :
    liveClaims db' batch.space = standing (liveClaims db batch.space) (batch.assertions db) := by
  obtain ⟨k, -, hok⟩ := insertBatch_ok h
  obtain ⟨hin, hclosed, -, db₁, ha, hall⟩ := insertBatchOnce_ok hw hok
  rw [hclosed] at hall
  have hw₁ : db₁.WellFormed := ha.wellFormed hw
  rw [hall.liveClaims hw₁ (fun b hb => (Batch.mem_binds hb).1)
    (fun b hb => (retain_inSpace hin b hb).kept ha.kept), ha.liveClaims]
  rw [ha.assertion, binds_assertions hin]

end Retain

end Agmem.Store
