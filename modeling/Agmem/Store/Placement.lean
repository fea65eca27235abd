import Agmem.Store.Chains

/-! Where rows lie. A supersession stays within one space, so a chain does; and a memory
never has the ULID of an episode, for the store mints both from one source. -/

namespace Agmem.Store

open Core Relational Links

variable {links : Linking → Prop} {db db' : Db}

/-! ### Spaces -/

/-- A row and its successor are in one space. -/
def SameSpace (db : Db) : Prop :=
  ∀ x ∈ db.memory, ∀ y ∈ db.memory, x.supersededBy = some y.id → x.space = y.space

/-- Closing rows of the space of the row they are closed in favour of. -/
theorem SameSpace.closing (h : SameSpace db) {t : Table MemoryRecord} {T : List MemoryId}
    {new : MemoryRecord} {boundary : Timestamp} (hnew : new ∈ db.memory)
    (hT : ∀ r ∈ db.memory, r.id ∈ T → r.space = new.space)
    (rows : t.rows = db.memory.rows.map (closing T new.id boundary)) :
    SameSpace { db with memory := t } := by
  intro x' hx' y' hy' hxy
  obtain ⟨x, hx, rfl⟩ := (mem_of_rows_map rows).mp hx'
  obtain ⟨y, hy, rfl⟩ := (mem_of_rows_map rows).mp hy'
  rw [closing_id] at hxy
  rw [closing_space, closing_space]
  by_cases hclosed : x.isLive = true ∧ x.id ∈ T
  · rw [closing_of_mem hclosed.1 hclosed.2] at hxy
    rw [Table.eq_of_key hy hnew (Option.some.inj hxy).symm]
    exact hT x hx hclosed.2
  · rw [Store.closing, if_neg hclosed] at hxy
    exact h x hx y hy hxy

theorem SameSpace.of_map (h : SameSpace db) {t : Table MemoryRecord}
    {g : MemoryRecord → MemoryRecord} (rows : t.rows = db.memory.rows.map g)
    (hg : ∀ r ∈ db.memory, (g r).id = r.id ∧ (g r).space = r.space ∧
      (g r).supersededBy = r.supersededBy) : SameSpace { db with memory := t } := by
  intro x' hx' y' hy' hxy
  obtain ⟨x, hx, rfl⟩ := (mem_of_rows_map rows).mp hx'
  obtain ⟨y, hy, rfl⟩ := (mem_of_rows_map rows).mp hy'
  rw [(hg x hx).2.2, (hg y hy).1] at hxy
  rw [(hg x hx).2.1, (hg y hy).2.1]
  exact h x hx y hy hxy

theorem sameSpace_change (h : Change links db db') (hw : db.WellFormed) (hs : SameSpace db) :
    SameSpace db' := by
  cases h with
  | aside h => exact fun x hx y hy => hs x (h.memory ▸ hx) y (h.memory ▸ hy)
  | @wrote _ space m w _ hm hin h =>
    have hold {r : MemoryRecord} (hr : r ∈ db.memory) (hid : r.id ∈ m.old) : r.space = space := by
      obtain ⟨q, hq, hqid, hqs⟩ := hin r.id hid
      rwa [← Table.eq_of_key hq hr hqid]
    cases h with
    | duplicate mem hspace _ _ _ _ _ rows =>
      exact hs.closing mem
        (fun r hr hid => (hold hr (mem_complement.mp hid).1).trans hspace.symm) rows
    | @created source now t _ _ _ targets _ rows =>
      intro x' hx' y' hy' hxy
      rcases (mem_of_rows_map_append rows).mp hx' with ⟨x, hx, rfl⟩ | rfl
      · rw [closing_space]
        rcases (mem_of_rows_map_append rows).mp hy' with ⟨y, hy, rfl⟩ | rfl
        · rw [closing_id] at hxy
          rw [closing_space]
          rcases closing_supersededBy hxy with hxy | hnew
          · exact hs x hx y hy hxy
          · exact absurd (hw.memory y hy) (hnew ▸ lt_irrefl _)
        · by_cases hclosed : x.isLive = true ∧ x.id ∈ m.old
          · exact (hold hx hclosed.2).trans hm.space.symm
          · rw [Store.closing, if_neg hclosed] at hxy
            exact absurd (hw.supersededBy x hx _ hxy) (lt_irrefl _)
      · cases hxy
  | supersede _ _ hnew space _ rows =>
    refine hs.closing hnew (fun r hr hid => ?_) rows
    rw [← space, Table.eq_of_key hr ‹_› (List.mem_singleton.mp hid)]
  | retire p reason now guard rows =>
    refine hs.of_map rows fun r _ => ?_
    split_ifs <;> exact ⟨rfl, rfl, rfl⟩
  | touch g rows frame =>
    refine hs.of_map rows fun r hr => ?_
    rw [frame r hr]
    exact ⟨rfl, rfl, rfl⟩

theorem SameSpace.erased (h : Erased db db') (hs : SameSpace db) : SameSpace db' := by
  obtain ⟨t, ht, rfl⟩ := h
  exact fun x hx y hy => hs x (ht x hx) y (ht y hy)

theorem sameSpace_reachable [Hashing] (h : db.Reachable) : SameSpace db :=
  h.of_changes (fun _ r hr => absurd hr (Table.not_mem_empty r)) (fun _ _ _ => sameSpace_change)
    fun _ _ he _ => SameSpace.erased he

/-- A walk forward from a stored row to a stored row stays in the space of the row. -/
theorem SameSpace.walk (hs : SameSpace db)
    {k : ℕ} {x y : MemoryRecord} (hx : x ∈ db.memory) (hy : y ∈ db.memory)
    (hw : Walk (supersededByOf db) k x.id y.id) : x.space = y.space := by
  induction k generalizing x with
  | zero => rw [Table.eq_of_key hx hy hw]
  | succ k ih =>
    obtain ⟨c, hc, hw⟩ := hw
    have hxc : x.supersededBy = some c := by
      rwa [supersededByOf_eq hx, Option.mem_toList] at hc
    cases k with
    | zero =>
      cases hw
      exact hs x hx y hy hxc
    | succ k =>
      -- a row that is walked through is stored
      obtain ⟨d, hd, -⟩ := id hw
      obtain ⟨z, hz, rfl, -⟩ := mem_supersededByOf.mp hd
      exact (hs x hx z hz hxc).trans (ih hz hw)

/-! ### ULIDs -/

/-- No memory has the ULID of an episode. -/
def Apart (db : Db) : Prop := ∀ r ∈ db.memory, ∀ e ∈ db.episode, r.id.ulid ≠ e.id.ulid

theorem apart_change (h : Change links db db') (hw : db.WellFormed) (ha : Apart db) :
    Apart db' := by
  have hinherits {episode : Table Episode} {memory : Table MemoryRecord}
      (hi : Inherits db.memory memory) (he : ∀ e ∈ episode, e ∈ db.episode ∨
        db.minted ≤ e.id.ulid) : ∀ r ∈ memory, ∀ e ∈ episode, r.id.ulid ≠ e.id.ulid := by
    intro r' hr' e hmem
    obtain ⟨r, hr, hev⟩ := hi r' hr'
    rw [hev.id]
    rcases he e hmem with hmem | hnew
    · exact ha r hr e hmem
    · exact ((hw.memory r hr).trans_le hnew).ne
  rcases h.inherits_or_created with hi | ⟨-, space, m, id, -, -, hwrote⟩
  · refine hinherits hi ?_
    cases h with
    | aside h => exact fun e he => (h.episode e he).imp_right And.left
    | wrote _ _ _ h => cases h <;> exact fun e he => .inl he
    | _ => exact fun e he => .inl he
  · cases hwrote with
    | created _ _ _ _ _ _ _ rows =>
      intro r' hr' e he
      rcases (mem_of_rows_map_append rows).mp hr' with ⟨r, hr, rfl⟩ | rfl
      · rw [closing_id]
        exact ha r hr e he
      · exact (hw.episode e he).ne'

theorem Apart.erased (h : Erased db db') (ha : Apart db) : Apart db' := by
  obtain ⟨t, ht, rfl⟩ := h
  exact fun r hr => ha r (ht r hr)

theorem apart_reachable [Hashing] (h : db.Reachable) : Apart db :=
  h.of_changes (fun _ r hr => absurd hr (Table.not_mem_empty r)) (fun _ _ _ => apart_change)
    fun _ _ he _ => Apart.erased he

end Agmem.Store
