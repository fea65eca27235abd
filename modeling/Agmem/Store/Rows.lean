import Agmem.Store.Op

/-! Where rows come from. Only a batch stores rows, each for one of its memories and with what that
memory says; whatever else runs works on the rows there are. So a property of rows that evolving
keeps holds of every stored row if it holds of what each batch stores. -/

namespace Agmem.Store

open Core Relational Relation Transition

variable {db db' db'' : Db} {P Q : MemoryRecord → Prop}

/-- Every row is a row of the earlier table as it evolved, or was stored as one that has `P`. -/
def Gains (P : MemoryRecord → Prop) (db db' : Db) : Prop :=
  ∀ r' ∈ db'.memory, (∃ r ∈ db.memory, Evolves r r') ∨ ∃ r, P r ∧ Evolves r r'

theorem Gains.refl (P : MemoryRecord → Prop) (db : Db) : Gains P db db :=
  fun r hr => .inl ⟨r, hr, .refl r⟩

theorem Gains.trans (h : Gains P db db') (h' : Gains P db' db'') : Gains P db db'' := by
  intro r'' hr''
  rcases h' r'' hr'' with ⟨r', hr', he'⟩ | ⟨r, hr, he⟩
  · rcases h r' hr' with ⟨r, hr, he⟩ | ⟨r, hr, he⟩
    · exact .inl ⟨r, hr, he.trans he'⟩
    · exact .inr ⟨r, hr, he.trans he'⟩
  · exact .inr ⟨r, hr, he⟩

theorem Gains.mono (h : Gains P db db') (hPQ : ∀ r, P r → Q r) : Gains Q db db' := by
  intro r' hr'
  exact (h r' hr').imp_right fun ⟨r, hr, he⟩ => ⟨r, hPQ r hr, he⟩

theorem Inherits.gains (h : Inherits db.memory db'.memory) : Gains P db db' :=
  fun r hr => .inl (h r hr)

/-- What evolving keeps and the stored rows have, all rows have. -/
theorem Gains.all (h : Gains P db db') (hQ : ∀ r r', Evolves r r' → Q r → Q r')
    (hP : ∀ r, P r → Q r) (hdb : ∀ r ∈ db.memory, Q r) : ∀ r ∈ db'.memory, Q r := by
  intro r' hr'
  rcases h r' hr' with ⟨r, hr, he⟩ | ⟨r, hr, he⟩
  · exact hQ r r' he (hdb r hr)
  · exact hQ r r' he (hP r hr)

/-! ### Batches -/

theorem Wrote.gains {space : SpaceName} {m : MemoryBinds} {w : Written MemoryId}
    (h : Wrote space m db w db') :
    Gains (fun r => ∃ id source now, r = m.row.record id source now) db db' := by
  cases h with
  | @created source now t _ _ _ _ _ rows =>
    intro r' hr'
    rcases (mem_of_rows_map_append rows).mp hr' with ⟨r, hr, rfl⟩ | rfl
    · exact .inl ⟨r, hr, .closing _ _ _ r⟩
    · exact .inr ⟨_, ⟨_, source, now, rfl⟩, .refl _⟩
  | duplicate _ _ _ _ _ _ _ rows =>
    exact Inherits.gains (inherits_of_map rows fun r _ => .closing _ _ _ r)

theorem WroteAll.gains {space : SpaceName} {ms : List MemoryBinds} {ws : List (Written MemoryId)}
    (h : WroteAll space db ms ws db') :
    Gains (fun r => ∃ m ∈ ms, ∃ id source now, r = m.row.record id source now) db db' := by
  induction h with
  | nil db => exact .refl _ db
  | @cons db db₁ db' m ms w ws h _ ih =>
    refine (h.gains.mono fun r hr => ?_).trans (ih.mono fun r hr => ?_)
    · exact ⟨m, List.mem_cons_self, hr⟩
    · obtain ⟨m', hm', hr⟩ := hr
      exact ⟨m', List.mem_cons_of_mem _ hm', hr⟩

/-- The row of a block that made one. -/
theorem WroteAll.created_row {space : SpaceName} {ms : List MemoryBinds}
    {ws : List (Written MemoryId)} (h : WroteAll space db ms ws db') {i : ℕ} {m : MemoryBinds}
    {id : MemoryId} (hi : ms[i]? = some m) (hid : ws[i]? = some (.created id)) :
    db.minted ≤ id.ulid ∧ ∃ r ∈ db'.memory, r.id = id ∧ r.content = m.row.content := by
  induction h generalizing i with
  | nil db => cases hi
  | cons h rest ih =>
    cases i with
    | zero =>
      cases hi
      cases hid
      cases h with
      | created source now _ _ _ _ _ rows =>
        obtain ⟨r, hr, he⟩ := rest.grown.2 _ ((mem_of_rows_map_append rows).mpr (.inr rfl))
        exact ⟨le_rfl, r, hr, he.id, he.content⟩
    | succ i =>
      obtain ⟨hle, hrow⟩ := ih hi hid
      exact ⟨h.grown.1.minted.trans hle, hrow⟩

section

variable [Hashing]

/-- The row as a memory of a batch asks for it; targets that were closed already are dropped. -/
structure Stores (space : SpaceName) (m : NewMemory) (r : MemoryRecord) : Prop where
  space : r.space = space
  kind : r.kind = m.kind
  content : r.content = m.content
  contentHash : r.contentHash = contentHash m.content
  supersedes : r.supersedes.Sublist m.supersedes
  derivedFrom : r.derivedFrom = m.derivedFrom

/-- The rows a batch may store. -/
def Batch.Stores (batch : Batch) (r : MemoryRecord) : Prop :=
  ∃ m ∈ batch.memories, Store.Stores batch.space m r

theorem insertBatch_gains {batch : Batch} {clock : ℕ → Clock} {out : BatchOutcome}
    (hw : db.WellFormed) (h : insertBatch db batch clock = .ok (db', out)) :
    Gains batch.Stores db db' := by
  obtain ⟨k, -, hok⟩ := insertBatch_ok h
  obtain ⟨-, -, -, db₁, ha, hall⟩ := insertBatchOnce_ok hw hok
  have hstart : Inherits db.memory db₁.memory := fun r hr => ⟨r, ha.memory ▸ hr, .refl r⟩
  refine hstart.gains.trans (hall.gains.mono ?_)
  rintro _ ⟨b, hb, id, source, now, rfl⟩
  obtain ⟨i, hi, rfl⟩ := List.mem_mapIdx.mp hb
  have hlen : i < batch.memories.length := by simpa [Batch.retain] using hi
  refine ⟨batch.memories[i], List.getElem_mem hlen, ?_⟩
  simp only [Batch.retain, List.getElem_map]
  exact ⟨rfl, rfl, rfl, rfl, List.filter_sublist, rfl⟩

/-- The entries of the memories that made their row. -/
theorem insertBatch_created {batch : Batch} {clock : ℕ → Clock} {out : BatchOutcome}
    (hw : db.WellFormed) (h : insertBatch db batch clock = .ok (db', out)) :
    out.memories.length = batch.memories.length ∧
      ∀ (i : ℕ) (m : NewMemory) (id : MemoryId), batch.memories[i]? = some m →
      out.memories[i]? = some (.created id) → (∀ r ∈ db.memory, r.id ≠ id) ∧
        ∃ r ∈ db'.memory, r.id = id ∧ r.content = m.content := by
  obtain ⟨k, -, hok⟩ := insertBatch_ok h
  obtain ⟨-, -, -, db₁, ha, hall⟩ := insertBatchOnce_ok hw hok
  refine ⟨by simpa [Batch.binds, Batch.retain] using hall.length, fun i m id hm hid => ?_⟩
  have hb : ((batch.retain out.alreadyClosed).binds (clock k))[i]? =
      some (bindMemory (batch.retain out.alreadyClosed) (clock k) i
        (m.retain out.alreadyClosed)) := by
    simp [Batch.binds, Batch.retain, hm]
  obtain ⟨hle, hrow⟩ := hall.created_row hb hid
  refine ⟨fun r hr hrid => ?_, hrow⟩
  have hlt := hw.memory r hr
  rw [hrid] at hlt
  exact absurd (ha.minted.trans hle) hlt.not_ge

/-- The rows an operation may store. -/
def Op.Stores : Op → MemoryRecord → Prop
  | .insertBatch batch _ => batch.Stores
  | _ => fun _ => False

/-- The rows after an operation. -/
theorem step_gains {op : Op} (hw : db.WellFormed) (h : step db op = some db') :
    Gains op.Stores db db' := by
  have hother (hlinks : ¬ op.Links .block) : Inherits db.memory db'.memory := by
    obtain ⟨db₁, hchanges, hend⟩ := step_changes hw h
    have hmid : Inherits db.memory db₁.memory := by
      clear hend
      induction hchanges with
      | refl => exact fun r hr => ⟨r, hr, .refl r⟩
      | tail _ hc ih =>
        have hlast := hc.inherits_or_created.resolve_right fun hb => hlinks hb.1
        intro r hr
        obtain ⟨q, hq, he⟩ := hlast r hr
        obtain ⟨p, hp, he'⟩ := ih q hq
        exact ⟨p, hp, he'.trans he⟩
    rcases hend with rfl | ⟨-, herased⟩
    · exact hmid
    · intro r hr
      obtain ⟨q, hq, he⟩ := herased.inherits r hr
      obtain ⟨p, hp, he'⟩ := hmid q hq
      exact ⟨p, hp, he'.trans he⟩
  cases op with
  | insertBatch batch clock =>
    obtain ⟨out, hok⟩ := map_fst_ok.mp (step_eq_some.mp h)
    exact insertBatch_gains hw hok
  | supersede space old new => exact (hother id).gains
  | forget request now => exact (hother id).gains
  | pruneExpired horizon asked now => exact (hother id).gains
  | reinforce ids now => exact (hother id).gains
  | ensureSpace space now => exact (hother id).gains

/-- What evolving keeps and batches store only, all rows of a reachable store have. -/
theorem Db.Reachable.rows (h : db.Reachable) (hQ : ∀ r r', Evolves r r' → Q r → Q r')
    (hstores : ∀ op : Op, ∀ r, op.Stores r → Q r) : ∀ r ∈ db.memory, Q r := by
  obtain ⟨dimension, h⟩ := h
  let All (db : Db) : Prop := db.WellFormed ∧ ∀ r ∈ db.memory, Q r
  have hstep : ∀ s op t, step s op = some t → All s → All t := fun s op t hs hi =>
    ⟨step_wellFormed hs hi.1, (step_gains hi.1 hs).all hQ (hstores op) hi.2⟩
  exact (h.invariant hstep
    ⟨wellFormed_empty dimension, fun r hr => absurd hr (Table.not_mem_empty r)⟩).2

/-- The hash of a row is that of its content. -/
theorem contentHash_reachable (h : db.Reachable) :
    ∀ r ∈ db.memory, r.contentHash = contentHash r.content := by
  refine h.rows (fun r r' he hr => ?_) fun op r hr => ?_
  · rw [he.contentHash, he.content, hr]
  · cases op with
    | insertBatch batch clock =>
      obtain ⟨m, -, hm⟩ := hr
      rw [hm.contentHash, hm.content]
    | _ => exact hr.elim

end

end Agmem.Store
