import Agmem.Store.Migrations

/-! Migrations that were cut off. A definition that is there already is passed over, one that
overwrites writes the same again, and an `UPDATE` finds no row left that is in the old shape, so
every statement of a batch, once run, has nothing left to do for the rest of the batch. No statement
loses the text or the links of a claim, and the third batch leaves every row with its links in a
list. -/

namespace Agmem.Store.Upgrade

open Core Transition Batch Versioned Migrations

variable {s t : Disk} {st st' : Statement}

/-! ### Statements -/

theorem update_ok {p : DiskMemory → Bool} {set : DiskMemory → DiskMemory}
    (h : update s p set = .ok t) : t =
      { s with memory := s.memory.map fun r => if p r then (set r).compute s.schema else r } ∧
    ∀ r ∈ s.memory, p r = true → ((set r).compute s.schema).coerces s.schema = true := by
  unfold update at h
  split_ifs at h with hall
  refine ⟨(Except.ok.inj h).symm, fun r hr hp => ?_⟩
  simpa [hp] using List.all_eq_true.mp hall r hr

theorem update_error {p : DiskMemory → Bool} {set : DiskMemory → DiskMemory} {e : MigrationError}
    (h : update s p set = .error e) : e = .coercion ∧
      ∃ r ∈ s.memory, p r = true ∧ ((set r).compute s.schema).coerces s.schema = false := by
  unfold update at h
  split_ifs at h with hall
  rw [Bool.not_eq_true, List.all_eq_false] at hall
  obtain ⟨r, hr, hbad⟩ := hall
  exact ⟨(Except.error.inj h).symm, r, hr, by simpa using hbad⟩

/-- An `UPDATE` has no effect exactly if the rows it meets are as it would write them. -/
theorem update_fixed_iff {p : DiskMemory → Bool} {set : DiskMemory → DiskMemory} :
    update s p set = .ok s ↔ ∀ r ∈ s.memory, p r = true →
      (set r).compute s.schema = r ∧ r.coerces s.schema = true := by
  constructor
  · intro h r hr hp
    obtain ⟨hs, hcoerces⟩ := update_ok h
    have hmap := congrArg Disk.memory hs
    have hfixed : (if p r then (set r).compute s.schema else r) = r := by
      have hmap := hmap.symm.trans (List.map_id s.memory).symm
      exact List.map_inj_left.mp hmap r hr
    rw [if_pos hp] at hfixed
    have hrow := hcoerces r hr hp
    rw [hfixed] at hrow
    exact ⟨hfixed, hrow⟩
  · intro h
    have hall : (s.memory.all fun r =>
        !p r || ((set r).compute s.schema).coerces s.schema) = true := by
      refine List.all_eq_true.mpr fun r hr => ?_
      cases hp : p r with
      | false => rfl
      | true =>
        rw [(h r hr hp).1, (h r hr hp).2]
        rfl
    have hmap : (s.memory.map fun r => if p r then (set r).compute s.schema else r) = s.memory := by
      conv_rhs => rw [← List.map_id s.memory]
      refine List.map_congr_left fun r hr => ?_
      split
      · next hp => exact (h r hr hp).1
      · rfl
    rw [update, if_pos hall, hmap]

@[simp] theorem compute_supersedes (schema : Definition → Option String) (r : DiskMemory) :
    (r.compute schema).supersedes = r.supersedes := by
  unfold DiskMemory.compute
  split <;> rfl

@[simp] theorem compute_id (schema : Definition → Option String) (r : DiskMemory) :
    (r.compute schema).id = r.id := by
  unfold DiskMemory.compute
  split <;> rfl

@[simp] theorem compute_content (schema : Definition → Option String) (r : DiskMemory) :
    (r.compute schema).content = r.content := by
  unfold DiskMemory.compute
  split <;> rfl

@[simp] theorem compute_derivedFrom (schema : Definition → Option String) (r : DiskMemory) :
    (r.compute schema).derivedFrom = r.derivedFrom := by
  unfold DiskMemory.compute
  split <;> rfl

@[simp] theorem compute_compute (schema : Definition → Option String) (r : DiskMemory) :
    (r.compute schema).compute schema = r.compute schema := by
  unfold DiskMemory.compute
  split <;> rfl

theorem coerces_compute (schema : Definition → Option String) (r : DiskMemory) :
    (r.compute schema).coerces schema = r.coerces schema := by
  simp only [DiskMemory.coerces, compute_supersedes, compute_derivedFrom]

/-! ### Statements again -/

@[simp] theorem setSchema_schema (s : Disk) (key : Definition) (body : Option String) :
    (s.setSchema key body).schema = Function.update s.schema key body := rfl

@[simp] theorem allows_setSchema (u : Unique) (s : Disk) (key : Definition) (body : Option String) :
    u.allows (s.setSchema key body) = u.allows s := by
  cases u <;> rfl

theorem setSchema_idem (s : Disk) (key : Definition) (body : Option String) :
    (s.setSchema key body).setSchema key body = s.setSchema key body := by
  simp only [Disk.setSchema, Function.update_idem]

theorem setSchema_eq_self {key : Definition} {body : Option String} (h : s.schema key = body) :
    s.setSchema key body = s := by
  subst h
  simp only [Disk.setSchema, Function.update_eq_self]

theorem define_cases {overwrite : Bool} {key : Definition} {body : String} {unique : Option Unique}
    (h : run s (.define overwrite key body unique) = .ok t) : t = s ∧ overwrite = false ∧
      (s.schema key).isSome = true ∨
    t = s.setSchema key (some body) ∧ unique.filter (fun u => !u.allows s) = none := by
  simp only [run] at h
  split_ifs at h with hold
  · exact .inl ⟨(Except.ok.inj h).symm, by simpa using hold⟩
  · split at h
    · cases h
    · next hunique => exact .inr ⟨(Except.ok.inj h).symm, hunique⟩

theorem define_idempotent {overwrite : Bool} {key : Definition} {body : String}
    {unique : Option Unique} (h : run s (.define overwrite key body unique) = .ok t) :
    run t (.define overwrite key body unique) = .ok t := by
  obtain ⟨rfl, -, -⟩ | ⟨rfl, hunique⟩ := define_cases h
  · exact h
  · simp only [run, allows_setSchema, hunique, setSchema_idem]
    split <;> rfl

/-- An `UPDATE` whose rows no longer meet its condition. -/
theorem update_idempotent {p : DiskMemory → Bool} {set : DiskMemory → DiskMemory}
    (hp : ∀ schema r, p ((set r).compute schema) = false) (h : update s p set = .ok t) :
    update t p set = .ok t := by
  obtain ⟨rfl, -⟩ := update_ok h
  refine update_fixed_iff.mpr fun r hr hmeets => ?_
  obtain ⟨q, -, rfl⟩ := List.mem_map.mp hr
  split at hmeets
  · rw [hp] at hmeets
    cases hmeets
  · next hq => exact absurd hmeets hq

theorem wrapSupersedes_idempotent (h : run s .wrapSupersedes = .ok t) :
    run t .wrapSupersedes = .ok t :=
  update_idempotent (fun schema r => by simp [DiskMemory.setSupersedes, Supersedes.isRecord]) h

theorem emptySupersedes_idempotent (h : run s .emptySupersedes = .ok t) :
    run t .emptySupersedes = .ok t :=
  update_idempotent (fun schema r => by simp [DiskMemory.setSupersedes, Supersedes.isNone]) h

theorem updateMemory_idempotent (h : run s .updateMemory = .ok t) :
    run t .updateMemory = .ok t := by
  obtain ⟨rfl, hcoerces⟩ := update_ok h
  refine update_fixed_iff.mpr fun r hr _ => ?_
  obtain ⟨q, hq, rfl⟩ := List.mem_map.mp hr
  exact ⟨compute_compute s.schema q, hcoerces q hq rfl⟩

theorem backfill_idempotent (h : run s .backfillOccurredAt = .ok t) :
    run t .backfillOccurredAt = .ok t := by
  cases h
  simp only [run, List.map_map]
  congr 2
  refine List.map_congr_left fun c _ => ?_
  cases h : c.occurredAt <;> simp [DiskChunk.backfill, occurredAtOf, h]

theorem removeIndex_idempotent {name table : String} (h : run s (.removeIndex name table) = .ok t) :
    run t (.removeIndex name table) = .ok t := by
  cases h
  simp only [run, setSchema_idem]

/-! ### Statements after one another -/

/-- The statements that leave the schema alone. -/
def schemaKept : Statement → Bool
  | .define _ _ _ _ | .removeIndex _ _ => false
  | _ => true

theorem schema_after (h : schemaKept st = true) : (after run s st).schema = s.schema := by
  cases st with
  | define _ _ _ _ | removeIndex _ _ => cases h
  | wrapSupersedes | emptySupersedes | updateMemory =>
    simp only [after, run]
    split
    · next hs => rw [(update_ok hs).1]
    · rfl
  | backfillOccurredAt | setVersion _ => rfl

theorem after_define (s : Disk) (overwrite : Bool) (key : Definition) (body : String)
    (unique : Option Unique) :
    after run s (.define overwrite key body unique) = s ∨
      after run s (.define overwrite key body unique) = s.setSchema key (some body) := by
  cases h : run s (.define overwrite key body unique) with
  | error e => exact .inl (after_error h)
  | ok t =>
    rw [after_ok h]
    obtain ⟨rfl, -, -⟩ | ⟨rfl, -⟩ := define_cases h
    · exact .inl rfl
    · exact .inr rfl

/-- What is defined stays defined, an index excepted. -/
theorem isSome_after {key : Definition} (hkey : ∀ name table, key ≠ .index name table)
    (h : (s.schema key).isSome = true) : ((after run s st).schema key).isSome = true := by
  cases st with
  | define overwrite key' body unique =>
    obtain hs | hs := after_define s overwrite key' body unique <;> rw [hs]
    · exact h
    · rw [setSchema_schema, Function.update_apply]
      split
      · rfl
      · exact h
  | removeIndex name table =>
    show (Function.update s.schema (.index name table) none key).isSome = true
    rw [Function.update_of_ne (hkey name table)]
    exact h
  | wrapSupersedes | emptySupersedes | updateMemory | backfillOccurredAt | setVersion _ =>
    rw [schema_after rfl]
    exact h

/-- A definition that is passed over when it is there lasts as long as it is there. -/
theorem lasts_define {key : Definition} {body : String}
    (h : ∀ s, (s.schema key).isSome = true → ((after run s st').schema key).isSome = true) :
    Lasts run (.define false key body none) st' := by
  have hrun : ∀ s, run s (.define false key body none) = .ok s ↔ (s.schema key).isSome = true := by
    intro s
    constructor
    · intro hs
      obtain ⟨-, -, hsome⟩ | ⟨ht, -⟩ := define_cases hs
      · exact hsome
      · rw [congrArg Disk.schema ht, setSchema_schema, Function.update_self]
        rfl
    · intro hsome
      simp [run, hsome]
  refine lasts_of (fun s hs => (hrun _).mpr (h s ((hrun s).mp hs))) fun s e hs => ?_
  simp only [run, Option.filter_none] at hs
  split at hs <;> cases hs

/-- A definition lasts after what leaves its entry and the rows it is built against alone. -/
theorem lasts_define_of_kept {overwrite : Bool} {key : Definition} {body : String}
    {unique : Option Unique} (hschema : ∀ s, (after run s st').schema key = s.schema key)
    (hrows : ∀ s, ∀ u ∈ unique, u.allows (after run s st') = u.allows s) :
    Lasts run (.define overwrite key body unique) st' := by
  have hfilter : ∀ s, unique.filter (fun u => !u.allows (after run s st')) =
      unique.filter fun u => !u.allows s := by
    intro s
    cases unique with
    | none => rfl
    | some u => simp only [Option.filter_some, hrows s u rfl]
  refine lasts_of (fun s hs => ?_) fun s e hs => ?_
  · obtain ⟨-, rfl, hsome⟩ | ⟨ht, hunique⟩ := define_cases hs
    · simp only [run, hschema, hsome, Bool.not_false, Bool.and_self, if_true]
    · have hentry : (after run s st').schema key = some body := by
        rw [hschema, congrArg Disk.schema ht, setSchema_schema, Function.update_self]
      simp only [run, hfilter, hunique, setSchema_eq_self hentry]
      split <;> rfl
  · simp only [run, hschema, hfilter] at hs ⊢
    split_ifs at hs with hold
    rw [if_neg hold]
    split at hs
    · exact hs
    · cases hs

theorem field_ne_index (name table name' table' : String) :
    Definition.field name table ≠ .index name' table' := nofun

/-- An `UPDATE` lasts after what leaves the rows and the schema fields alone. -/
theorem lasts_update {p : DiskMemory → Bool} {set : DiskMemory → DiskMemory}
    (hst : ∀ s, run s st = update s p set)
    (hmemory : ∀ s, (after run s st').memory = s.memory)
    (hfields : ∀ s name table, (after run s st').schema (.field name table) =
      s.schema (.field name table)) : Lasts run st st' := by
  have hcompute : ∀ s r, DiskMemory.compute (after run s st').schema r = r.compute s.schema := by
    intro s r
    rw [DiskMemory.compute, DiskMemory.compute, dedupKeyField, hfields]
  have hcoerces : ∀ s r, DiskMemory.coerces (after run s st').schema r = r.coerces s.schema := by
    intro s r
    simp only [DiskMemory.coerces, derivedFromField, supersedesField, hfields]
  refine lasts_of (fun s hs => ?_) fun s e hs => ?_
  · rw [hst] at hs ⊢
    rw [update_fixed_iff] at hs ⊢
    simpa only [hmemory, hcompute, hcoerces] using hs
  · rw [hst] at hs ⊢
    unfold update at hs ⊢
    simp only [hmemory, hcompute, hcoerces]
    split_ifs at hs ⊢ with hall
    exact hs

theorem lasts_removeIndex {name table : String}
    (hschema : ∀ s, (after run s st').schema (.index name table) = s.schema (.index name table)) :
    Lasts run (.removeIndex name table) st' := by
  refine lasts_of (fun s hs => ?_) fun s e hs => nomatch hs
  have hentry := congrFun (congrArg Disk.schema (Except.ok.inj hs)) (.index name table)
  rw [setSchema_schema, Function.update_self] at hentry
  simp only [run]
  rw [setSchema_eq_self ((hschema s).trans hentry.symm)]

theorem update_eq_error {p : DiskMemory → Bool} {set : DiskMemory → DiskMemory} {r : DiskMemory}
    (hr : r ∈ s.memory) (hp : p r = true)
    (h : ((set r).compute s.schema).coerces s.schema = false) :
    update s p set = .error .coercion := by
  rw [update, if_neg]
  intro hall
  have hrow := List.all_eq_true.mp hall r hr
  rw [hp, h] at hrow
  cases hrow

/-- The rows that one `UPDATE` is after are none of the other's, nor made by it. -/
theorem lasts_update_apart {p q : DiskMemory → Bool} {set set' : DiskMemory → DiskMemory}
    (hst : ∀ s, run s st = update s p set) (hst' : ∀ s, run s st' = update s q set')
    (hself : ∀ schema r, p ((set r).compute schema) = false)
    (hother : ∀ schema r, p ((set' r).compute schema) = false)
    (hapart : ∀ r, p r = true → q r = false) : Lasts run st st' := by
  have hcases : ∀ s, after run s st' = s ∨ after run s st' = { s with
      memory := s.memory.map fun r => if q r then (set' r).compute s.schema else r } := by
    intro s
    cases hs : run s st' with
    | error e => exact .inl (after_error hs)
    | ok t =>
      rw [after_ok hs]
      exact .inr (update_ok ((hst' s).symm.trans hs)).1
  refine lasts_of (fun s hs => ?_) fun s e hs => ?_
  · rw [hst, update_fixed_iff] at hs
    obtain heq | heq := hcases s
    · rw [heq, hst]
      exact update_fixed_iff.mpr hs
    rw [hst]
    refine update_fixed_iff.mpr fun r hr hp => ?_
    rw [heq] at hr
    obtain ⟨q', hq', rfl⟩ := List.mem_map.mp hr
    split at hp
    · rw [hother] at hp
      cases hp
    · -- a row that was there already, which the statement would have changed
      have hfixed := congrArg p (hs q' hq' hp).1
      rw [hself, hp] at hfixed
      cases hfixed
  · rw [hst] at hs ⊢
    obtain heq | heq := hcases s
    · rw [heq]
      exact hs
    obtain ⟨rfl, r, hr, hp, hbad⟩ := update_error hs
    rw [heq]
    refine update_eq_error (r := r) (List.mem_map.mpr ⟨r, hr, ?_⟩) hp hbad
    rw [hapart r hp]
    rfl

theorem lasts_wrap_empty : Lasts run .wrapSupersedes .emptySupersedes := by
  refine lasts_update_apart (fun _ => rfl) (fun _ => rfl) ?_ ?_ ?_
  · intro schema r
    simp [DiskMemory.setSupersedes, Supersedes.isRecord]
  · intro schema r
    simp [DiskMemory.setSupersedes, Supersedes.isRecord]
  · intro r hr
    cases h : r.supersedes <;> simp_all [Supersedes.isRecord, Supersedes.isNone]

/-! ### Batches again -/

def defines : Statement → Bool
  | .define _ _ _ _ => true
  | _ => false

/-- Two definitions, neither of them overwriting; a unique index is not defined twice. -/
def apart : Statement → Statement → Bool
  | .define false key _ unique, .define false key' _ _ => unique.isNone || decide (key ≠ key')
  | _, _ => false

theorem lasts_of_apart (h : apart st st' = true) : Lasts run st st' := by
  unfold apart at h
  split at h
  · next key body unique key' body' unique' =>
    cases unique with
    | none =>
      refine lasts_define fun s hs => ?_
      obtain heq | heq := after_define s false key' body' unique' <;> rw [heq]
      · exact hs
      · rw [setSchema_schema, Function.update_apply]
        split
        · rfl
        · exact hs
    | some u =>
      have hne : key ≠ key' := by simpa using h
      refine lasts_define_of_kept (fun s => ?_) fun s u _ => ?_
      · obtain heq | heq := after_define s false key' body' unique' <;> rw [heq]
        rw [setSchema_schema, Function.update_of_ne hne]
      · obtain heq | heq := after_define s false key' body' unique' <;> rw [heq]
        rw [allows_setSchema]
  · cases h

theorem rerunnable_of_apart {script : List Statement} (hdefines : ∀ st ∈ script, defines st = true)
    (hapart : script.Pairwise fun st st' => apart st st' = true) : Rerunnable run script := by
  refine ⟨fun st hst => settles_of_idempotent fun s t h => ?_, hapart.imp lasts_of_apart⟩
  have hst := hdefines st hst
  cases st with
  | define overwrite key body unique => exact define_idempotent h
  | _ => cases hst

theorem rerunnable_bootstrap : Rerunnable run BOOTSTRAP :=
  rerunnable_of_apart (by decide) (by decide)

theorem rerunnable_v1_schema : Rerunnable run v1_schema :=
  rerunnable_of_apart (by decide) (by decide)

theorem rerunnable_v2_derived_from : Rerunnable run v2_derived_from :=
  rerunnable_of_apart (by decide) (by decide)

theorem rerunnable_v3_supersedes_list : Rerunnable run v3_supersedes_list := by
  constructor
  · simp only [v3_supersedes_list, overwriteField, List.forall_mem_cons, List.not_mem_nil,
      false_imp_iff, implies_true, and_true]
    exact ⟨settles_of_idempotent fun s t => define_idempotent,
      settles_of_idempotent fun s t => wrapSupersedes_idempotent,
      settles_of_idempotent fun s t => emptySupersedes_idempotent⟩
  · simp only [v3_supersedes_list, overwriteField, List.pairwise_cons, List.forall_mem_cons,
      List.not_mem_nil, false_imp_iff, implies_true, and_true, List.Pairwise.nil]
    have hdefine : ∀ st, schemaKept st = true → Lasts run
        (.define true (.field "supersedes" "memory") SUPERSEDES_LIST none) st := fun st h =>
      lasts_define_of_kept (fun s => by rw [schema_after h]) fun s u hu => nomatch hu
    exact ⟨⟨hdefine _ rfl, hdefine _ rfl⟩, lasts_wrap_empty⟩

theorem rerunnable_v4_chunk_occurred_at : Rerunnable run v4_chunk_occurred_at := by
  constructor
  · simp only [v4_chunk_occurred_at, field, List.forall_mem_cons, List.not_mem_nil, false_imp_iff,
      implies_true, and_true]
    exact ⟨settles_of_idempotent fun s t => define_idempotent,
      settles_of_idempotent fun s t => backfill_idempotent⟩
  · simp only [v4_chunk_occurred_at, field, List.pairwise_cons, List.forall_mem_cons,
      List.not_mem_nil, false_imp_iff, implies_true, and_true, List.Pairwise.nil]
    exact lasts_define fun s => isSome_after fun name table => nofun

theorem rerunnable_v5_live_dedup : Rerunnable run v5_live_dedup := by
  constructor
  · simp only [v5_live_dedup, field, uniqueIndex, List.forall_mem_cons, List.not_mem_nil,
      false_imp_iff, implies_true, and_true]
    exact ⟨settles_of_idempotent fun s t => define_idempotent,
      settles_of_idempotent fun s t => updateMemory_idempotent,
      settles_of_idempotent fun s t => removeIndex_idempotent,
      settles_of_idempotent fun s t => define_idempotent⟩
  · simp only [v5_live_dedup, field, List.pairwise_cons, List.forall_mem_cons, List.not_mem_nil,
      false_imp_iff, implies_true, and_true, List.Pairwise.nil]
    have hdefine : ∀ st, Lasts run (.define false (.field "dedup_key" "memory")
        "TYPE string VALUE <string>(invalid_at ?? 'live')" none) st := fun st =>
      lasts_define fun s => isSome_after fun name table => nofun
    have hlive : ∀ s, after run s (uniqueIndex "mem_hash_live" "memory"
          "COLUMNS space, content_hash, dedup_key UNIQUE" .memHashLive) = s ∨
        after run s (uniqueIndex "mem_hash_live" "memory"
          "COLUMNS space, content_hash, dedup_key UNIQUE" .memHashLive) =
          s.setSchema (.index "mem_hash_live" "memory")
            (some "COLUMNS space, content_hash, dedup_key UNIQUE") :=
          fun s => after_define s _ _ _ _
    refine ⟨⟨hdefine _, hdefine _, hdefine _⟩, ⟨?_, ?_⟩, ?_⟩
    · refine lasts_update (fun s => rfl) (fun s => rfl) fun s name table => ?_
      show Function.update s.schema (.index "mem_hash" "memory") none (.field name table) = _
      rw [Function.update_of_ne (field_ne_index name table _ _)]
    · refine lasts_update (fun s => rfl) (fun s => ?_) fun s name table => ?_
      · obtain heq | heq := hlive s
        · exact congrArg Disk.memory heq
        · exact (congrArg Disk.memory heq).trans rfl
      · obtain heq | heq := hlive s
        · exact congrFun (congrArg Disk.schema heq) _
        · refine (congrFun (congrArg Disk.schema heq) _).trans ?_
          rw [setSchema_schema, Function.update_of_ne (field_ne_index name table _ _)]
    · refine lasts_removeIndex fun s => ?_
      obtain heq | heq := hlive s
      · exact congrFun (congrArg Disk.schema heq) _
      · refine (congrFun (congrArg Disk.schema heq) _).trans ?_
        rw [setSchema_schema, Function.update_of_ne (by decide)]

theorem rerunnable_v6_writer : Rerunnable run v6_writer :=
  rerunnable_of_apart (by decide) (by decide)

theorem rerunnable_v7_novelty : Rerunnable run v7_novelty :=
  rerunnable_of_apart (by decide) (by decide)

theorem rerunnable_v8_summary_kind : Rerunnable run v8_summary_kind :=
  rerunnable_of_apart (by decide) (List.pairwise_singleton _ _)

theorem rerunnable_v9_documents : Rerunnable run v9_documents :=
  rerunnable_of_apart (by decide) (by decide)

theorem rerunnable_of_mem {batch : List Statement} (h : batch ∈ MIGRATIONS) :
    Rerunnable run batch := by
  simp only [MIGRATIONS, List.mem_cons, List.not_mem_nil, or_false] at h
  rcases h with rfl | rfl | rfl | rfl | rfl | rfl | rfl | rfl | rfl
  · exact rerunnable_v1_schema
  · exact rerunnable_v2_derived_from
  · exact rerunnable_v3_supersedes_list
  · exact rerunnable_v4_chunk_occurred_at
  · exact rerunnable_v5_live_dedup
  · exact rerunnable_v6_writer
  · exact rerunnable_v7_novelty
  · exact rerunnable_v8_summary_kind
  · exact rerunnable_v9_documents

/-! ### The whole run again -/

def setsVersion : Statement → Bool
  | .setVersion _ => true
  | _ => false

theorem version_after (h : setsVersion st = false) :
    currentVersion (after run s st) = currentVersion s := by
  cases st with
  | define overwrite key body unique =>
    obtain heq | heq := after_define s overwrite key body unique <;> rw [heq]
    rfl
  | wrapSupersedes | emptySupersedes | updateMemory =>
    simp only [after, run]
    split
    · next hs => rw [(update_ok hs).1]; rfl
    · rfl
  | removeIndex _ _ | backfillOccurredAt => rfl
  | setVersion _ => cases h

theorem setsVersion_of_mem {batch : List Statement} (h : batch ∈ MIGRATIONS) :
    ∀ st ∈ batch, setsVersion st = false := by
  have hall : ∀ batch ∈ MIGRATIONS, ∀ st ∈ batch, setsVersion st = false := by decide
  exact hall batch h

/-- The gate is never taken down. -/
theorem lasts_bootstrap (h : st ∈ BOOTSTRAP) (st' : Statement) : Lasts run st st' := by
  simp only [BOOTSTRAP, List.mem_cons, List.not_mem_nil, or_false] at h
  rcases h with rfl | rfl | rfl | rfl | rfl | rfl <;>
    exact lasts_define fun s => isSome_after fun name table => nofun

theorem migrations_lawful : migrations.Lawful where
  bootstrap := rerunnable_bootstrap
  batches _ := rerunnable_of_mem
  lasts st hst _ _ st' _ := lasts_bootstrap hst st'
  lasts_bump st hst n := lasts_bootstrap hst (.setVersion n)
  version_batches batch hbatch st hst s := version_after (setsVersion_of_mem hbatch st hst)
  version_bump n s t h := by
    cases h
    rfl

/-! ### Rows -/

/-- The claims of a store: of each row, its text and its links. -/
def claims (s : Disk) : List (MemoryId × Text × List MemoryId) :=
  s.memory.map fun r => (r.id, r.content, r.supersedes.links)

theorem claims_update {p : DiskMemory → Bool} {set : DiskMemory → DiskMemory}
    (h : update s p set = .ok t) (hset : ∀ r, p r = true → (set r).id = r.id ∧
      (set r).content = r.content ∧ (set r).supersedes.links = r.supersedes.links) :
    claims t = claims s := by
  obtain ⟨rfl, -⟩ := update_ok h
  simp only [claims, List.map_map]
  refine List.map_congr_left fun r _ => ?_
  rw [Function.comp_apply]
  split
  · next hp =>
    obtain ⟨hid, hcontent, hlinks⟩ := hset r hp
    rw [compute_id, compute_content, compute_supersedes, hid, hcontent, hlinks]
  · rfl

theorem claims_after (s : Disk) (st : Statement) : claims (after run s st) = claims s := by
  cases h : run s st with
  | error e => rw [after_error h]
  | ok t =>
    rw [after_ok h]
    cases st with
    | define overwrite key body unique =>
      obtain ⟨rfl, -, -⟩ | ⟨rfl, -⟩ := define_cases h <;> rfl
    | wrapSupersedes => exact claims_update h fun r _ => ⟨rfl, rfl, rfl⟩
    | emptySupersedes =>
      refine claims_update h fun r hr => ⟨rfl, rfl, ?_⟩
      cases hs : r.supersedes with
      | none => rfl
      | record _ | list _ => rw [hs] at hr; cases hr
    | updateMemory => exact claims_update h fun r _ => ⟨rfl, rfl, rfl⟩
    | removeIndex _ _ | backfillOccurredAt | setVersion _ =>
      cases h
      rfl

/-- No statement loses the text or the links of a claim. -/
theorem claims_points (s : Disk) : claims (ensure s).1 = claims s ∧
    ∀ t ∈ points s, claims t = claims s := by
  have hkeep : ∀ (st : Statement) (t : Disk), claims t = claims s →
      claims (after run t st) = claims s := fun st t ht => (claims_after t st).trans ht
  refine Ladder.points_induction (L := migrations) (P := fun t => claims t = claims s)
    (fun _ _ st _ t => hkeep st t) (fun n t u hu ht => ?_) (fun st _ t => hkeep st t) rfl
  rw [← after_ok hu]
  exact hkeep _ t ht

/-! ### Stores as the schema leaves them -/

/-- What the schema of version `v` promises of the rows: a unique index has held its rows apart, a
list is only written with the evidence beside it, and from version 3 on the column is a list. -/
structure Conforms (v : ℕ) (s : Disk) : Prop where
  version : currentVersion s = v
  spaces : Unique.spaceName.allows s = true
  episodes : Unique.episodeHash.allows s = true
  hashes : v < 5 → Unique.memHash.allows s = true
  evidence : ∀ r ∈ s.memory, r.supersedes.isList = true → r.derivedFrom.isSome = true
  lists : 3 ≤ v → s.schema supersedesField = some SUPERSEDES_LIST ∧
    ∀ r ∈ s.memory, r.supersedes.isList = true

variable {v : ℕ}

theorem Conforms.setSchema (h : Conforms v s) {key : Definition} {body : Option String}
    (hkey : 3 ≤ v → key ≠ supersedesField) : Conforms v (s.setSchema key body) where
  version := h.version
  spaces := (allows_setSchema _ s key body).trans h.spaces
  episodes := (allows_setSchema _ s key body).trans h.episodes
  hashes hv := (allows_setSchema _ s key body).trans (h.hashes hv)
  evidence := h.evidence
  lists hv := by
    rw [setSchema_schema, Function.update_of_ne (hkey hv).symm]
    exact h.lists hv

/-- A definition goes through if the rows allow it. -/
theorem Conforms.define (h : Conforms v s) {overwrite : Bool} {key : Definition} {body : String}
    {unique : Option Unique} (hunique : ∀ u ∈ unique, u.allows s = true)
    (hkey : 3 ≤ v → overwrite = true → key ≠ supersedesField) :
    ∃ t, run s (.define overwrite key body unique) = .ok t ∧ Conforms v t := by
  have hfilter : unique.filter (fun u => !u.allows s) = none := by
    cases unique with
    | none => rfl
    | some u => simp [hunique u rfl]
  simp only [run, hfilter]
  split
  · exact ⟨s, rfl, h⟩
  · next hnew =>
    refine ⟨_, rfl, h.setSchema fun hv heq => ?_⟩
    subst heq
    cases overwrite with
    | true => exact hkey hv rfl rfl
    | false => simp [(h.lists hv).1] at hnew

/-- The write of the version, once the batch has done its part. -/
theorem Conforms.setVersion (h : Conforms v s) (hlists : v = 2 →
      s.schema supersedesField = some SUPERSEDES_LIST ∧
        ∀ r ∈ s.memory, r.supersedes.isList = true) :
    Conforms (v + 1) { s with schemaVersion := some (v + 1) } where
  version := rfl
  spaces := h.spaces
  episodes := h.episodes
  hashes hv := h.hashes (by omega)
  evidence := h.evidence
  lists hv := by
    by_cases hv' : v = 2
    · exact hlists hv'
    · exact h.lists (by omega)

/-- The store an `UPDATE` leaves. -/
def updateRows (s : Disk) (p : DiskMemory → Bool) (set : DiskMemory → DiskMemory) : Disk :=
  { s with memory := s.memory.map fun r => if p r then (set r).compute s.schema else r }

theorem update_eq_ok {p : DiskMemory → Bool} {set : DiskMemory → DiskMemory}
    (h : ∀ r ∈ s.memory, p r = true → (set r).coerces s.schema = true) :
    update s p set = .ok (updateRows s p set) := by
  rw [update, if_pos]
  · rfl
  · refine List.all_eq_true.mpr fun r hr => ?_
    cases hp : p r with
    | false => rfl
    | true => rw [coerces_compute, h r hr hp]; rfl

@[simp] theorem compute_space (schema : Definition → Option String) (r : DiskMemory) :
    (r.compute schema).space = r.space := by
  unfold DiskMemory.compute
  split <;> rfl

@[simp] theorem compute_contentHash (schema : Definition → Option String) (r : DiskMemory) :
    (r.compute schema).contentHash = r.contentHash := by
  unfold DiskMemory.compute
  split <;> rfl

/-- An `UPDATE` that keeps the hash of a row, and its evidence or writes it. -/
theorem Conforms.of_updateRows (h : Conforms v s) {p : DiskMemory → Bool}
    {set : DiskMemory → DiskMemory}
    (hhash : ∀ r, (set r).space = r.space ∧ (set r).contentHash = r.contentHash)
    (hevidence : ∀ r ∈ s.memory, p r = true → (set r).derivedFrom.isSome = true)
    (hlist : ∀ r ∈ s.memory, p r = true → r.supersedes.isList = true →
      (set r).supersedes.isList = true) : Conforms v (updateRows s p set) where
  version := h.version
  spaces := h.spaces
  episodes := h.episodes
  hashes hv := by
    have hmap : (updateRows s p set).memory.map (fun r => (r.space, r.contentHash)) =
        s.memory.map fun r => (r.space, r.contentHash) := by
      rw [updateRows, List.map_map]
      refine List.map_congr_left fun r _ => ?_
      rw [Function.comp_apply]
      split
      · rw [compute_space, compute_contentHash, (hhash r).1, (hhash r).2]
      · rfl
    simp only [Unique.allows, hmap]
    exact h.hashes hv
  evidence r hr hr' := by
    obtain ⟨q, hq, rfl⟩ := List.mem_map.mp hr
    by_cases hp : p q = true
    · rw [if_pos hp, compute_derivedFrom]
      exact hevidence q hq hp
    · rw [if_neg hp] at hr' ⊢
      exact h.evidence q hq hr'
  lists hv := by
    refine ⟨(h.lists hv).1, fun r hr => ?_⟩
    obtain ⟨q, hq, rfl⟩ := List.mem_map.mp hr
    split
    · next hp =>
      rw [compute_supersedes]
      exact hlist q hq hp ((h.lists hv).2 q hq)
    · exact (h.lists hv).2 q hq

/-! ### Each batch goes through -/

/-- The batch goes through, and leaves the store as the next version promises. -/
def Goes (v : ℕ) (s : Disk) (batch : List Statement) : Prop :=
  check run s batch = none ∧ ∃ t, run (finish run s batch) (.setVersion (v + 1)) = .ok t ∧
    Conforms (v + 1) t

/-- The definitions that a store of version `v` has room for. -/
def grows (v : ℕ) : Statement → Bool
  | .define overwrite key _ unique => (!overwrite || decide (key ≠ supersedesField)) &&
      decide (unique ≠ some .memHashLive) && (decide (v < 5) || decide (unique ≠ some .memHash))
  | _ => false

theorem Conforms.grow (h : Conforms v s) (hst : grows v st = true) :
    ∃ t, run s st = .ok t ∧ Conforms v t := by
  cases st with
  | define overwrite key body unique =>
    simp only [grows, Bool.and_eq_true, Bool.or_eq_true, Bool.not_eq_true',
      decide_eq_true_eq] at hst
    obtain ⟨⟨hkey, hlive⟩, hhash⟩ := hst
    refine h.define (fun u hu => ?_) fun _ hoverwrite => ?_
    · obtain rfl := Option.mem_def.mp hu
      cases u with
      | spaceName => exact h.spaces
      | episodeHash => exact h.episodes
      | memHash => exact h.hashes (hhash.resolve_right fun hne => hne rfl)
      | memHashLive => exact absurd rfl hlive
    · obtain hfalse | hne := hkey
      · rw [hfalse] at hoverwrite
        cases hoverwrite
      · exact hne
  | _ => cases hst

theorem goes_of_grows (batch : List Statement) (h : Conforms v s) (hv : v ≠ 2)
    (hbatch : ∀ st ∈ batch, grows v st = true) : Goes v s batch := by
  obtain ⟨hcheck, hfinish⟩ := finish_ok (P := Conforms v)
    (fun st hst s hs => hs.grow (hbatch st hst)) h
  exact ⟨hcheck, _, rfl, hfinish.setVersion fun hv' => absurd hv' hv⟩

theorem coerces_setSupersedes {schema : Definition → Option String}
    (h : schema supersedesField = some SUPERSEDES_LIST) (ids : List MemoryId) (r : DiskMemory) :
    (r.setSupersedes ids).coerces schema = true := by
  simp [DiskMemory.coerces, DiskMemory.setSupersedes, h, Supersedes.isList]

/-- The redefined column is filled by two `UPDATE`s, which leave no row in the old shape. -/
theorem goes_v3 (h : Conforms 2 s) : Goes 2 s v3_supersedes_list := by
  let a := s.setSchema supersedesField (some SUPERSEDES_LIST)
  let b := updateRows a (fun r => r.supersedes.isRecord) fun r => r.setSupersedes r.supersedes.links
  let c := updateRows b (fun r => r.supersedes.isNone) (DiskMemory.setSupersedes [])
  have htyped : a.schema supersedesField = some SUPERSEDES_LIST := by
    rw [setSchema_schema, Function.update_self]
  have hdefine : run s (overwriteField "supersedes" "memory" SUPERSEDES_LIST) = .ok a := rfl
  have hwrap : run a .wrapSupersedes = .ok b :=
    update_eq_ok fun r _ _ => coerces_setSupersedes htyped _ r
  have hempty : run b .emptySupersedes = .ok c :=
    update_eq_ok fun r _ _ => coerces_setSupersedes htyped _ r
  have ha : Conforms 2 a := h.setSchema fun hv => absurd hv (by decide)
  have hb : Conforms 2 b :=
    ha.of_updateRows (fun r => ⟨rfl, rfl⟩) (fun _ _ _ => rfl) fun _ _ _ _ => rfl
  have hc : Conforms 2 c :=
    hb.of_updateRows (fun r => ⟨rfl, rfl⟩) (fun _ _ _ => rfl) fun _ _ _ _ => rfl
  have hlists : ∀ r ∈ c.memory, r.supersedes.isList = true := by
    intro r hr
    obtain ⟨q, hq, rfl⟩ := List.mem_map.mp hr
    obtain ⟨o, -, rfl⟩ := List.mem_map.mp hq
    cases ho : o.supersedes <;>
      simp [ho, DiskMemory.setSupersedes, Supersedes.isRecord, Supersedes.isNone, Supersedes.isList]
  have hfinish : finish run s v3_supersedes_list = c := by
    simp only [v3_supersedes_list, finish_cons, finish_nil, after_ok hdefine, after_ok hwrap,
      after_ok hempty]
  have hcheck : check run s v3_supersedes_list = none := by
    simp only [v3_supersedes_list, check_cons, check_nil, after_ok hdefine, outcome_ok hdefine,
      after_ok hwrap, outcome_ok hwrap, outcome_ok hempty, Option.or_none]
  refine ⟨hcheck, { c with schemaVersion := some 3 }, ?_, ?_⟩
  · rw [hfinish]
    rfl
  · exact hc.setVersion fun _ => ⟨htyped, hlists⟩

theorem goes_v4 (h : Conforms 3 s) : Goes 3 s v4_chunk_occurred_at := by
  have hstep : ∀ st ∈ v4_chunk_occurred_at, ∀ s, Conforms 3 s →
      ∃ t, run s st = .ok t ∧ Conforms 3 t := by
    intro st hst s hs
    simp only [v4_chunk_occurred_at, List.mem_cons, List.not_mem_nil, or_false] at hst
    obtain rfl | rfl := hst
    · exact hs.grow rfl
    · exact ⟨_, rfl, hs.version, hs.spaces, hs.episodes, hs.hashes, hs.evidence, hs.lists⟩
  obtain ⟨hcheck, hfinish⟩ := finish_ok hstep h
  exact ⟨hcheck, _, rfl, hfinish.setVersion fun hv => absurd hv (by decide)⟩

theorem nodup_filterMap {α β γ : Type*} {f : α → β} {g : α → Option γ} {p : γ → β}
    (hg : ∀ a c, g a = some c → p c = f a) {l : List α} (h : (l.map f).Nodup) :
    (l.filterMap g).Nodup := by
  induction l with
  | nil => exact List.nodup_nil
  | cons a l ih =>
    rw [List.map_cons, List.nodup_cons] at h
    cases ha : g a with
    | none =>
      rw [List.filterMap_cons_none ha]
      exact ih h.2
    | some c =>
      rw [List.filterMap_cons_some ha, List.nodup_cons]
      refine ⟨fun hmem => h.1 ?_, ih h.2⟩
      obtain ⟨b, hb, hc⟩ := List.mem_filterMap.mp hmem
      exact List.mem_map.mpr ⟨b, hb, (hg b c hc).symm.trans (hg a c ha)⟩

/-- Rows that were held apart by their hash stay apart with the closing time beside it. -/
theorem Conforms.live (h : Conforms 4 s) : Unique.memHashLive.allows s = true := by
  have hhashes := h.hashes (by decide)
  simp only [Unique.allows, decide_eq_true_eq] at hhashes ⊢
  refine nodup_filterMap (p := fun k => (k.1, k.2.1)) ?_ hhashes
  intro r k hk
  obtain ⟨key, -, rfl⟩ := Option.map_eq_some_iff.mp hk
  rfl

theorem goes_v5 (h : Conforms 4 s) : Goes 4 s v5_live_dedup := by
  have hstep : ∀ st ∈ v5_live_dedup, ∀ s, Conforms 4 s → ∃ t, run s st = .ok t ∧ Conforms 4 t := by
    intro st hst s hs
    obtain ⟨htyped, hlist⟩ := hs.lists (by decide)
    simp only [v5_live_dedup, List.mem_cons, List.not_mem_nil, or_false] at hst
    obtain rfl | rfl | rfl | rfl := hst
    · exact hs.grow rfl
    · refine ⟨_, update_eq_ok fun r hr _ => ?_, hs.of_updateRows (fun r => ⟨rfl, rfl⟩)
        (fun r hr _ => hs.evidence r hr (hlist r hr)) fun r _ _ h => h⟩
      simp [DiskMemory.coerces, htyped, hlist r hr, hs.evidence r hr (hlist r hr)]
    · exact ⟨_, rfl, hs.setSchema fun _ => nofun⟩
    · refine hs.define (fun u hu => ?_) fun _ hoverwrite => nomatch hoverwrite
      obtain rfl := Option.some.inj hu
      exact hs.live
  obtain ⟨hcheck, hfinish⟩ := finish_ok hstep h
  exact ⟨hcheck, _, rfl, hfinish.setVersion fun hv => absurd hv (by decide)⟩

theorem goes (hv : v < MIGRATIONS.length) (h : Conforms v s) : Goes v s MIGRATIONS[v] := by
  match v, hv with
  | 0, _ => exact goes_of_grows v1_schema h (by decide) (by decide)
  | 1, _ => exact goes_of_grows v2_derived_from h (by decide) (by decide)
  | 2, _ => exact goes_v3 h
  | 3, _ => exact goes_v4 h
  | 4, _ => exact goes_v5 h
  | 5, _ => exact goes_of_grows v6_writer h (by decide) (by decide)
  | 6, _ => exact goes_of_grows v7_novelty h (by decide) (by decide)
  | 7, _ => exact goes_of_grows v8_summary_kind h (by decide) (by decide)
  | 8, _ => exact goes_of_grows v9_documents h (by decide) (by decide)

/-! ### The whole run -/

theorem rows_of_lists (hlist : ∀ r ∈ t.memory, r.supersedes.isList = true)
    (hclaims : claims t = claims s) :
    (t.memory.map fun r => (r.id, r.content, r.supersedes)) =
      s.memory.map fun r => (r.id, r.content, Supersedes.list r.supersedes.links) := by
  calc t.memory.map (fun r => (r.id, r.content, r.supersedes))
      = (claims t).map fun c => (c.1, c.2.1, Supersedes.list c.2.2) := by
        rw [claims, List.map_map]
        refine List.map_congr_left fun r hr => ?_
        have hr := hlist r hr
        cases hs : r.supersedes with
        | list ids => simp [hs, Supersedes.links]
        | none | record _ => rw [hs] at hr; cases hr
    _ = s.memory.map fun r => (r.id, r.content, Supersedes.list r.supersedes.links) := by
        rw [hclaims, claims, List.map_map]
        rfl

theorem conforms_bootstrap (h : Conforms v s) :
    check run s BOOTSTRAP = none ∧ Conforms v (finish run s BOOTSTRAP) := by
  have hgrows : ∀ st ∈ BOOTSTRAP, grows v st = true := by
    simp [BOOTSTRAP, table, field, grows]
  exact finish_ok (fun st hst s hs => hs.grow (hgrows st hst)) h

/-- On rows as the schema promises them, the run goes through, unless the store is of a newer
version, and every row ends with its links in a list. -/
theorem ensure_conforming (h : Conforms v s) :
    ((ensure s).1.memory.map fun r => (r.id, r.content, r.supersedes)) =
      (s.memory.map fun r => (r.id, r.content, Supersedes.list r.supersedes.links)) ∧
    (v ≤ SCHEMA_VERSION → (ensure s).2 = .ok SCHEMA_VERSION) := by
  obtain ⟨hcheck, hboot⟩ := conforms_bootstrap h
  have hclaims := (claims_points s).1
  by_cases hnew : MIGRATIONS.length < v
  · have hensure : (ensure s).1 = finish run s BOOTSTRAP := by
      simp only [ensure, Ladder.ensure, migrations, hcheck, hboot.version, if_pos hnew]
    have hv : 3 ≤ v := le_trans (by decide) hnew.le
    refine ⟨rows_of_lists ?_ hclaims, fun hv => absurd hnew (Nat.not_lt.mpr hv)⟩
    rw [hensure]
    exact (hboot.lists hv).2
  · obtain ⟨t, hclimb, ht⟩ := Ladder.climb_ok (L := migrations) (P := Conforms)
      (fun v hv s hs => goes hv hs) (MIGRATIONS.drop v) _ v rfl (Nat.not_lt.mp hnew) hboot
    have hensure : ensure s = (t, .ok SCHEMA_VERSION) := by
      simp only [ensure, Ladder.ensure, migrations, hcheck, hboot.version, if_neg hnew] at hclimb ⊢
      exact hclimb
    rw [hensure] at hclaims
    rw [hensure]
    exact ⟨rows_of_lists (ht.lists (by decide)).2 hclaims, fun _ => rfl⟩

/-- Cut off between any two statements and started again, the migrations end in the same schema and
the same rows, with the same answer, as a run that is not cut off; no claim loses its text or a link
on the way; and on rows as the schema promises them the run goes through, one link becoming a list
of one, none the empty list and a list staying as it is. -/
theorem ensure_again (s : Disk) : (∀ t ∈ points s, ensure t = ensure s ∧ claims t = claims s) ∧
    claims (ensure s).1 = claims s ∧
    (Conforms (currentVersion s) s →
      ((ensure s).1.memory.map fun r => (r.id, r.content, r.supersedes)) =
        (s.memory.map fun r => (r.id, r.content, Supersedes.list r.supersedes.links)) ∧
      (currentVersion s ≤ SCHEMA_VERSION → (ensure s).2 = .ok SCHEMA_VERSION)) := by
  obtain ⟨hend, hpoints⟩ := claims_points s
  exact ⟨fun t ht => ⟨migrations_lawful.ensure_resume ht, hpoints t ht⟩, hend, ensure_conforming⟩

/-- A store of version 2 on which the third batch has stopped after its first statement, with a row
of each shape. -/
def half : Disk where
  schemaVersion := some 2
  schema := Function.update (fun _ => none) supersedesField (some SUPERSEDES_LIST)
  space := []
  episode := []
  episodeChunk := []
  memory := [⟨⟨1⟩, [], ['a'], ['1'], none, .record ⟨0⟩, none, none⟩,
    ⟨⟨2⟩, [], ['b'], ['2'], none, .none, none, none⟩,
    ⟨⟨3⟩, [], ['c'], ['3'], none, .list [⟨1⟩], some [], none⟩]

theorem half_conforms : Conforms (currentVersion half) half where
  version := rfl
  spaces := by decide
  episodes := by decide
  hashes _ := by decide
  evidence := by decide
  lists h := absurd h (by decide)

theorem ensure_again_half :
    ensure ((points half).get ⟨8, by decide +kernel⟩) = ensure half ∧
    ((ensure half).1.memory.map fun r => (r.id, r.content, r.supersedes)) =
      [(⟨1⟩, ['a'], .list [⟨0⟩]), (⟨2⟩, ['b'], .list []), (⟨3⟩, ['c'], .list [⟨1⟩])] ∧
    (ensure half).2 = .ok 9 := by
  obtain ⟨hpoints, -, hrows⟩ := ensure_again half
  obtain ⟨hrows, hok⟩ := hrows half_conforms
  exact ⟨(hpoints _ (List.get_mem _ _)).1, hrows, hok (by decide)⟩

end Agmem.Store.Upgrade
