import Agmem.Store.Read
import Agmem.Store.Heads

/-! Walks along the links of a store. What a row superseded points back at it, so a walk
back over stored rows can be walked forward again. The chain of a row is read in full
when the walk meets no link twice and finds every link it meets; where no link is missing
and none goes round, that is so for every row. -/

namespace Agmem.Store

open Core Relational Links Heads

variable {links : Linking → Prop} {db db' : Db}

theorem supersedesOf_eq {r : MemoryRecord} (hr : r ∈ db.memory) :
    supersedesOf db r.id = r.supersedes := by
  rw [supersedesOf, Table.get?_eq_some.mpr ⟨hr, key_memory r⟩]
  rfl

theorem supersededByOf_eq {r : MemoryRecord} (hr : r ∈ db.memory) :
    supersededByOf db r.id = r.supersededBy.toList := by
  rw [supersededByOf, Table.get?_eq_some.mpr ⟨hr, key_memory r⟩]
  rfl

theorem eq_of_mem_supersededByOf {a b c : MemoryId} (hb : b ∈ supersededByOf db a)
    (hc : c ∈ supersededByOf db a) : b = c := by
  rw [supersededByOf, Option.mem_toList] at hb hc
  exact Option.some.inj (hb.symm.trans hc)

/-- What a row superseded points back at it, if it is still there. -/
theorem supersededByOf_eq_of_mem (hl : LinkedBack db) {a b : MemoryId}
    (hb : b ∈ supersedesOf db a) (hstored : ∃ r ∈ db.memory, r.id = b) :
    supersededByOf db b = [a] := by
  obtain ⟨y, hy, rfl, hxy⟩ := mem_supersedesOf.mp hb
  obtain ⟨x, hx, rfl⟩ := hstored
  rw [supersededByOf_eq hx, (hl x hx y hy hxy).1]
  rfl

/-- A walk back over stored rows can be walked forward again. -/
theorem walk_forward (hl : LinkedBack db) {k : ℕ} {a b : MemoryId}
    (hw : Walk (supersedesOf db) k a b)
    (hstored : ∀ j < k, ∀ q, Walk (supersedesOf db) (j + 1) a q → ∃ r ∈ db.memory, r.id = q) :
    Walk (supersededByOf db) k b a := by
  induction k generalizing a with
  | zero => exact hw.symm
  | succ k ih =>
    obtain ⟨c, hc, hw⟩ := hw
    have hback := supersededByOf_eq_of_mem hl hc (hstored 0 (Nat.succ_pos k) c (.single hc))
    refine (ih hw fun j hj q hq => hstored (j + 1) (Nat.succ_lt_succ hj) q (.cons hc hq)).snoc ?_
    rw [hback]
    exact List.mem_singleton_self a

/-! ### Whole chains -/

/-- The walk from `id` meets no link twice, and every link it meets is stored. -/
structure Whole (db : Db) (id : MemoryId) : Prop where
  nodup : (chainRow db id).ids.Nodup
  stored : ∀ q, OnChain db id q → ∃ r ∈ db.memory, r.id = q

theorem historyChain_isOk_iff {space : SpaceName} {id : MemoryId} :
    (∃ rows, historyChain db space id = .ok rows) ↔ InSpace db.memory space [id] ∧ Whole db id := by
  constructor
  · rintro ⟨rows, h⟩
    obtain ⟨hin, hnd, hids, hstored⟩ := historyChain_ok_iff.mp h
    refine ⟨hin, hnd, fun q hq => ?_⟩
    rw [← mem_chainRow_ids, ← hids] at hq
    obtain ⟨r, hr, rfl⟩ := List.mem_map.mp hq
    exact ⟨r, hstored r hr, rfl⟩
  · rintro ⟨hin, hnd, hstored⟩
    -- every id of the walk has its row
    have hrows : ∀ ids : List MemoryId, (∀ q ∈ ids, ∃ r ∈ db.memory, r.id = q) →
        ∃ rows : List MemoryRecord, rows.map MemoryRecord.id = ids ∧ ∀ r ∈ rows, r ∈ db.memory := by
      intro ids
      induction ids with
      | nil => exact fun _ => ⟨[], rfl, fun r hr => absurd hr List.not_mem_nil⟩
      | cons q ids ih =>
        intro hq
        obtain ⟨⟨r, hr, rfl⟩, hids⟩ := List.forall_mem_cons.mp hq
        obtain ⟨rows, rfl, hmem⟩ := ih hids
        exact ⟨r :: rows, rfl, List.forall_mem_cons.mpr ⟨hr, hmem⟩⟩
    obtain ⟨rows, hids, hmem⟩ := hrows _ fun q hq => hstored q (mem_chainRow_ids.mp hq)
    exact ⟨rows, historyChain_ok_iff.mpr ⟨hin, hnd, hids, hmem⟩⟩

theorem nodup_chainRow_iff {id : MemoryId} : (chainRow db id).ids.Nodup ↔
    id ∉ collect (supersedesOf db) MAX_CHAIN id ∧ id ∉ collect (supersededByOf db) MAX_CHAIN id ∧
      ∀ q ∈ collect (supersedesOf db) MAX_CHAIN id,
        q ∉ collect (supersededByOf db) MAX_CHAIN id := by
  have hback := collect_nodup (supersedesOf db) MAX_CHAIN id
  have hforth := collect_nodup (supersededByOf db) MAX_CHAIN id
  simp only [chainRow, List.append_assoc, List.singleton_append, List.nodup_append,
    List.nodup_cons, List.nodup_reverse, List.mem_reverse, List.mem_cons, hback, hforth,
    true_and, and_true]
  constructor
  · rintro ⟨hf, hd⟩
    exact ⟨fun h => hd id h id (.inl rfl) rfl, hf, fun q hq hq' => hd q hq q (.inr hq') rfl⟩
  · rintro ⟨hb, hf, hd⟩
    refine ⟨hf, ?_⟩
    rintro q hq _ (rfl | hq') rfl
    · exact hb hq
    · exact hd q hq hq'

/-- Whether a walk is whole can be read off the list of what it meets. -/
theorem Whole.of_ids {a b : MemoryId} (h : Whole db b)
    (hids : (chainRow db a).ids = (chainRow db b).ids) : Whole db a where
  nodup := by
    rw [hids]
    exact h.nodup
  stored q hq := by
    rw [← mem_chainRow_ids, hids, mem_chainRow_ids] at hq
    exact h.stored q hq

/-- Every link of a stored row names a stored row. -/
structure Closed (db : Db) : Prop where
  supersededBy : Targeted db
  supersedes : ∀ r ∈ db.memory, ∀ id ∈ r.supersedes, ∃ q ∈ db.memory, q.id = id

theorem closed_empty (dimension : ℕ) : Closed (Db.empty dimension) :=
  ⟨fun r hr => absurd hr (Table.not_mem_empty r), fun r hr => absurd hr (Table.not_mem_empty r)⟩

/-- A change keeps the rows there are, and links only to rows that are stored after it. -/
theorem closed_change (h : Change links db db') (hc : Closed db) : Closed db' := by
  have hkept {id : MemoryId} (hq : ∃ q ∈ db.memory, q.id = id) : ∃ q ∈ db'.memory, q.id = id := by
    obtain ⟨q, hq, rfl⟩ := hq
    obtain ⟨q', hq', he⟩ := h.kept q hq
    exact ⟨q', hq', he.id⟩
  refine ⟨targeted_change h hc.supersededBy, fun r' hr' id hid => hkept ?_⟩
  rcases h.inherits_or_created with hi | ⟨-, space, m, new, hm, hin, h⟩
  · obtain ⟨r, hr, he⟩ := hi r' hr'
    exact hc.supersedes r hr id (he.supersedes ▸ hid)
  · cases h with
    | created _ _ _ _ _ _ _ rows =>
      rcases (mem_of_rows_map_append rows).mp hr' with ⟨r, hr, rfl⟩ | rfl
      · exact hc.supersedes r hr id (closing_supersedes ▸ hid)
      · obtain ⟨q, hq, hqid, -⟩ := hin id (hm.supersedes ▸ hid)
        exact ⟨q, hq, hqid⟩

/-- A walk over links that name stored rows stays among them. -/
theorem walk_stored {links : MemoryId → List MemoryId}
    (h : ∀ r ∈ db.memory, ∀ id ∈ links r.id, ∃ q ∈ db.memory, q.id = id) {k : ℕ} {a b : MemoryId}
    (ha : ∃ r ∈ db.memory, r.id = a) (hw : Walk links k a b) : ∃ q ∈ db.memory, q.id = b := by
  induction k generalizing a with
  | zero => cases hw; exact ha
  | succ k ih =>
    obtain ⟨c, hc, hw⟩ := hw
    obtain ⟨r, hr, rfl⟩ := ha
    exact ih (h r hr c hc) hw

theorem Closed.back {k : ℕ} {a b : MemoryId} (hc : Closed db) (ha : ∃ r ∈ db.memory, r.id = a)
    (hw : Walk (supersedesOf db) k a b) : ∃ q ∈ db.memory, q.id = b :=
  walk_stored (fun r hr id hid => hc.supersedes r hr id (supersedesOf_eq hr ▸ hid)) ha hw

theorem Closed.forth {k : ℕ} {a b : MemoryId} (hc : Closed db) (ha : ∃ r ∈ db.memory, r.id = a)
    (hw : Walk (supersededByOf db) k a b) : ∃ q ∈ db.memory, q.id = b := by
  refine walk_stored (fun r hr id hid => hc.supersededBy r hr id ?_) ha hw
  rwa [supersededByOf_eq hr, Option.mem_toList] at hid

/-- A step forward is a step to the successor. -/
theorem transGen_of_walk {k : ℕ} {a b : MemoryId} (hw : Walk (supersededByOf db) (k + 1) a b) :
    Relation.TransGen (Link (successor db)) a b := by
  refine Relation.TransGen.mono (fun x y hxy => ?_) a b hw.transGen
  rwa [supersededByOf, Option.mem_toList] at hxy

/-- Where no link is missing and none goes round, every chain is whole. -/
theorem Closed.whole (hc : Closed db) (hl : LinkedBack db) (hacyclic : Acyclic (successor db))
    {r : MemoryRecord} (hr : r ∈ db.memory) : Whole db r.id := by
  have hforward {k : ℕ} {q : MemoryId} (hw : Walk (supersedesOf db) k r.id q) :
      Walk (supersededByOf db) k q r.id :=
    walk_forward hl hw fun _ _ _ hq => hc.back ⟨r, hr, rfl⟩ hq
  refine ⟨nodup_chainRow_iff.mpr ⟨fun h => ?_, fun h => ?_, fun q hq hq' => ?_⟩, ?_⟩
  · obtain ⟨k, -, hw⟩ := mem_collect.mp h
    exact hacyclic r.id (transGen_of_walk (hforward hw))
  · obtain ⟨k, -, hw⟩ := mem_collect.mp h
    exact hacyclic r.id (transGen_of_walk hw)
  · obtain ⟨k, -, hw⟩ := mem_collect.mp hq
    obtain ⟨j, -, hw'⟩ := mem_collect.mp hq'
    exact hacyclic r.id ((transGen_of_walk hw').trans (transGen_of_walk (hforward hw)))
  · rintro q (rfl | ⟨k, -, hw⟩ | ⟨k, -, hw⟩)
    · exact ⟨r, hr, rfl⟩
    · exact hc.back ⟨r, hr, rfl⟩ hw
    · exact hc.forth ⟨r, hr, rfl⟩ hw

/-- Stored links that run back the way they came make a walk that never comes round. -/
theorem Whole.forward {id q : MemoryId} (h : Whole db id) (hl : LinkedBack db) {k : ℕ}
    (hk : k < MAX_CHAIN) (hw : Walk (supersedesOf db) (k + 1) id q) :
    Walk (supersededByOf db) (k + 1) q id :=
  walk_forward hl hw fun j hj q' hq' => h.stored q' (.inr (.inl ⟨j, by omega, hq'⟩))

theorem Whole.not_ahead {id q : MemoryId} (h : Whole db id) {k : ℕ} (hk : k < MAX_CHAIN)
    (hw : Walk (supersedesOf db) (k + 1) id q) {j : ℕ} (hj : j < MAX_CHAIN) :
    ¬ Walk (supersededByOf db) (j + 1) id q :=
  fun hw' => (nodup_chainRow_iff.mp h.nodup).2.2 q (mem_collect.mpr ⟨k, hk, hw⟩)
    (mem_collect.mpr ⟨j, hj, hw'⟩)

theorem Whole.not_cycle {id : MemoryId} (h : Whole db id) {j : ℕ} (hj : j < MAX_CHAIN) :
    ¬ Walk (supersededByOf db) (j + 1) id id :=
  fun hw => (nodup_chainRow_iff.mp h.nodup).2.1 (mem_collect.mpr ⟨j, hj, hw⟩)

end Agmem.Store
