import Agmem.Store.Op
import Mathlib.Data.List.Chain

/-! What a row that lists another in `supersedes` says about it: it closed that row, at
its own start. So a list of stored rows, each superseding exactly the one before it, is
a chain that can be walked either way, and no row is met twice along it. -/

namespace Agmem.Store

open Core Relational

/-- A stored row that another one names was closed by it, at its start. -/
def LinkedBack (db : Db) : Prop :=
  ∀ x ∈ db.memory, ∀ y ∈ db.memory, x.id ∈ y.supersedes →
    x.supersededBy = some y.id ∧ x.invalidAt = some y.validFrom

variable {db db' : Db}

/-- Old closings are still there. -/
theorem LinkedBack.inherits (hl : LinkedBack db) (h : Inherits db.memory db'.memory) :
    LinkedBack db' := by
  intro x' hx' y' hy' hxy
  obtain ⟨x, hx, hex⟩ := h x' hx'
  obtain ⟨y, hy, hey⟩ := h y' hy'
  rw [hex.id, hey.supersedes] at hxy
  obtain ⟨hby, hat⟩ := hl x hx y hy hxy
  obtain ⟨hat', -, hby'⟩ := hex.closed (by rw [MemoryRecord.isLive, hat]; rfl)
  rw [hby', hat', hby, hat, hey.id, hey.validFrom]
  exact ⟨rfl, rfl⟩

theorem linkedBack_change {links : Linking → Prop} (h : Change links db db') (hw : db.WellFormed)
    (hl : LinkedBack db) : LinkedBack db' := by
  rcases h.inherits_or_created with hi | ⟨-, space, m, id, hm, hin, h⟩
  · exact hl.inherits hi
  cases h with
  | @created source now t _ _ _ targets _ rows =>
    intro x' hx' y' hy' hxy
    rcases (mem_of_rows_map_append rows).mp hx' with ⟨x, hx, rfl⟩ | rfl
    · rw [closing_id] at hxy
      rcases (mem_of_rows_map_append rows).mp hy' with ⟨y, hy, rfl⟩ | rfl
      · rw [closing_supersedes] at hxy
        obtain ⟨hby, hat⟩ := hl x hx y hy hxy
        rw [closing_of_closed (by rw [MemoryRecord.isLive, hat]; rfl), closing_id,
          closing_validFrom]
        exact ⟨hby, hat⟩
      · have hT : x.id ∈ m.old := hm.supersedes ▸ hxy
        obtain ⟨q, hq, hqid, hql⟩ := targets x.id hT
        rw [Table.eq_of_key hq hx hqid] at hql
        rw [closing_of_mem hql hT]
        exact ⟨rfl, rfl⟩
    · -- the id of a new row is in no list written before it, nor in its own
      rcases (mem_of_rows_map_append rows).mp hy' with ⟨y, hy, rfl⟩ | rfl
      · rw [closing_supersedes] at hxy
        exact absurd (hw.supersedes y hy _ hxy) (lt_irrefl _)
      · have hT : (⟨db.minted⟩ : MemoryId) ∈ m.old := by rw [← hm.supersedes]; exact hxy
        obtain ⟨q, hq, hqid, -⟩ := hin _ hT
        have hlt := hw.memory q hq
        rw [hqid] at hlt
        exact absurd hlt (lt_irrefl db.minted)

theorem linkedBack_reachable [Hashing] (h : db.Reachable) : LinkedBack db :=
  h.of_changes (fun _ r hr => absurd hr (Table.not_mem_empty r)) (fun _ _ _ => linkedBack_change)
    fun _ _ he _ hl => hl.inherits he.inherits

/-- No row lists another twice: the statement that closes the targets of a block counts them. -/
theorem supersedes_nodup [Hashing] (h : db.Reachable) : ∀ r ∈ db.memory, r.supersedes.Nodup := by
  let Lists (db : Db) : Prop := ∀ r ∈ db.memory, r.supersedes.Nodup
  refine h.of_changes (I := Lists) (fun _ r hr => absurd hr (Table.not_mem_empty r))
    (fun _ db db' hc _ hnd => ?_) fun db db' he _ hnd => ?_
  · intro r' hr'
    rcases hc.inherits_or_created with hi | ⟨-, space, m, id, hm, -, hwrote⟩
    · obtain ⟨r, hr, hev⟩ := hi r' hr'
      exact hev.supersedes ▸ hnd r hr
    · cases hwrote with
      | created _ _ _ _ nodup _ _ rows =>
        rcases (mem_of_rows_map_append rows).mp hr' with ⟨r, hr, rfl⟩ | rfl
        · rw [closing_supersedes]
          exact hnd r hr
        · rwa [← hm.supersedes] at nodup
  · intro r' hr'
    obtain ⟨r, hr, hev⟩ := he.inherits r' hr'
    exact hev.supersedes ▸ hnd r hr

/-! ### Chains -/

/-- Stored rows, each superseding exactly the one before it, the last of them superseded by none. -/
structure Chained (db : Db) (rows : List MemoryRecord) : Prop where
  stored : ∀ r ∈ rows, r ∈ db.memory
  links : rows.IsChain fun x y => y.supersedes = [x.id]
  last : ∀ r, rows.getLast? = some r → r.supersededBy = none

theorem Chained.tail {r : MemoryRecord} {rows : List MemoryRecord} (h : Chained db (r :: rows)) :
    Chained db rows where
  stored q hq := h.stored q (List.mem_cons_of_mem _ hq)
  links := h.links.tail
  last q hq := h.last q (by
    cases rows with
    | nil => simp at hq
    | cons q' qs => simpa using hq)

/-- The successor of a link is the next one, and closed it at its own start. -/
theorem Chained.next {rows : List MemoryRecord} (h : Chained db rows) (hl : LinkedBack db) {i : ℕ}
    {x y : MemoryRecord} (hx : rows[i]? = some x) (hy : rows[i + 1]? = some y) :
    x.supersededBy = some y.id ∧ x.invalidAt = some y.validFrom := by
  obtain ⟨hi, rfl⟩ := List.getElem?_eq_some_iff.mp hx
  obtain ⟨hi', rfl⟩ := List.getElem?_eq_some_iff.mp hy
  refine hl _ (h.stored _ (List.getElem_mem hi)) _ (h.stored _ (List.getElem_mem hi')) ?_
  rw [List.isChain_iff_getElem.mp h.links i hi']
  exact List.mem_singleton_self _

/-- No row is met twice along a chain. -/
theorem Chained.nodup {rows : List MemoryRecord} (h : Chained db rows) (hl : LinkedBack db) :
    rows.Nodup := by
  induction rows with
  | nil => exact List.nodup_nil
  | cons x rows ih =>
    have hnd := ih h.tail
    refine List.nodup_cons.mpr ⟨fun hx => ?_, hnd⟩
    obtain ⟨j, hj, hjx⟩ := List.mem_iff_getElem.mp hx
    have hj₁ : (x :: rows)[j + 1]? = some x := by simp [hj, hjx]
    have h₀ : (x :: rows)[0 + 1]? = some rows[0] := by simp
    have hnext : x.supersededBy = some rows[0].id := (h.next hl (x := x) (by simp) h₀).1
    by_cases hlast : j + 1 < rows.length
    · have hj₂ : (x :: rows)[j + 1 + 1]? = some rows[j + 1] := by simp [hlast]
      have he := ((h.next hl hj₁ hj₂).1).symm.trans hnext
      have hr : rows[j + 1] = rows[0] :=
        Table.eq_of_key (h.tail.stored _ (List.getElem_mem _))
          (h.tail.stored _ (List.getElem_mem _)) (Option.some.inj he)
      have := (List.Nodup.getElem_inj_iff hnd).mp hr
      omega
    · have hend : (x :: rows).getLast? = some x := by
        have hlen : (x :: rows).length - 1 = j + 1 := by
          rw [List.length_cons]
          omega
        rw [List.getLast?_eq_getElem?, hlen]
        exact hj₁
      rw [h.last x hend] at hnext
      cases hnext

end Agmem.Store
