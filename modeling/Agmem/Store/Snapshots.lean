import Agmem.Store.Search
import Mathlib.Data.List.Dedup

/-! Reads while rows are purged. Each statement of a script reads the store as it is then, so a row
that one statement listed may be gone when the last one fetches it. The pairing by id takes a
missing row for an error, and the whole read fails; only the live vectors are fetched, rows and
vectors, by one statement, which leaves out the same rows in both. -/

namespace Agmem.Store.Snapshots

open Core Relational Transition Scripts

/-! ### Purges meanwhile -/

/-- The rest of the world: a purge of any rows is committed. -/
def purges (db : Db) (request : Forget) : Option Db := some (forgetPurge db request).1

/-- The memories and chunks of the one store are among those of the other. -/
def Shrinks (s t : Db) : Prop :=
  (∀ r ∈ t.memory, r ∈ s.memory) ∧ ∀ c ∈ t.episodeChunk, c ∈ s.episodeChunk

variable {db s t : Db}

theorem Shrinks.refl (s : Db) : Shrinks s s := ⟨fun _ h => h, fun _ h => h⟩

theorem Shrinks.trans {u : Db} (h : Shrinks s t) (h' : Shrinks t u) : Shrinks s u :=
  ⟨fun r hr => h.1 r (h'.1 r hr), fun c hc => h.2 c (h'.2 c hc)⟩

theorem purges_shrinks {request : Forget} (h : purges s request = some t) : Shrinks s t := by
  cases h
  exact ⟨fun r hr => (Table.mem_deleteKeys.mp hr).1, fun c hc => (Table.mem_delete.mp hc).1⟩

theorem Shrinks.get? (h : Shrinks s t) {id : MemoryId} {r : MemoryRecord}
    (hr : t.memory.get? id = some r) : s.memory.get? id = some r := by
  obtain ⟨hr, hid⟩ := Table.get?_eq_some.mp hr
  exact Table.get?_eq_some.mpr ⟨h.1 r hr, hid⟩

theorem Shrinks.hitOf (h : Shrinks s t) {id : HitId} {hit : Hit} (hh : hitOf t id = some hit) :
    Store.hitOf s id = some hit := by
  cases id with
  | memory id =>
    obtain ⟨r, hr, rfl⟩ := Option.map_eq_some_iff.mp hh
    simp [Store.hitOf, h.get? hr]
  | chunk id =>
    obtain ⟨c, hc, rfl⟩ := Option.map_eq_some_iff.mp hh
    obtain ⟨hc, hid⟩ := Table.get?_eq_some.mp hc
    simp [Store.hitOf, Table.get?_eq_some.mpr ⟨h.2 c hc, hid⟩]

theorem mem_fetched {ids : List MemoryId} {r : MemoryRecord} :
    r ∈ ids.filterMap db.memory.get? ↔ r ∈ db.memory ∧ r.id ∈ ids := by
  rw [List.mem_filterMap]
  constructor
  · rintro ⟨id, hid, hget⟩
    obtain ⟨hr, hrid⟩ := Table.get?_eq_some.mp hget
    exact ⟨hr, (key_memory r).symm.trans hrid ▸ hid⟩
  · rintro ⟨hr, hid⟩
    exact ⟨r.id, hid, Table.get?_eq_some.mpr ⟨hr, rfl⟩⟩

theorem fetched_unique {ids : List MemoryId} : ∀ r ∈ ids.filterMap db.memory.get?,
    ∀ q ∈ ids.filterMap db.memory.get?, r.id = q.id → r = q :=
  fun _ hr _ hq => Table.eq_of_key (mem_fetched.mp hr).1 (mem_fetched.mp hq).1

variable {ν ρ κ β : Type*}

/-- A read that is done has returned the rows it had listed, as far as they are still there. -/
def Returned (listed : ν → List κ) (find : Db → κ → Option β) (has : ρ → β → Prop)
    (S : State Db ν StoreError ρ) : Prop :=
  ∀ note r, S.phase = .done note r → ∃ out, r = .ok out ∧
    ∀ k ∈ listed note, ∀ row, find S.store k = some row → has out row

variable {c : Script Db ν StoreError ρ} {S : State Db ν StoreError ρ}
  {steps : List (Step (State Db ν StoreError ρ) (Action Forget))}

/-- A read returns what it listed exactly when none of its statements fails. -/
theorem returned_iff (listed : ν → List κ) (find : Db → κ → Option β) (has : ρ → β → Prop)
    {N : List (Db → ν → Except StoreError ν) → ν → Db → Prop}
    (hN : ∀ s st left note note', N (st :: left) note s → st s note = .ok note' → N left note' s)
    (hkeep : ∀ left note s t, N left note s → Shrinks s t → N left note t)
    (h₀ : N c.statements c.start db)
    (hfind : ∀ s t k row, Shrinks s t → find t k = some row → find s k = some row)
    (hhas : ∀ s note out, N [] note s → c.answer s note = .ok out →
      ∀ k ∈ listed note, ∀ row, find s k = some row → has out row)
    (h : Run (Scripts.step c purges) (initial c db) steps S) :
    (Returned listed find has S ↔ ∀ e ∈ steps, ¬ Fails c e) ∧
      ∀ e ∈ steps, Knows c N Shrinks e.source := by
  obtain ⟨hknows, hsteps⟩ := knows hN
    (fun s a t (hp : purges s a = some t) => purges_shrinks hp) hkeep
    Shrinks.refl (fun r s t h h' => h.trans h') h₀ h
  refine ⟨?_, hsteps⟩
  rw [← answered_iff h]
  constructor
  · intro hret note e hat
    obtain ⟨out, hout, -⟩ := hret note _ hat
    cases hout
  · intro hans note r hat
    cases r with
    | error e => exact absurd hat (hans note e)
    | ok out =>
      rw [Knows, hat] at hknows
      obtain ⟨s, hnote, hs, hshrinks⟩ := hknows
      exact ⟨out, rfl, fun k hk row hrow =>
        hhas s note out hnote hs k hk row (hfind s S.store k row hshrinks hrow)⟩

theorem zipWith_mem {α γ : Type*} (f : α → β → γ) {as : List α} {bs : List β}
    (h : as.length = bs.length) : (∀ a ∈ as, ∃ b ∈ bs, f a b ∈ List.zipWith f as bs) ∧
      ∀ b ∈ bs, ∃ a ∈ as, f a b ∈ List.zipWith f as bs := by
  constructor
  · intro a ha
    obtain ⟨i, hi, rfl⟩ := List.getElem_of_mem ha
    exact ⟨bs[i], List.getElem_mem (h ▸ hi), List.mem_iff_getElem.mpr
      ⟨i, by simpa [h] using hi, List.getElem_zipWith⟩⟩
  · intro b hb
    obtain ⟨i, hi, rfl⟩ := List.getElem_of_mem hb
    exact ⟨as[i], List.getElem_mem (h ▸ hi), List.mem_iff_getElem.mpr
      ⟨i, by simpa [h] using hi, List.getElem_zipWith⟩⟩

/-! ### search_hybrid -/

theorem hitOf_id {id : HitId} {hit : Hit} (h : hitOf db id = some hit) : hit.id = id := by
  cases id with
  | memory id =>
    obtain ⟨r, hr, rfl⟩ := Option.map_eq_some_iff.mp h
    exact congrArg HitId.memory (Table.get?_eq_some.mp hr).2
  | chunk id =>
    obtain ⟨c, hc, rfl⟩ := Option.map_eq_some_iff.mp h
    exact congrArg HitId.chunk (Table.get?_eq_some.mp hc).2

theorem hits_unique {ids : List HitId} : ∀ h ∈ ids.filterMap (hitOf db),
    ∀ h' ∈ ids.filterMap (hitOf db), h.id = h'.id → h = h' := by
  intro h hh h' hh' heq
  obtain ⟨id, -, hid⟩ := List.mem_filterMap.mp hh
  obtain ⟨id', -, hid'⟩ := List.mem_filterMap.mp hh'
  rw [hitOf_id hid, hitOf_id hid'] at heq
  subst heq
  exact Option.some.inj (hid.symm.trans hid')

/-- What the fusion ranked. -/
def SearchNote.ids (note : SearchNote) : List HitId := note.fused.map Prod.fst

theorem candidates_ok {note : SearchNote} {out : List Candidate}
    (h : candidates db note = .ok out) {id : HitId} (hid : id ∈ SearchNote.ids note) {hit : Hit}
    (hh : hitOf db id = some hit) : ∃ c ∈ out, c.hit = hit := by
  unfold candidates at h
  split at h
  · cases h
  · next hits htake =>
    cases h
    obtain ⟨-, hids, hsub⟩ := (takeBy_ok_iff hits_unique).mp htake
    have hlen : note.fused.length = hits.length := by
      rw [← List.length_map (f := Prod.fst), ← hids, List.length_map]
    have hmem : hit ∈ hits := by
      rw [SearchNote.ids, ← hids] at hid
      obtain ⟨q, hq, hqid⟩ := List.mem_map.mp hid
      obtain ⟨id', -, hid'⟩ := List.mem_filterMap.mp (hsub q hq)
      rw [hitOf_id hid'] at hqid
      subst hqid
      rwa [← Option.some.inj (hid'.symm.trans hh)]
    obtain ⟨scored, -, hc⟩ := (zipWith_mem (fun (scored : HitId × ℚ) hit =>
      (⟨scored.2, similarityOf note.nearest scored.1, hit⟩ : Candidate)) hlen).2 hit hmem
    exact ⟨_, hc, rfl⟩

theorem candidates_isOk_iff {note : SearchNote} (hnd : (SearchNote.ids note).Nodup) :
    (∃ out, candidates db note = .ok out) ↔
      ∀ id ∈ SearchNote.ids note, (hitOf db id).isSome := by
  have hunique : ∀ h ∈ (SearchNote.ids note).filterMap (hitOf db),
      ∀ h' ∈ (SearchNote.ids note).filterMap (hitOf db), h.id = h'.id → h = h' := hits_unique
  have htake := @takeBy_isOk_iff _ _ _ _ _
    (StoreError.unexpectedResponse "the search scored a row it did not return") _
    (SearchNote.ids note) hunique
  have hiff : (∃ out, candidates db note = .ok out) ↔ ∃ hits, takeBy Hit.id
      (StoreError.unexpectedResponse "the search scored a row it did not return")
      ((SearchNote.ids note).filterMap (hitOf db)) (SearchNote.ids note) = .ok hits := by
    unfold candidates SearchNote.ids
    cases takeBy Hit.id (StoreError.unexpectedResponse "the search scored a row it did not return")
      ((note.fused.map Prod.fst).filterMap (hitOf db)) (note.fused.map Prod.fst) <;> simp
  rw [hiff, htake, and_iff_right hnd]
  refine forall₂_congr fun id hid => ?_
  rw [Option.isSome_iff_exists]
  constructor
  · rintro ⟨hit, hmem, rfl⟩
    obtain ⟨id', -, hid'⟩ := List.mem_filterMap.mp hmem
    rw [hitOf_id hid']
    exact ⟨hit, hid'⟩
  · rintro ⟨hit, hh⟩
    exact ⟨hit, List.mem_filterMap.mpr ⟨id, hid, hh⟩, hitOf_id hh⟩

/-- The last statement of a search is run on a store that lacks a row the search has ranked. -/
def SearchMisses {ρ : Type*} (e : Step (State Db SearchNote StoreError ρ) (Action Forget)) : Prop :=
  e.action = .statement ∧ ∃ note, e.source.phase = .running [] note ∧
    ∃ id ∈ SearchNote.ids note, hitOf e.source.store id = none

section Search

variable {alphabet : Alphabet} {rankings : Rankings} {search : Search}

theorem arms_ok {terms : List Text} {st : SearchStatement}
    (h : st ∈ searchArms rankings search terms ++ [fuse rankings search]) (s : Db)
    (note : SearchNote) : ∃ note', st s note = .ok note' := by
  simp only [searchArms, List.mem_append, List.mem_singleton] at h
  rcases h with (((h | h) | h) | h) | rfl
  · split_ifs at h
    · cases h
    · rw [List.mem_singleton.mp h]
      exact ⟨_, rfl⟩
  · obtain ⟨v, -, rfl⟩ := List.mem_map.mp h
    exact ⟨_, rfl⟩
  · split_ifs at h
    · rw [List.mem_singleton.mp h]
      exact ⟨_, rfl⟩
    · cases h
  · split_ifs at h
    · obtain ⟨v, -, rfl⟩ := List.mem_map.mp h
      exact ⟨_, rfl⟩
    · cases h
  · exact ⟨_, rfl⟩

theorem search_cases (alphabet : Alphabet) (rankings : Rankings) (search : Search) :
    searchHybrid alphabet rankings search =
        { start := ⟨[], [], []⟩, statements := [], answer := fun _ _ => .ok [] } ∨
      ∃ terms, searchHybrid alphabet rankings search =
        { start := ⟨[], [], []⟩
          statements := searchArms rankings search terms ++ [fuse rankings search]
          answer := candidates } := by
  unfold searchHybrid
  dsimp only
  split_ifs
  · exact .inl rfl
  · exact .inr ⟨_, rfl⟩

/-- What is known while a search runs: which statements are left and, when they are through, that
no row is ranked twice. -/
def Ranked (statements left : List SearchStatement) (note : SearchNote) (_ : Db) : Prop :=
  (∃ front, statements = front ++ left) ∧ (left = [] → (SearchNote.ids note).Nodup)

/-- A search fails at a step exactly when a row that it has ranked is gone. -/
theorem fails_iff_searchMisses {terms : List Text}
    {e : Step (State Db SearchNote StoreError (List Candidate)) (Action Forget)}
    {c : Script Db SearchNote StoreError (List Candidate)} (hc : c.answer = candidates)
    (hst : c.statements = searchArms rankings search terms ++ [fuse rankings search])
    (hknows : Knows c (Ranked c.statements) Shrinks e.source) : Fails c e ↔ SearchMisses e := by
  unfold Fails SearchMisses
  refine and_congr_right fun _ => ?_
  rw [Knows] at hknows
  cases hphase : e.source.phase with
  | done note r => simp [Failing]
  | running left note =>
    rw [hphase] at hknows
    obtain ⟨⟨front, hfront⟩, hnd⟩ := hknows
    cases left with
    | cons st left =>
      have hmem : st ∈ searchArms rankings search terms ++ [fuse rankings search] := by
        rw [← hst, hfront]
        exact List.mem_append_right _ List.mem_cons_self
      obtain ⟨note', hok⟩ := arms_ok hmem e.source.store note
      simp [Failing, hok]
    | nil =>
      have hiff : (∃ out, candidates e.source.store note = .ok out) ↔
          ∀ id ∈ SearchNote.ids note, (hitOf e.source.store id).isSome :=
        candidates_isOk_iff (hnd rfl)
      simp only [Failing, hc, Phase.running.injEq, true_and, exists_eq_left']
      cases hcand : candidates e.source.store note with
      | ok out =>
        have hall := hiff.mp ⟨out, hcand⟩
        simp only [reduceCtorEq, exists_false, false_iff, not_exists, not_and]
        intro id hid hnone
        simpa [hnone] using hall id hid
      | error err =>
        simp only [Except.error.injEq, exists_eq', true_iff]
        by_contra hno
        obtain ⟨out, hout⟩ := hiff.mpr fun id hid => by
          rw [Option.isSome_iff_ne_none]
          exact fun hnone => hno ⟨id, hid, hnone⟩
        rw [hcand] at hout
        cases hout

/-- A search returns the rows it has ranked, as far as they are still there, exactly when none of
them is gone when they are fetched. -/
theorem search_returns_iff
    (hrrf : ∀ arms limit k, ((rankings.rrf arms limit k).map Prod.fst).Nodup)
    {S : State Db SearchNote StoreError (List Candidate)}
    {steps : List (Step (State Db SearchNote StoreError (List Candidate)) (Action Forget))}
    (h : Run (Scripts.step (searchHybrid alphabet rankings search) purges)
      (initial (searchHybrid alphabet rankings search) db) steps S) :
    Returned SearchNote.ids hitOf (fun out hit => ∃ c ∈ out, c.hit = hit) S ↔
      ∀ e ∈ steps, ¬ SearchMisses e := by
  have hfind : ∀ (s t : Db) (k : HitId) (row : Hit), Shrinks s t → hitOf t k = some row →
      hitOf s k = some row := fun s t k row hs hrow => hs.hitOf hrow
  rcases search_cases alphabet rankings search with hc | ⟨terms, hc⟩
  · rw [hc] at h
    -- nothing to search for: the read does not look at the store
    obtain ⟨hiff, hknows⟩ := returned_iff SearchNote.ids hitOf
      (fun out hit => ∃ c ∈ out, Candidate.hit c = hit)
      (N := fun left note _ => left = [] ∧ note.fused = [])
      (fun s st left note note' hN _ => by cases hN.1) (fun left note s t hN _ => hN) ⟨rfl, rfl⟩
      hfind (fun s note out hN _ k hk => by simp [SearchNote.ids, hN.2] at hk) h
    rw [hiff]
    refine forall₂_congr fun e he => not_congr ?_
    have hk := hknows e he
    unfold Fails SearchMisses
    refine and_congr_right fun _ => ?_
    rw [Knows] at hk
    cases hphase : e.source.phase with
    | done note r => simp [Failing]
    | running left note =>
      rw [hphase] at hk
      obtain ⟨rfl, hfused⟩ := hk
      simp [Failing, SearchNote.ids, hfused]
  · rw [hc] at h
    let arms := searchArms rankings search terms ++ [fuse rankings search]
    have hN : ∀ s st left note note', Ranked arms (st :: left) note s → st s note = .ok note' →
        Ranked arms left note' s := by
      rintro s st left note note' ⟨⟨front, hfront⟩, -⟩ hst
      refine ⟨⟨front ++ [st], by simp [hfront]⟩, ?_⟩
      rintro rfl
      -- the last statement of the script is the fusion
      obtain ⟨-, hlast⟩ := List.append_inj' hfront rfl
      obtain rfl := List.singleton_inj.mp hlast
      cases hst
      exact hrrf _ _ _
    obtain ⟨hiff, hknows⟩ := returned_iff SearchNote.ids hitOf
      (fun out hit => ∃ c ∈ out, Candidate.hit c = hit) hN (fun left note s t hN _ => hN)
      ⟨⟨[], rfl⟩, by simp⟩ hfind (fun s note out _ hok k hk row hrow => candidates_ok hok hk hrow) h
    rw [hiff]
    exact forall₂_congr fun e he => not_congr (fails_iff_searchMisses rfl rfl (hknows e he))

end Search

/-! ### live_vectors -/

section LiveVectors

variable {space : SpaceName} {limit : ℕ}

theorem strongest_ids_nodup (db : Db) (p : MemoryRecord → Bool) (n : ℕ) :
    (((strongestFirst (db.memory.rows.filter p)).take n).map MemoryRecord.id).Nodup := by
  have hrows : (db.memory.rows.map MemoryRecord.id).Nodup := db.memory.keys
  refine List.Nodup.sublist ((List.take_sublist _ _).map _) ?_
  rw [strongestFirst, ((List.perm_insertionSort _ _).map MemoryRecord.id).nodup_iff]
  exact hrows.sublist (List.filter_sublist.map _)

theorem embeddedIds_nodup (space : SpaceName) (limit : ℕ) (db : Db) :
    (embeddedIds space limit db).Nodup := strongest_ids_nodup db _ _

theorem embedded_of_listed {r : MemoryRecord} (hr : r ∈ db.memory)
    (hid : r.id ∈ embeddedIds space limit db) : r.embedding.isSome = true := by
  obtain ⟨q, hq, hqid⟩ := List.mem_map.mp hid
  have hq := (List.mem_insertionSort _).mp (List.mem_of_mem_take hq)
  obtain ⟨hq, hwhere⟩ := List.mem_filter.mp hq
  rw [← Table.eq_of_key hq hr hqid]
  exact (Bool.and_eq_true_iff.mp hwhere).2

/-- Rows and vectors are read of one store, so they pair off. -/
theorem pairVectors_ok {ids : List MemoryId} (hnd : ids.Nodup)
    (hvec : ∀ r ∈ db.memory, r.id ∈ ids → r.embedding.isSome = true) :
    ∃ out, pairVectors db ids = .ok out ∧ ∀ id ∈ ids, ∀ r, db.memory.get? id = some r →
      ∃ e ∈ out, Embedded.memory e = MemoryRecord.read r := by
  have hmem (r : MemoryRecord) : r ∈ ids.filterMap db.memory.get? ↔
      r ∈ db.memory ∧ r.id ∈ ids := mem_fetched
  have hone : ∀ r ∈ ids.filterMap db.memory.get?, ∀ q ∈ ids.filterMap db.memory.get?,
      r.id = q.id → r = q := fetched_unique
  have hids : ((ids.filterMap db.memory.get?).map MemoryRecord.id).Nodup := by
    refine List.Nodup.map_on hone (hnd.filterMap ?_)
    intro a a' r hr hr'
    rw [← (Table.get?_eq_some.mp hr).2, ← (Table.get?_eq_some.mp hr').2]
  unfold pairVectors
  dsimp only
  generalize ids.filterMap db.memory.get? = memories at hmem hone hids ⊢
  have hunique : ∀ v ∈ memories.filterMap (fun r => r.embedding.map fun v => (r.id, v)),
      ∀ v' ∈ memories.filterMap (fun r => r.embedding.map fun v => (r.id, v)), v.1 = v'.1 →
        v = v' := by
    intro v hv v' hv' heq
    obtain ⟨r, hr, hrv⟩ := List.mem_filterMap.mp hv
    obtain ⟨q, hq, hqv⟩ := List.mem_filterMap.mp hv'
    obtain ⟨w, hw, rfl⟩ := Option.map_eq_some_iff.mp hrv
    obtain ⟨w', hw', rfl⟩ := Option.map_eq_some_iff.mp hqv
    obtain rfl := hone r hr q hq heq
    rw [Option.some.inj (hw.symm.trans hw')]
  have hfound : ∀ id ∈ memories.map MemoryRecord.id,
      ∃ v ∈ memories.filterMap (fun r => r.embedding.map fun v => (r.id, v)), v.1 = id := by
    intro id hid
    obtain ⟨r, hr, rfl⟩ := List.mem_map.mp hid
    obtain ⟨v, hv⟩ := Option.isSome_iff_exists.mp (hvec r ((hmem r).mp hr).1 ((hmem r).mp hr).2)
    exact ⟨(r.id, v), List.mem_filterMap.mpr ⟨r, hr, by simp [hv]⟩, rfl⟩
  obtain ⟨vectors, htake⟩ := (takeBy_isOk_iff (StoreError.unexpectedResponse
    "a selected memory came back without its vector") hunique).mpr ⟨hids, hfound⟩
  obtain ⟨-, hkeys, -⟩ := (takeBy_ok_iff hunique).mp htake
  have hlen : memories.length = vectors.length := by
    rw [← List.length_map (f := MemoryRecord.id), ← hkeys, List.length_map]
  rw [htake]
  refine ⟨_, rfl, fun id hid r hget => ?_⟩
  obtain ⟨hr, hrid⟩ := Table.get?_eq_some.mp hget
  have hin : r ∈ memories := (hmem r).mpr ⟨hr, (key_memory r).symm.trans hrid ▸ hid⟩
  obtain ⟨v, -, hv⟩ := (zipWith_mem (fun r (v : MemoryId × Embedding) =>
    (⟨MemoryRecord.read r, v.2⟩ : Embedded)) hlen).1 r hin
  exact ⟨_, hv, rfl⟩

/-- What is known while the vectors are read: no row is listed twice, and none without a vector. -/
def Vectored (space : SpaceName) (limit : ℕ)
    (left : List (Db → List MemoryId → Except StoreError (List MemoryId))) (note : List MemoryId)
    (s : Db) : Prop :=
  (∃ front, (liveVectors space limit).statements = front ++ left) ∧
    (left = [] → note.Nodup ∧ ∀ r ∈ s.memory, r.id ∈ note → r.embedding.isSome = true)

theorem Vectored.step {s : Db} {st : Db → List MemoryId → Except StoreError (List MemoryId)}
    {left : List (Db → List MemoryId → Except StoreError (List MemoryId))}
    {note note' : List MemoryId} (h : Vectored space limit (st :: left) note s)
    (hst : st s note = .ok note') : Vectored space limit left note' s := by
  obtain ⟨⟨front, hfront⟩, -⟩ := h
  refine ⟨⟨front ++ [st], by simp [hfront]⟩, ?_⟩
  rintro rfl
  have hsplit : [] ++ (liveVectors space limit).statements = front ++ [st] := hfront
  obtain ⟨-, hlast⟩ := List.append_inj' hsplit rfl
  obtain rfl := List.singleton_inj.mp hlast
  cases hst
  exact ⟨embeddedIds_nodup space limit s, fun r hr hid => embedded_of_listed hr hid⟩

theorem Vectored.shrinks {s t : Db}
    {left : List (Db → List MemoryId → Except StoreError (List MemoryId))} {note : List MemoryId}
    (h : Vectored space limit left note s) (hs : Shrinks s t) : Vectored space limit left note t :=
  ⟨h.1, fun hleft => ⟨(h.2 hleft).1, fun r hr hid => (h.2 hleft).2 r (hs.1 r hr) hid⟩⟩

/-- Neither listing the rows nor pairing them with their vectors fails. -/
theorem Vectored.not_failing {s : Db}
    {left : List (Db → List MemoryId → Except StoreError (List MemoryId))} {note : List MemoryId}
    (h : Vectored space limit left note s) :
    ¬Failing (liveVectors space limit) s (.running left note) := by
  intro hfailing
  cases left with
  | nil =>
    obtain ⟨err, herr⟩ := hfailing
    obtain ⟨out, hout, -⟩ := pairVectors_ok (h.2 rfl).1 (h.2 rfl).2
    rw [show pairVectors s note = .error err from herr] at hout
    cases hout
  | cons st left =>
    obtain ⟨err, herr⟩ := hfailing
    obtain ⟨⟨front, hfront⟩, -⟩ := h
    have hmem : st ∈ (liveVectors space limit).statements := by
      rw [hfront]
      exact List.mem_append_right _ List.mem_cons_self
    obtain rfl := List.mem_singleton.mp hmem
    cases herr

/-- The live vectors are read whatever is purged meanwhile. -/
theorem liveVectors_returns {S : State Db (List MemoryId) StoreError (List Embedded)}
    {steps : List (Step (State Db (List MemoryId) StoreError (List Embedded)) (Action Forget))}
    (h : Run (Scripts.step (liveVectors space limit) purges)
      (initial (liveVectors space limit) db) steps S) :
    Returned (fun ids => ids) (fun db id => db.memory.get? id)
      (fun out r => ∃ e ∈ out, Embedded.memory e = MemoryRecord.read r) S := by
  obtain ⟨hiff, hknows⟩ := returned_iff (fun ids => ids) (fun db id => db.memory.get? id)
    (fun out r => ∃ e ∈ out, Embedded.memory e = MemoryRecord.read r)
    (N := Vectored space limit) (fun s st left note note' hv hst => hv.step hst)
    (fun left note s t hv hs => hv.shrinks hs)
    ⟨⟨[], rfl⟩, by simp [liveVectors]⟩ (fun s t k row hs hrow => hs.get? hrow)
    (fun s note out hv hok k hk r hr => by
      obtain ⟨out', hok', hall⟩ := pairVectors_ok (hv.2 rfl).1 (hv.2 rfl).2
      rw [show pairVectors s note = .ok out from hok] at hok'
      cases hok'
      exact hall k hk r hr) h
  refine hiff.mpr fun e he hfails => ?_
  have hk := hknows e he
  have hfailing := hfails.2
  rw [Knows] at hk
  cases hphase : e.source.phase with
  | done note r => simp [hphase, Failing] at hfailing
  | running left note =>
    rw [hphase] at hk hfailing
    exact hk.not_failing hfailing

end LiveVectors

/-! ### history_chain -/

section Walks

variable {space : SpaceName} {target : MemoryId}

/-- The walk is begun on a store without its target, or comes back to a link, or its rows are
fetched from a store that lacks one of its links. -/
def WalkMisses (space : SpaceName) (target : MemoryId)
    (e : Step (State Db WalkNote StoreError (List MemoryRecord)) (Action Forget)) : Prop :=
  e.action = .statement ∧ ∃ note,
    e.source.phase = .running (walkScript space target).statements note ∧
        ¬ InSpace e.source.store.memory space [target] ∨
      e.source.phase = .running [] note ∧ (¬ (note.chain target).Nodup ∨
        ∃ id ∈ note.chain target, e.source.store.memory.get? id = none)

theorem takeRows_isOk_iff {ids : List MemoryId} :
    (∃ out, takeRows (ids.filterMap db.memory.get?) ids = .ok out) ↔
      ids.Nodup ∧ ∀ id ∈ ids, db.memory.get? id ≠ none := by
  simp only [takeRows_eq]
  rw [takeBy_isOk_iff _ fetched_unique]
  refine and_congr_right fun _ => forall₂_congr fun id hid => ?_
  rw [Option.ne_none_iff_exists']
  refine exists_congr fun r => ?_
  rw [mem_fetched, Table.get?_eq_some]
  constructor
  · rintro ⟨⟨hr, -⟩, hrid⟩
    exact ⟨hr, hrid⟩
  · rintro ⟨hr, hrid⟩
    exact ⟨⟨hr, (key_memory r).symm.trans hrid ▸ hid⟩, hrid⟩

/-- The rows are fetched from a store that has each link, and each is met once. -/
theorem failing_fetch_iff {note : WalkNote} :
    Failing (walkScript space target) db (.running [] note) ↔
      ¬ ((note.chain target).Nodup ∧ ∀ id ∈ note.chain target, db.memory.get? id ≠ none) := by
  rw [← takeRows_isOk_iff]
  change (∃ err, takeRows _ _ = .error err) ↔ _
  cases takeRows ((note.chain target).filterMap db.memory.get?) (note.chain target) <;> simp

theorem failing_begin_iff {note : WalkNote} :
    Failing (walkScript space target) db (.running (walkScript space target).statements note) ↔
      ¬ InSpace db.memory space [target] := by
  rw [← ensureMemoriesExist_ok]
  change (∃ err, beginWalk space target db note = .error err) ↔ _
  unfold beginWalk
  cases ensureMemoriesExist db space [target] <;> simp

theorem fails_iff_walkMisses
    {e : Step (State Db WalkNote StoreError (List MemoryRecord)) (Action Forget)}
    (hknows : Knows (walkScript space target)
      (fun left _ _ => ∃ front, (walkScript space target).statements = front ++ left) Shrinks
      e.source) : Fails (walkScript space target) e ↔ WalkMisses space target e := by
  unfold Fails WalkMisses
  refine and_congr_right fun _ => ?_
  rw [Knows] at hknows
  cases hphase : e.source.phase with
  | done note r => simp [Failing]
  | running left note =>
    rw [hphase] at hknows
    obtain ⟨front, hfront⟩ := hknows
    cases left with
    | nil =>
      rw [failing_fetch_iff]
      simp [walkScript, imp_iff_not_or]
    | cons st left =>
      simp only [Phase.running.injEq, reduceCtorEq, false_and, or_false]
      cases front with
      | nil =>
        rw [show st :: left = (walkScript space target).statements from hfront.symm,
          failing_begin_iff]
        simp
      | cons first front =>
        -- the other statements do not fail
        have hlater : st ∈ (walkScript space target).statements.tail := by
          rw [hfront]
          exact List.mem_append_right _ List.mem_cons_self
        have hshort : st :: left ≠ (walkScript space target).statements := by
          intro h
          have hlen := congrArg List.length (h.trans hfront)
          simp only [List.length_cons, List.length_append] at hlen
          omega
        simp only [hshort, false_and, exists_false, iff_false]
        rintro ⟨err, herr⟩
        simp only [walkScript, List.tail_cons, List.mem_cons, List.not_mem_nil, or_false] at hlater
        rcases hlater with rfl | rfl
        · cases herr
        · cases herr

/-- A walk returns the rows it has linked, as far as they are still there, exactly when its target
was there at the start, it met no link twice, and none of the links is gone when they are
fetched. -/
theorem walk_returns_iff {S : State Db WalkNote StoreError (List MemoryRecord)}
    {steps : List (Step (State Db WalkNote StoreError (List MemoryRecord)) (Action Forget))}
    (h : Run (Scripts.step (walkScript space target) purges)
      (initial (walkScript space target) db) steps S) :
    Returned (WalkNote.chain target) (fun db id => db.memory.get? id) (fun out r => r ∈ out) S ↔
      ∀ e ∈ steps, ¬ WalkMisses space target e := by
  obtain ⟨hiff, hknows⟩ := returned_iff (WalkNote.chain target) (fun db id => db.memory.get? id)
    (fun out r => r ∈ out)
    (N := fun left _ _ => ∃ front, (walkScript space target).statements = front ++ left)
    (fun s st left note note' ⟨front, hfront⟩ _ => ⟨front ++ [st], by simp [hfront]⟩)
    (fun left note s t hN _ => hN) ⟨[], rfl⟩ (fun s t k row hs hrow => hs.get? hrow)
    (fun s note out _ hok id hid r hget => by
      obtain ⟨-, hids, hsub⟩ := (takeRows_ok_iff fetched_unique).mp hok
      rw [← hids] at hid
      obtain ⟨q, hq, hqid⟩ := List.mem_map.mp hid
      obtain ⟨hr, hrid⟩ := Table.get?_eq_some.mp hget
      rwa [← Table.eq_of_key (mem_fetched.mp (hsub q hq)).1 hr (hqid.trans hrid.symm)]) h
  rw [hiff]
  exact forall₂_congr fun e he => not_congr (fails_iff_walkMisses (hknows e he))

end Walks

/-! ### The three reads -/

/-- Whatever is purged while they run: the search and the walk return what they listed, as far as
it is still there, exactly when the last statement misses none of it, and the live vectors
always. -/
theorem reads_return_iff {rankings : Rankings}
    (hrrf : ∀ arms limit k, ((rankings.rrf arms limit k).map Prod.fst).Nodup) :
    (∀ alphabet search db steps S,
      Run (Scripts.step (searchHybrid alphabet rankings search) purges)
        (initial (searchHybrid alphabet rankings search) db) steps S →
      (Returned SearchNote.ids hitOf (fun out hit => ∃ c ∈ out, c.hit = hit) S ↔
        ∀ e ∈ steps, ¬ SearchMisses e)) ∧
    (∀ space limit db steps S,
      Run (Scripts.step (liveVectors space limit) purges) (initial (liveVectors space limit) db)
        steps S →
      Returned (fun ids => ids) (fun db id => db.memory.get? id)
        (fun out r => ∃ e ∈ out, e.memory = MemoryRecord.read r) S) ∧
    ∀ space target db steps S,
      Run (Scripts.step (walkScript space target) purges) (initial (walkScript space target) db)
        steps S →
      (Returned (WalkNote.chain target) (fun db id => db.memory.get? id) (fun out r => r ∈ out) S ↔
        ∀ e ∈ steps, ¬ WalkMisses space target e) :=
  ⟨fun _ _ _ _ _ h => search_returns_iff hrrf h, fun _ _ _ _ _ h => liveVectors_returns h,
    fun _ _ _ _ _ h => walk_returns_iff h⟩

/-- The fusion by reciprocal ranks. -/
def reciprocalRanks (arms : List (List HitId)) (limit k : ℕ) : List (HitId × ℚ) :=
  ((arms.flatten.dedup.map fun id => (id, (arms.map fun arm =>
    if id ∈ arm then 1 / ((k : ℚ) + arm.idxOf id + 1) else 0).sum)).insertionSort
      fun a b => b.2 ≤ a.2).take limit

theorem reciprocalRanks_nodup (arms : List (List HitId)) (limit k : ℕ) :
    ((reciprocalRanks arms limit k).map Prod.fst).Nodup := by
  refine List.Nodup.sublist ((List.take_sublist _ _).map _) ?_
  rw [((List.perm_insertionSort _ _).map Prod.fst).nodup_iff, List.map_map]
  change (arms.flatten.dedup.map id).Nodup
  rw [List.map_id]
  exact List.nodup_dedup arms.flatten

/-- An engine that matches every memory, and has no vectors. -/
def everything : Rankings where
  matching db _ := db.memory.rows.map MemoryRecord.id
  nearest _ _ _ _ := []
  matchingChunks _ _ := []
  nearestChunks _ _ _ _ := []
  rrf := reciprocalRanks

def letters : Alphabet := ⟨Char.isAlphanum, List.map Char.toLower⟩

/-- The search for a letter. -/
def seek (letter : Char) : Search :=
  ⟨[agmem], some [letter], none, ⟨[], [], []⟩, .live, 1, false⟩

/-- The memory with the given number is purged before the last of some statements. -/
def purgeBeforeLast (statements id : ℕ) : List (Action Forget) :=
  List.replicate statements .statement ++ [.other ⟨[agmem], [⟨id⟩], [], true⟩, .statement]

def endsIn {ν ρ : Type} (e : StoreError) (S : State Db ν StoreError ρ) : Bool :=
  match S.phase with
  | .done _ (.error e') => decide (e' = e)
  | _ => false

theorem exists_of_endsIn {ν ρ : Type} {e : StoreError} {S : State Db ν StoreError ρ}
    (h : endsIn e S = true) : ∃ note, S.phase = .done note (.error e) := by
  unfold endsIn at h
  split at h
  · next note e' hphase => exact ⟨note, of_decide_eq_true h ▸ hphase⟩
  · cases h

/-- Whether a script that came to its end returned an answer. -/
def ended {ν ρ : Type} (S : State Db ν StoreError ρ) : Option Bool :=
  match S.phase with
  | .running _ _ => none
  | .done _ (.ok _) => some true
  | .done _ (.error _) => some false

/-- Three claims, the second in place of the first. The search ranks the second and the walk goes
from it to the first; either returns if the third is purged before the rows are fetched, and fails
if the second is. -/
theorem reads_return_iff_purge :
    (∀ arms limit k, ((everything.rrf arms limit k).map Prod.fst).Nodup) ∧
    ∃ db, @Db.Reachable plain db ∧ ∀ gone ∈ [1, 2],
      (∃ steps S, exec (Scripts.step (searchHybrid letters everything (seek 'b')) purges)
          (initial (searchHybrid letters everything (seek 'b')) db) (purgeBeforeLast 2 gone) =
            some (steps, S) ∧
        ended S = some (decide (gone = 2)) ∧
        (Returned SearchNote.ids hitOf (fun out hit => ∃ c ∈ out, c.hit = hit) S ↔
          ∀ e ∈ steps, ¬ SearchMisses e)) ∧
      ∃ steps S, exec (Scripts.step (walkScript agmem ⟨1⟩) purges)
          (initial (walkScript agmem ⟨1⟩) db) (purgeBeforeLast 3 gone) = some (steps, S) ∧
        ended S = some (decide (gone = 2)) ∧
        (Returned (WalkNote.chain ⟨1⟩) (fun db id => db.memory.get? id) (fun out r => r ∈ out) S ↔
          ∀ e ∈ steps, ¬ WalkMisses agmem ⟨1⟩ e) := by
  obtain ⟨opSteps, db, hdb, -, hends⟩ := exists_run_of_exec (@Store.step plain) (Db.empty 0)
    [remember 0 [claim 'a' [] none], remember 1 [claim 'b' [0] none],
      remember 2 [claim 'c' [] none]]
    (fun u => [1, 2].all fun gone =>
      ((exec (Scripts.step (searchHybrid letters everything (seek 'b')) purges)
        (initial (searchHybrid letters everything (seek 'b')) u.2) (purgeBeforeLast 2 gone)).any
          fun v => decide (ended v.2 = some (decide (gone = 2)))) &&
      (exec (Scripts.step (walkScript agmem ⟨1⟩) purges)
        (initial (walkScript agmem ⟨1⟩) u.2) (purgeBeforeLast 3 gone)).any
          fun v => decide (ended v.2 = some (decide (gone = 2)))) (by decide)
  have hreads := @reads_return_iff everything reciprocalRanks_nodup
  refine ⟨reciprocalRanks_nodup, db, ⟨0, opSteps, hdb⟩, fun gone hgone => ?_⟩
  obtain ⟨hsearch, hwalk⟩ := Bool.and_eq_true_iff.mp (List.all_eq_true.mp hends gone hgone)
  obtain ⟨⟨steps, S⟩, hexec, hended⟩ := Option.any_eq_true .. |>.mp hsearch
  obtain ⟨⟨walkSteps, T⟩, hwalks, hover⟩ := Option.any_eq_true .. |>.mp hwalk
  exact ⟨⟨steps, S, hexec, of_decide_eq_true hended, hreads.1 _ _ _ _ _ (exec_run hexec).1⟩,
    walkSteps, T, hwalks, of_decide_eq_true hover, hreads.2.2 _ _ _ _ _ (exec_run hwalks).1⟩

/-- The one ranked row, and the one superseded row, are purged before they are fetched. -/
theorem purged_read_fails :
    (∃ db steps S note, @Db.Reachable plain db ∧
      Run (Scripts.step (searchHybrid letters everything (seek 'a')) purges)
        (initial (searchHybrid letters everything (seek 'a')) db) steps S ∧
      S.phase = .done note
        (.error (.unexpectedResponse "the search scored a row it did not return"))) ∧
    ∃ db steps S note, @Db.Reachable plain db ∧
      Run (Scripts.step (walkScript agmem ⟨1⟩) purges) (initial (walkScript agmem ⟨1⟩) db) steps S ∧
      S.phase = .done note
        (.error (.unexpectedResponse "the walk named a link it did not return")) := by
  constructor
  · obtain ⟨opSteps, db, hdb, -, hthen⟩ := exists_run_of_exec (@Store.step plain) (Db.empty 0)
      [remember 0 [claim 'a' [] none]]
      (fun u => (exec (Scripts.step (searchHybrid letters everything (seek 'a')) purges)
        (initial (searchHybrid letters everything (seek 'a')) u.2) (purgeBeforeLast 2 0)).any
          fun v => endsIn (.unexpectedResponse "the search scored a row it did not return") v.2)
      (by decide)
    obtain ⟨steps, S, hrun, -, hend⟩ := exists_run_of_exec _ _ _ _ hthen
    obtain ⟨note, hphase⟩ := exists_of_endsIn hend
    exact ⟨db, steps, S, note, ⟨0, opSteps, hdb⟩, hrun, hphase⟩
  · obtain ⟨opSteps, db, hdb, -, hthen⟩ := exists_run_of_exec (@Store.step plain) (Db.empty 0)
      [remember 0 [claim 'a' [] none], remember 1 [claim 'b' [0] none]]
      (fun u => (exec (Scripts.step (walkScript agmem ⟨1⟩) purges)
        (initial (walkScript agmem ⟨1⟩) u.2) (purgeBeforeLast 3 0)).any
          fun v => endsIn (.unexpectedResponse "the walk named a link it did not return") v.2)
      (by decide)
    obtain ⟨steps, S, hrun, -, hend⟩ := exists_run_of_exec _ _ _ _ hthen
    obtain ⟨note, hphase⟩ := exists_of_endsIn hend
    exact ⟨db, steps, S, note, ⟨0, opSteps, hdb⟩, hrun, hphase⟩

end Agmem.Store.Snapshots
