import Agmem.Store.Landing

/-! Saying the same again. After a batch has landed its targets are closed, but for the
rows that hold the claim of every memory naming them; so a second, identical call closes
nothing, and changes nothing exactly when every claim of the batch stands. That fails
when a memory closes a claim which an earlier memory of the batch made and no later one
makes again: the second call then writes that claim anew. -/

namespace Agmem.Store.Idempotence

open Core Relational Claims Transition Landing

variable {db db₁ db₂ : Db} {space : SpaceName}

/-- The same rows, closed at the same date, for the same reason, by the same successor. -/
structure Unchanged (db db' : Db) : Prop where
  kept : ∀ r ∈ db.memory, ∃ r' ∈ db'.memory, r'.id = r.id
  closing : ∀ r' ∈ db'.memory, ∃ r ∈ db.memory, r'.id = r.id ∧ r'.invalidAt = r.invalidAt ∧
    r'.invalidReason = r.invalidReason ∧ r'.supersededBy = r.supersededBy

theorem Unchanged.refl (db : Db) : Unchanged db db :=
  ⟨fun r h => ⟨r, h, rfl⟩, fun r h => ⟨r, h, rfl, rfl, rfl, rfl⟩⟩

/-- Blocks that name only rows of their own claims, which stand, write nothing. -/
theorem WroteAll.memory_eq {ms : List MemoryBinds} {ws : List (Written MemoryId)}
    (h : WroteAll space db ms ws db₁) (hin : ∀ m ∈ ms, InSpace db.memory space m.old)
    (hL : ∀ m ∈ ms, m.hash ∈ liveClaims db space)
    (hown : ∀ m ∈ ms, ∀ r ∈ db.memory, r.id ∈ m.old → r.contentHash = m.hash) :
    db₁.memory = db.memory := by
  induction h with
  | nil db => rfl
  | @cons db db₁ db' m ms w ws h _ ih =>
    obtain ⟨hin₀, hin⟩ := List.forall_mem_cons.mp hin
    obtain ⟨hL₀, hL⟩ := List.forall_mem_cons.mp hL
    obtain ⟨hown₀, hown⟩ := List.forall_mem_cons.mp hown
    have hone := h.memory_eq hin₀ hL₀ hown₀
    have hclaims : liveClaims db₁ space = liveClaims db space := by
      unfold liveClaims
      rw [hone]
    rw [ih (hone ▸ hin) (hclaims ▸ hL) (hone ▸ hown), hone]

section

variable [Hashing] {batch : Batch}

/-- After a batch its episode is stored. -/
theorem writeEpisode_stores {e : NewEpisode} {clock : Clock} {w : Written EpisodeId}
    (h : writeEpisode db space e clock = .ok (db₁, w)) :
    ∃ row ∈ db₁.episode, row.space = space ∧ row.contentHash = contentHash e.content := by
  rcases writeEpisode_eq_ok h with ⟨row, hf, rfl, -⟩ | ⟨-, -, t, ht, hc⟩
  · have hp := List.find?_some hf
    exact ⟨row, List.mem_of_find?_eq_some hf, of_decide_eq_true hp⟩
  · refine ⟨e.record ⟨db.minted⟩ space clock, ?_, rfl, rfl⟩
    rw [(createChunks_ok hc).2, Table.mem_iff, Table.insert?_eq_some.mp ht]
    simp

theorem batchTransaction_stores {clock : Clock} {ep : Option (Written EpisodeId)}
    {ws : List (Written MemoryId)}
    (hold : ∀ m ∈ batch.memories, ∀ id ∈ m.supersedes, id.ulid < db.minted)
    (h : batchTransaction db batch clock = .ok (db₁, ep, ws)) {e : NewEpisode}
    (he : batch.episode = some e) :
    ∃ row ∈ db₁.episode, row.space = batch.space ∧ row.contentHash = contentHash e.content := by
  rcases batchTransaction_eq_ok h with ⟨hnone, -⟩ | ⟨e', db₂, w, he', hep, -, hws⟩
  · rw [he] at hnone
    cases hnone
  · obtain rfl := Option.some.inj (he.symm.trans he')
    have hall := writeMemories_ok (fun b hb id hid => ?_) hws
    · rw [WroteAll.episode_eq hall]
      exact writeEpisode_stores hep
    · obtain ⟨-, m, hm, -, hb⟩ := Batch.mem_binds hb
      exact (hold m hm id (hb ▸ hid)).trans_le (writeEpisode_ok hep).minted

/-! ### After the first call -/

section First

variable {clock : ℕ → Clock} {out : BatchOutcome} (hw : db.WellFormed)
  (h : insertBatch db batch clock = .ok (db₁, out))
include hw h

theorem insertBatch_wellFormed : db₁.WellFormed := by
  obtain ⟨k, -, hok⟩ := insertBatch_ok h
  obtain ⟨hin, -, -, db₀, ha, hall⟩ := insertBatchOnce_ok hw hok
  exact hall.wellFormed (fun b hb => (Batch.mem_binds hb).1)
    (fun b hb => (retain_inSpace hin b hb).kept ha.kept) (ha.wellFormed hw)

/-- What is left open of the targets of a batch holds the claim of the memory that named it. -/
theorem open_target_own {m : NewMemory} (hm : m ∈ batch.memories) {r : MemoryRecord}
    (hr : r ∈ db₁.memory) (hl : r.isLive = true) (hid : r.id ∈ m.supersedes) :
    r.contentHash = contentHash m.content := by
  obtain ⟨k, -, hok⟩ := insertBatch_ok h
  obtain ⟨hin, hclosed, -, db₀, ha, hall⟩ := insertBatchOnce_ok hw hok
  rw [hclosed, binds_retain] at hall
  obtain ⟨hw₀, hb⟩ := bound_start hw hin (clock k) ha
  obtain ⟨q, hq, hk, -⟩ := hin r.id (List.mem_flatMap.mpr ⟨m, hm, hid⟩)
  have hq₀ : q ∈ db₀.memory := ha.memory ▸ hq
  have hev := hall.grown.1.evolves hw₀ hq₀ hr hk.symm
  obtain ⟨hql, hnamed⟩ := (hall.live_iff hw₀ (fun b hb' => (hb b hb').2.1)
    (fun b hb' => (hb b hb').1) hq₀ hr hk.symm).mp hl
  obtain ⟨i, hi, rfl⟩ := List.mem_iff_getElem.mp hm
  have hat := bound_boundAt hin (clock k) i hm
  rw [hev.contentHash, ← hat.hash]
  exact hnamed _ (List.mem_mapIdx.mpr ⟨i, hi, rfl⟩) ((hat.targets q hq).mpr ⟨hk ▸ hid, hql⟩)

theorem targets_inSpace : InSpace db₁.memory batch.space batch.targets := by
  obtain ⟨k, -, hok⟩ := insertBatch_ok h
  obtain ⟨hin, -, -, db₀, ha, hall⟩ := insertBatchOnce_ok hw hok
  exact (hin.kept ha.kept).kept hall.grown.2

/-- The second call finds the episode of the first. -/
theorem episodeFits_again : EpisodeFits db₁ batch := by
  obtain ⟨k, -, hok⟩ := insertBatch_ok h
  obtain ⟨hin, hclosed, htx, -⟩ := insertBatchOnce_ok hw hok
  intro e he hno
  obtain ⟨row, hrow, hs, hh⟩ := batchTransaction_stores (fun m hm id hid => by
    obtain ⟨m₀, hm₀, rfl⟩ := List.mem_map.mp hm
    obtain ⟨r, hr, rfl, -⟩ := hin id (List.mem_flatMap.mpr ⟨m₀, hm₀, (mem_retain.mp hid).1⟩)
    exact hw.memory r hr) htx he
  exact absurd hh (hno row hrow hs)

end First

/-! ### The second call -/

section Second

variable {clock : ℕ → Clock} {out : BatchOutcome} (hw : db.WellFormed)
  (hin : InSpace db.memory batch.space batch.targets)
  (hown : ∀ m ∈ batch.memories, ∀ r ∈ db.memory, r.isLive = true → r.id ∈ m.supersedes →
    r.contentHash = contentHash m.content)

include hown in
theorem not_withdraws {a : Assertion Text} (ha : a ∈ batch.assertions db) (c : Text) :
    ¬ a.Withdraws c := by
  obtain ⟨m, hm, rfl⟩ := List.mem_map.mp ha
  rintro ⟨⟨r, hr, hid, hl, rfl⟩, hne⟩
  exact hne (hown m hm r hr hl hid).symm

include hown in
theorem lands_of_standing (hep : EpisodeFits db batch)
    (hL : ∀ m ∈ batch.memories, contentHash m.content ∈ liveClaims db batch.space) (c : Clock) :
    Lands db batch c where
  episode := hep
  memories := by
    refine ⟨fun m hm r hr hl hne => ?_, ?_, fun i m hi r hr hl hid hne => ?_,
      fun pre m post he hno => ?_⟩
    · have hid : r.id ∉ m.supersedes := fun hid => hne (hown m hm r hr hl hid)
      rw [List.count_eq_zero_of_not_mem hid]
      exact Nat.zero_le 1
    · exact List.pairwise_of_forall_mem_list fun p hp m _ r hr hl hid _ => hown p hp r hr hl hid
    · exact absurd (hown m (List.mem_of_getElem? hi) r hr hl hid) hne
    · refine absurd (mem_standing_of_mem (hL m (by simp [he])) fun a ha => ?_) hno
      refine not_withdraws hown ?_ _
      rw [Batch.assertions, he, List.map_append]
      exact List.mem_append_left _ ha

include hw hown in
/-- A call whose claims all stand, and whose open targets hold them, leaves the table alone. -/
theorem memory_eq_of_standing
    (hL : ∀ m ∈ batch.memories, contentHash m.content ∈ liveClaims db batch.space)
    (h : insertBatch db batch clock = .ok (db₂, out)) : db₂.memory = db.memory := by
  obtain ⟨k, -, hok⟩ := insertBatch_ok h
  obtain ⟨hin, hclosed, -, db₀, ha, hall⟩ := insertBatchOnce_ok hw hok
  rw [hclosed, binds_retain] at hall
  obtain ⟨hw₀, hb⟩ := bound_start hw hin (clock k) ha
  rw [← ha.memory]
  refine WroteAll.memory_eq hall (fun b hb' => (hb b hb').1) (fun b hb' => ?_)
    fun b hb' r hr hid => ?_
  · obtain ⟨i, hi, rfl⟩ := List.mem_mapIdx.mp hb'
    rw [ha.liveClaims]
    exact hL batch.memories[i] (List.getElem_mem hi)
  · obtain ⟨i, hi, rfl⟩ := List.mem_mapIdx.mp hb'
    rw [ha.memory] at hr
    have hat := bound_boundAt hin (clock k) i (List.getElem_mem hi)
    obtain ⟨hid, hl⟩ := (hat.targets r hr).mp hid
    rw [hat.hash]
    exact hown _ (List.getElem_mem hi) r hr hl hid

end Second

/-- A batch that landed is idempotent exactly when each claim it makes and then closes is made
again afterwards. -/
theorem repeat_unchanged_iff (hdb : db.Reachable) {clock : ℕ → Clock} {out : BatchOutcome}
    (h : insertBatch db batch clock = .ok (db₁, out)) (clock' : ℕ → Clock) :
    (∃ db₂ out', insertBatch db₁ batch clock' = .ok (db₂, out') ∧ Unchanged db₁ db₂) ↔
      Reasserts (batch.assertions db) := by
  have hw := hdb.wellFormed
  have hw₁ := insertBatch_wellFormed hw h
  have hin := targets_inSpace hw h
  have hown := fun m hm r hr hl hid => open_target_own hw h (m := m) hm (r := r) hr hl hid
  have hstand : Reasserts (batch.assertions db) ↔
      ∀ m ∈ batch.memories, contentHash m.content ∈ liveClaims db₁ batch.space := by
    rw [insertBatch_refines hw h, ← forall_mem_standing_iff, Batch.assertions,
      List.forall_mem_map]
    rfl
  rw [hstand]
  constructor
  · rintro ⟨db₂, out', h₂, hsame⟩ m hm
    have hall : ∀ a ∈ batch.assertions db₁, a.claim ∈ liveClaims db₂ batch.space := by
      rw [insertBatch_refines hw₁ h₂, forall_mem_standing_iff]
      intro pre a post he c hwd
      exact absurd hwd (not_withdraws hown (by simp [he]) c)
    obtain ⟨r, hr, hs, hh, hl⟩ := hall _ (List.mem_map_of_mem hm)
    obtain ⟨q, hq, hid, hat, -⟩ := hsame.closing r hr
    have hch : Relation.ReflTransGen (Change fun _ => True) db₁ db₂ :=
      insertBatch_changes hw₁ trivial h₂
    have hev := (grown_of_changes hch).evolves hw₁ hq hr hid
    refine ⟨q, hq, hev.space ▸ hs, hev.contentHash ▸ hh, ?_⟩
    rw [MemoryRecord.isLive, ← hat]
    exact hl
  · intro hL
    have hlands := lands_of_standing hown (episodeFits_again hw h) hL (clock' 0)
    have hok : ∃ out, insertBatch db₁ batch clock' = .ok out :=
      (insertBatchFrom_isOk_iff hw₁ hin).mpr ⟨0, le_rfl, Nat.zero_le _, hlands⟩
    obtain ⟨⟨db₂, out'⟩, h₂⟩ := hok
    refine ⟨db₂, out', h₂, ?_⟩
    have hmem := memory_eq_of_standing hw₁ hown hL h₂
    exact ⟨fun r hr => ⟨r, hmem ▸ hr, rfl⟩, fun r hr => ⟨r, hmem ▸ hr, rfl, rfl, rfl, rfl⟩⟩

omit [Hashing] in
/-- Two claims are said together; saying them again changes nothing. -/
theorem repeat_unchanged_iff_pair : ∃ db₁ out, @Db.Reachable plain (Db.empty 0) ∧
    @insertBatch plain (Db.empty 0) (batchOf [claim 'a' [] none, claim 'b' [] none]) (ticking 0) =
      .ok (db₁, out) ∧
    ((∃ db₂ out', @insertBatch plain db₁ (batchOf [claim 'a' [] none, claim 'b' [] none])
        (ticking 9) = .ok (db₂, out') ∧ Unchanged db₁ db₂) ↔
      Reasserts (@Batch.assertions plain (Db.empty 0)
        (batchOf [claim 'a' [] none, claim 'b' [] none]))) := by
  obtain ⟨u, h, -⟩ := exists_of_succeedsWith
    (show succeedsWith (fun _ => true) (@insertBatch plain (Db.empty 0)
      (batchOf [claim 'a' [] none, claim 'b' [] none]) (ticking 0)) = true by decide)
  have hreach : @Db.Reachable plain (Db.empty 0) := ⟨0, .refl _⟩
  exact ⟨u.1, u.2, hreach, h, @repeat_unchanged_iff _ _ plain _ hreach (ticking 0) _ h (ticking 9)⟩

omit [Hashing] in
/-- A claim that stands is said again, and then another in its place: said once more, the pair
writes the first claim anew. -/
theorem repeat_writes_again : ∃ db db₁ db₂ out out' batch, @Db.Reachable plain db ∧
    @insertBatch plain db batch (ticking 9) = .ok (db₁, out) ∧
    @insertBatch plain db₁ batch (ticking 18) = .ok (db₂, out') ∧ ¬ Unchanged db₁ db₂ := by
  let batch := batchOf [claim 'a' [] none, claim 'b' [0] none]
  obtain ⟨steps, db, hrun, -, hp⟩ := exists_run_of_exec (@step plain) (Db.empty 0)
    [remember 0 [claim 'a' [] none]]
    (fun u => succeedsWith (fun v => succeedsWith (fun w => w.1.memory.rows.any fun r' =>
        v.1.memory.rows.all fun r => decide (r'.id ≠ r.id))
      (@insertBatch plain v.1 batch (ticking 18))) (@insertBatch plain u.2 batch (ticking 9)))
    (by decide)
  obtain ⟨v, hv, hp⟩ := exists_of_succeedsWith hp
  obtain ⟨w, hw, hp⟩ := exists_of_succeedsWith hp
  refine ⟨db, v.1, w.1, v.2, w.2, batch, ⟨0, steps, hrun⟩, hv, hw, fun hsame => ?_⟩
  obtain ⟨r', hr', hall⟩ := List.any_eq_true.mp hp
  obtain ⟨r, hr, hid, -⟩ := hsame.closing r' hr'
  exact of_decide_eq_true (List.all_eq_true.mp hall r hr) hid

end

end Agmem.Store.Idempotence
