import Agmem.Store.Interleaving

/-! Any number of `insert_batch` calls at once, none of which supersedes anything. Such a call
reads nothing of the store before its transaction, and its transaction closes nothing. A claim
therefore keeps the row it got first, and every caller that asserts it is told that row, unless
the caller is turned away: because it lost its third race, or because a vector it would write
does not have the width of the index. -/

namespace Agmem.Store.Contention

open Core Relational Claims Transition Optimistic Landing Interleaving

variable [Hashing] {db db' : Db} {batch : Batch} {space : SpaceName}

/-! ### An attempt that supersedes nothing -/

/-- The open row of a claim. -/
def Holds (db : Db) (space : SpaceName) (hash : Text) (r : MemoryRecord) : Prop :=
  r ∈ db.memory ∧ r.space = space ∧ r.contentHash = hash ∧ r.isLive = true

omit [Hashing] in
theorem Holds.unique {hash : Text} {r q : MemoryRecord} (h : Holds db space hash r)
    (h' : Holds db space hash q) : q = r := by
  obtain ⟨hr, hs, hh, hl⟩ := h
  obtain ⟨hq, hs', hh', hl'⟩ := h'
  exact live_unique hq hr hl' hl (hs'.trans hs.symm) (hh'.trans hh.symm)

omit [Hashing] in
theorem map_closing_nil (new : MemoryId) (boundary : Timestamp) (rows : List MemoryRecord) :
    rows.map (closing [] new boundary) = rows :=
  (List.map_congr_left fun r _ => closing_of_notMem (by simp)).trans (List.map_id rows)

omit [Hashing] in
theorem wrote_holds {m : MemoryBinds} {w : Written MemoryId} (h : Wrote space m db w db')
    (hm : m.Coherent space) (hold : m.old = []) : (∀ r ∈ db.memory, r ∈ db'.memory) ∧
      ∃ r, Holds db' space m.hash r ∧ r.id = w.id := by
  cases h with
  | created source now _ _ _ _ _ rows =>
    rw [hold, map_closing_nil] at rows
    constructor
    · intro r hr
      rw [Table.mem_iff, rows]
      exact List.mem_append_left _ hr
    · refine ⟨m.row.record ⟨db.minted⟩ source now, ⟨?_, hm.space, hm.hash, rfl⟩, rfl⟩
      rw [Table.mem_iff, rows]
      exact List.mem_append_right _ (List.mem_singleton_self _)
  | duplicate mem inSpace hash live _ _ _ rows =>
    rename_i dup t _ _ _
    rw [hold, show complement [] [dup.id] = [] from rfl, map_closing_nil] at rows
    have hkeep : ∀ r ∈ db.memory, r ∈ t := by
      intro r hr
      rwa [Table.mem_iff, rows]
    exact ⟨hkeep, dup, ⟨hkeep dup mem, inSpace, hash, live⟩, rfl⟩

omit [Hashing] in
theorem wroteAll_holds {ms : List MemoryBinds} {ws : List (Written MemoryId)}
    (h : WroteAll space db ms ws db') (hm : ∀ m ∈ ms, m.Coherent space)
    (hold : ∀ m ∈ ms, m.old = []) : (∀ r ∈ db.memory, r ∈ db'.memory) ∧
      ∀ (j : ℕ) (m : MemoryBinds), ms[j]? = some m →
        ∃ (w : Written MemoryId) (r : MemoryRecord), ws[j]? = some w ∧ Holds db' space m.hash r ∧
          r.id = w.id := by
  induction h with
  | nil db => exact ⟨fun r hr => hr, by simp⟩
  | @cons db db₁ db' m ms w ws h rest ih =>
    obtain ⟨hm₀, hm⟩ := List.forall_mem_cons.mp hm
    obtain ⟨hold₀, hold⟩ := List.forall_mem_cons.mp hold
    obtain ⟨hkeep₀, r, ⟨hr, hholds⟩, hid⟩ := wrote_holds h hm₀ hold₀
    obtain ⟨hkeep, hall⟩ := ih hm hold
    refine ⟨fun r hr => hkeep r (hkeep₀ r hr), ?_⟩
    intro j m' hj
    cases j with
    | zero =>
      simp only [List.getElem?_cons_zero, Option.some.injEq] at hj
      subst hj
      exact ⟨w, r, rfl, ⟨hkeep r hr, hholds⟩, hid⟩
    | succ j => exact hall j m' (by simpa using hj)

/-- The caller of a batch was told, for each memory, the one open row of its claim. -/
def Told (batch : Batch) (db : Db) (out : BatchOutcome) : Prop :=
  ∀ (j : ℕ) (m : NewMemory), batch.memories[j]? = some m →
    ∃ (w : Written MemoryId) (r : MemoryRecord), out.memories[j]? = some w ∧ r.id = w.id ∧ ∀ q,
       Holds db batch.space (contentHash m.content) q ↔ q = r

theorem Told.kept {out : BatchOutcome} (h : Told batch db out)
    (hkeep : ∀ r ∈ db.memory, r ∈ db'.memory) : Told batch db' out := by
  intro j m hj
  obtain ⟨w, r, hw, hid, hr⟩ := h j m hj
  obtain ⟨hmem, hholds⟩ := (hr r).mpr rfl
  have hnew : Holds db' batch.space (contentHash m.content) r := ⟨hkeep r hmem, hholds⟩
  exact ⟨w, r, hw, hid, fun q => ⟨hnew.unique, fun hq => hq ▸ hnew⟩⟩

theorem attempt_told {clock : Clock} {out : BatchOutcome} (hw : db.WellFormed)
    (htargets : batch.targets = []) (h : insertBatchOnce db batch clock = .ok (db', out)) :
    db'.WellFormed ∧ (∀ r ∈ db.memory, r ∈ db'.memory) ∧ Told batch db' out := by
  obtain ⟨hin, -, -, db₁, ha, hall⟩ := insertBatchOnce_ok hw h
  have hcoherent : ∀ b ∈ (batch.retain out.alreadyClosed).binds clock, b.Coherent batch.space :=
    fun b hb => (Batch.mem_binds hb).1
  have hspace : ∀ b ∈ (batch.retain out.alreadyClosed).binds clock,
      InSpace db₁.memory batch.space b.old :=
    fun b hb => (retain_inSpace hin b hb).kept ha.kept
  have hold : ∀ b ∈ (batch.retain out.alreadyClosed).binds clock, b.old = [] := by
    intro b hb
    obtain ⟨-, m, hm, -, hb⟩ := Batch.mem_binds hb
    obtain ⟨m₀, hm₀, rfl⟩ := List.mem_map.mp hm
    rw [hb, List.eq_nil_iff_forall_not_mem]
    intro id hid
    have hmem : id ∈ batch.targets := List.mem_flatMap.mpr ⟨m₀, hm₀, (mem_retain.mp hid).1⟩
    simp [htargets] at hmem
  obtain ⟨hkeep, htold⟩ := wroteAll_holds hall hcoherent hold
  refine ⟨hall.wellFormed hcoherent hspace (ha.wellFormed hw),
    fun r hr => hkeep r (ha.memory ▸ hr), ?_⟩
  intro j m hj
  obtain ⟨w, r, hws, hholds, hid⟩ := htold j _ (by
    rw [Batch.binds, List.getElem?_mapIdx, Batch.retain, List.getElem?_map, hj]
    rfl)
  exact ⟨w, r, hws, hid, fun q => ⟨hholds.unique, fun hq => hq ▸ hholds⟩⟩

/-- The vectors that a batch would write have the width of the index: those of an episode that is
not stored yet, and of a claim that neither stands nor comes earlier in the batch. -/
def VectorsFit (batch : Batch) (db : Db) : Prop :=
  EpisodeFits db batch ∧ ∀ pre m post, batch.memories = pre ++ m :: post →
    contentHash m.content ∉ liveClaims db batch.space →
    (∀ p ∈ pre, contentHash p.content ≠ contentHash m.content) →
    fits db.dimension m.embedding = true

/-- Insertions that supersede nothing only add claims. -/
theorem notMem_standing_iff {claims : Set Text} {hash : Text} {pre : List NewMemory}
    (hnone : ∀ p ∈ pre, p.supersedes = []) :
    hash ∉ standing claims (pre.map (NewMemory.assertion db)) ↔
      hash ∉ claims ∧ ∀ p ∈ pre, contentHash p.content ≠ hash := by
  have hpre : ∀ p ∈ pre, ¬ (p.assertion db).Withdraws hash := by
    rintro p hp ⟨⟨r, -, hid, -⟩, -⟩
    rw [hnone p hp] at hid
    cases hid
  constructor
  · intro hno
    refine ⟨fun hmem => hno (mem_standing_of_mem hmem ?_), fun p hp heq => hno ?_⟩
    · simpa using hpre
    · obtain ⟨front, back, rfl⟩ := List.append_of_mem hp
      rw [List.map_append, standing_append, List.map_cons, standing_cons]
      refine mem_standing_of_mem (Assertion.mem_apply.mpr (.inl heq.symm)) ?_
      intro a ha
      obtain ⟨q, hq, rfl⟩ := List.mem_map.mp ha
      exact hpre q (by simp [hq])
  · rintro ⟨hno, hfirst⟩
    refine notMem_standing hno ?_
    intro a ha
    obtain ⟨p, hp, rfl⟩ := List.mem_map.mp ha
    exact hfirst p hp

theorem lands_iff (htargets : batch.targets = []) (clock : Clock) :
    Lands db batch clock ↔ VectorsFit batch db := by
  have hnone : ∀ m ∈ batch.memories, m.supersedes = [] := List.flatMap_eq_nil_iff.mp htargets
  have hstanding (pre post : List NewMemory) (m : NewMemory)
      (he : batch.memories = pre ++ m :: post) :
      contentHash m.content ∉ standing (liveClaims db batch.space)
        (pre.map (NewMemory.assertion db)) ↔ contentHash m.content ∉ liveClaims db batch.space ∧
          ∀ p ∈ pre, contentHash p.content ≠ contentHash m.content :=
    notMem_standing_iff fun p hp => hnone p (by simp [he, hp])
  constructor
  · intro h
    refine ⟨h.episode, fun pre m post he hno hfirst => ?_⟩
    exact h.memories.fits pre m post he ((hstanding pre post m he).mpr ⟨hno, hfirst⟩)
  · rintro ⟨hep, hfits⟩
    refine ⟨hep, ⟨?_, ?_, ?_, ?_⟩⟩
    · intro m hm r _ _ _
      simp [hnone m hm]
    · refine List.pairwise_of_forall_mem_list ?_
      intro p hp m _ r _ _ hid
      rw [hnone p hp] at hid
      cases hid
    · intro i m hi r _ _ hid
      rw [hnone m (List.mem_of_getElem? hi)] at hid
      cases hid
    · intro pre m post he hno
      obtain ⟨hno, hfirst⟩ := (hstanding pre post m he).mp hno
      exact hfits pre m post he hno hfirst

/-- An attempt that supersedes nothing goes through if its vectors fit, and otherwise fails for
good. -/
theorem decided (hw : db.WellFormed) (htargets : batch.targets = []) (clock : ℕ → Clock) :
    Decided (caller batch clock) (VectorsFit batch) db := by
  have hin : InSpace db.memory batch.space batch.targets := by simp [htargets, InSpace]
  refine ⟨?_, ?_, ?_⟩
  · intro read hread note
    have hex : ensureMemoriesExist db batch.space batch.targets = .ok () :=
      ensureMemoriesExist_ok.mpr hin
    simp only [caller, List.mem_cons, List.not_mem_nil, or_false] at hread
    rcases hread with rfl | rfl
    · exact ⟨note, by simp [readExisting, hex]⟩
    · exact ⟨_, rfl⟩
  · intro hfit k
    rw [caller_once]
    exact (attempt_isOk_iff hw hin).mpr ((lands_iff htargets _).mpr hfit)
  · intro hno k
    rw [caller_once]
    cases h : insertBatchOnce db batch (clock k) with
    | ok out => exact absurd ((lands_iff htargets _).mp ((attempt_isOk_iff hw hin).mp ⟨out, h⟩)) hno
    | error e =>
      refine ⟨e, rfl, ?_⟩
      cases e with
      | db e =>
        rw [← Bool.not_eq_true]
        intro hrace
        have he := attempt_race hw hin h hrace
        subst he
        obtain ⟨-, pre, m, post, hms, -, -, r, -, -, hid, -⟩ := ((attempt_index_iff hw hin).mp h).2
        have hmem : r.id ∈ batch.targets := List.mem_flatMap.mpr ⟨m, by simp [hms], hid⟩
        simp [htargets] at hmem
      | _ => rfl

theorem blind (htargets : batch.targets = []) (clock : ℕ → Clock) : Blind (caller batch clock) := by
  intro read hread s t note
  simp only [caller, List.mem_cons, List.not_mem_nil, or_false] at hread
  rcases hread with rfl | rfl
  · simp [readExisting, htargets, ensureMemoriesExist]
  · simp [readClosed, htargets, closedMemories]

/-! ### Any number of calls -/

/-- However the steps of the calls fall, each one that returns is told the one open row of each of
its claims, exactly when none loses its third race or has a vector that does not fit. -/
theorem converge_iff {ι : Type*} [DecidableEq ι] {batch : ι → Batch} {clock : ι → ℕ → Clock}
    {steps : List (Step (State ι Db (List AlreadyClosed) StoreError BatchOutcome)
      (Action ι StoreError))}
    {S : State ι Db (List AlreadyClosed) StoreError BatchOutcome} (hdb : db.Reachable)
    (htargets : ∀ i, (batch i).targets = [])
    (h : Run (Optimistic.step fun i => caller (batch i) (clock i))
      (initial (fun i => caller (batch i) (clock i)) db) steps S) :
    (∀ i r, S.phase i = .done r → ∃ out, r = .ok out ∧ Told (batch i) S.store out) ↔
      ∀ e ∈ steps, ¬ TurnsAway (fun i => caller (batch i) (clock i))
        (fun i => VectorsFit (batch i)) e := by
  have hblind (i : ι) : Blind (caller (batch i) (clock i)) := blind (htargets i) (clock i)
  have hattempt (i : ι) (k : ℕ) (s t : Db) (out : BatchOutcome)
      (hok : (caller (batch i) (clock i)).once k s = .ok (t, out)) (hw : s.WellFormed) :
      t.WellFormed ∧ Told (batch i) t out ∧ ∀ j q, Told (batch j) s q → Told (batch j) t q := by
    rw [caller_once] at hok
    obtain ⟨hwt, hkeep, htold⟩ := attempt_told hw (htargets i) hok
    exact ⟨hwt, htold, fun j q hq => hq.kept hkeep⟩
  have hserved := served_iff (I := Db.WellFormed) (F := fun i => VectorsFit (batch i)) hblind
    (fun i k s t out hok hw => (hattempt i k s t out hok hw).1)
    (fun i s hw => decided hw (htargets i) (clock i)) h hdb.wellFormed
  obtain ⟨-, htold⟩ := blind_invariant (P := fun i out s => Told (batch i) s out) hblind hattempt h
    hdb.wellFormed
  rw [← hserved]
  constructor
  · intro hall i e hat
    obtain ⟨out, hout, -⟩ := hall i _ hat
    cases hout
  · intro hs i r hat
    cases r with
    | ok out => exact ⟨out, rfl, htold i out hat⟩
    | error e => exact absurd hat (hs i e)

omit [Hashing] in
/-- Two callers of one claim. -/
theorem converge_iff_pair : ∃ (batch : Bool → Batch) (clock : Bool → ℕ → Clock) (db : Db)
    (steps : List _) (S : State Bool Db (List AlreadyClosed) StoreError BatchOutcome),
    @Db.Reachable plain db ∧ (∀ i, (batch i).targets = []) ∧
    Run (Optimistic.step fun i => @caller plain (batch i) (clock i))
      (initial (fun i => @caller plain (batch i) (clock i)) db) steps S ∧
    ((∀ i r, S.phase i = .done r → ∃ out, r = .ok out ∧ @Told plain (batch i) S.store out) ↔
      ∀ e ∈ steps, ¬ TurnsAway (fun i => @caller plain (batch i) (clock i))
        (fun i => @VectorsFit plain (batch i)) e) := by
  obtain ⟨steps, S, hrun, -, -⟩ := exists_run_of_exec
    (Optimistic.step fun _ : Bool => @caller plain (batchOf [claim 'a' [] none]) (ticking 0))
    (initial (fun _ => @caller plain (batchOf [claim 'a' [] none]) (ticking 0)) (Db.empty 0))
    [⟨true, .read⟩, ⟨true, .read⟩, ⟨true, .begin⟩, ⟨false, .read⟩, ⟨false, .read⟩,
      ⟨false, .begin⟩, ⟨false, .commit⟩, ⟨true, .lose (.db .conflict)⟩, ⟨true, .read⟩,
      ⟨true, .read⟩, ⟨true, .begin⟩, ⟨true, .commit⟩] (fun _ => true) (by decide)
  have hempty : @Db.Reachable plain (Db.empty 0) := ⟨0, [], .nil _⟩
  have hnone (i : Bool) : (batchOf [claim 'a' [] none]).targets = [] := rfl
  exact ⟨_, _, _, steps, S, hempty, hnone, hrun,
    @converge_iff plain (Db.empty 0) Bool _ _ _ steps S hempty hnone hrun⟩

/-- One attempt of a caller, up to the opening of its transaction. -/
def opening {ι : Type} (i : ι) : List (Action ι StoreError) :=
  [⟨i, .read⟩, ⟨i, .read⟩, ⟨i, .begin⟩]

/-- A batch of three claims, and a batch of each. -/
def threeAndEach : Fin 4 → Batch
  | 0 => batchOf [claim 'a' [] none, claim 'b' [] none, claim 'c' [] none]
  | 1 => batchOf [claim 'a' [] none]
  | 2 => batchOf [claim 'b' [] none]
  | 3 => batchOf [claim 'c' [] none]

/-- The first caller opens its transaction, another opens and commits, and the first is aborted. -/
def loses (i : Fin 4) : List (Action (Fin 4) StoreError) :=
  opening 0 ++ opening i ++ [⟨i, .commit⟩, ⟨0, .lose (.db .conflict)⟩]

def endsWith {ι σ ν ρ : Type} (i : ι) (e : StoreError) (S : State ι σ ν StoreError ρ) : Bool :=
  match S.phase i with
  | .done r => failsWith e r
  | _ => false

omit [Hashing] in
theorem done_of_endsWith {ι σ ν ρ : Type} {i : ι} {e : StoreError} {S : State ι σ ν StoreError ρ}
    (h : endsWith i e S = true) : S.phase i = .done (.error e) := by
  unfold endsWith at h
  split at h
  · next r hr => rw [hr, eq_error_of_failsWith h]
  · cases h

omit [Hashing] in
/-- A batch of three claims loses a race over each of them, one by one. -/
theorem three_races_lost : ∃ (batch : Fin 4 → Batch) (clock : Fin 4 → ℕ → Clock) (steps : List _)
    (S : State (Fin 4) Db (List AlreadyClosed) StoreError BatchOutcome),
    (∀ i, (batch i).targets = []) ∧
    Run (Optimistic.step fun i => @caller plain (batch i) (clock i))
      (initial (fun i => @caller plain (batch i) (clock i)) (Db.empty 0)) steps S ∧
    S.phase 0 = .done (.error (.db .conflict)) := by
  obtain ⟨steps, S, hrun, -, hend⟩ := exists_run_of_exec
    (Optimistic.step fun i => @caller plain (threeAndEach i) (ticking 0))
    (initial (fun i => @caller plain (threeAndEach i) (ticking 0)) (Db.empty 0))
    (loses 1 ++ loses 2 ++ loses 3) (fun u => endsWith 0 (.db .conflict) u.2) (by decide)
  exact ⟨threeAndEach, fun _ => ticking 0, steps, S, by decide, hrun, done_of_endsWith hend⟩

end Agmem.Store.Contention
