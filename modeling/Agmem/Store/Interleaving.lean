import Agmem.Store.Landing
import Agmem.Transition.Pair

/-! Two `insert_batch` calls at once. Which targets exist and which are closed is read before
the transaction, so the other call may commit in between. It never takes a row away, and a row
it closes stays closed; all it can do to what was read is close a target that was listed as
open, and the transaction then comes up one row short and aborts. -/

namespace Agmem.Store.Interleaving

open Core Relational Transition Optimistic

variable [Hashing]

/-! ### A call, step by step -/

/-- `EXISTING_MEMORIES`, as a read before the transaction. -/
def readExisting (batch : Batch) (db : Db) (closed : List AlreadyClosed) :
    Except StoreError (List AlreadyClosed) :=
  match ensureMemoriesExist db batch.space batch.targets with
  | .error e => .error e
  | .ok () => .ok closed

/-- `CLOSED_MEMORIES`, as a read before the transaction. -/
def readClosed (batch : Batch) (db : Db) (_ : List AlreadyClosed) :
    Except StoreError (List AlreadyClosed) :=
  .ok (closedMemories db batch.space batch.targets)

/-- The transaction, with the targets that were read as closed left out. -/
def transact (batch : Batch) (clock : Clock) (closed : List AlreadyClosed) (db : Db) :
    Except StoreError (Db × BatchOutcome) :=
  match batchTransaction db (batch.retain closed) clock with
  | .error e => .error (.db e)
  | .ok (db, episode, written) =>
    .ok (db, { episode := episode, memories := written,
               superseded := (List.zipWith closedTargets (batch.retain closed).memories
                 written).flatten,
               alreadyClosed := closed })

/-- Whether `insert_batch` tries again. -/
def retried : StoreError → Bool
  | .db e => isWriteRace e
  | _ => false

def caller (batch : Batch) (clock : ℕ → Clock) :
    Caller Db (List AlreadyClosed) StoreError BatchOutcome where
  start := []
  reads := [readExisting batch, readClosed batch]
  body k := transact batch (clock k)
  race := retried
  retries := 2

variable {db db' : Db} {batch : Batch} {clock : ℕ → Clock}

/-- Undisturbed, an attempt is `insert_batch_once`. -/
theorem caller_once (k : ℕ) :
    (caller batch clock).once k db = insertBatchOnce db batch (clock k) := by
  simp only [Caller.once, caller, readAll, readExisting, readClosed, insertBatchOnce, transact]
  cases ensureMemoriesExist db batch.space batch.targets with
  | error e => rfl
  | ok u => rfl

/-- Undisturbed, a call is `insert_batch`. -/
theorem caller_attempts (k left : ℕ) :
    (caller batch clock).attempts db k left = insertBatchFrom db batch clock k left := by
  induction left generalizing k with
  | zero => exact caller_once k
  | succ left ih =>
    simp only [Caller.attempts, insertBatchFrom, caller_once, ih]
    cases insertBatchOnce db batch (clock k) with
    | ok out => rfl
    | error e => cases e <;> rfl

/-! ### What the other call can do to a read -/

/-- The rows there were, as they evolved, and behind them rows minted since. -/
def Extends (s t : Db) : Prop :=
  s.minted ≤ t.minted ∧ ∃ (g : MemoryRecord → MemoryRecord) (new : List MemoryRecord),
    t.memory.rows = s.memory.rows.map g ++ new ∧ (∀ r, Evolves r (g r)) ∧
      ∀ q ∈ new, s.minted ≤ q.id.ulid

omit [Hashing] in
theorem Extends.refl (s : Db) : Extends s s := ⟨le_rfl, id, [], by simp, Evolves.refl, by simp⟩

omit [Hashing] in
theorem Extends.trans {s t u : Db} (h : Extends s t) (h' : Extends t u) : Extends s u := by
  obtain ⟨hle, g, new, hrows, hg, hnew⟩ := h
  obtain ⟨hle', g', new', hrows', hg', hnew'⟩ := h'
  refine ⟨hle.trans hle', g' ∘ g, new.map g' ++ new', ?_, fun r => (hg r).trans (hg' _), ?_⟩
  · rw [hrows', hrows, List.map_append, List.map_map, List.append_assoc]
  · intro q hq
    rcases List.mem_append.mp hq with hq | hq
    · obtain ⟨r, hr, rfl⟩ := List.mem_map.mp hq
      rw [(hg' r).id]
      exact hnew r hr
    · exact hle.trans (hnew' q hq)

omit [Hashing] in
theorem Extends.kept {s t : Db} (h : Extends s t) : Kept s t := by
  obtain ⟨-, g, new, hrows, hg, -⟩ := h
  intro r hr
  refine ⟨g r, ?_, hg r⟩
  rw [Table.mem_iff, hrows]
  exact List.mem_append_left _ (List.mem_map_of_mem hr)

omit [Hashing] in
theorem extends_wrote {space : SpaceName} {m : MemoryBinds} {w : Written MemoryId}
    (h : Wrote space m db w db') : Extends db db' := by
  cases h with
  | created source now _ _ _ _ _ rows =>
    exact ⟨Nat.le_succ _, _, _, rows, fun r => .closing _ _ _ r, by simp [MemoryRow.record]⟩
  | duplicate _ _ _ _ _ _ _ rows =>
    exact ⟨le_rfl, _, [], by simpa using rows, fun r => .closing _ _ _ r, by simp⟩

omit [Hashing] in
theorem extends_wroteAll {space : SpaceName} {ms : List MemoryBinds} {ws : List (Written MemoryId)}
    (h : WroteAll space db ms ws db') : Extends db db' := by
  induction h with
  | nil db => exact .refl db
  | cons h _ ih => exact (extends_wrote h).trans ih

omit [Hashing] in
theorem extends_aside (h : Aside db db') : Extends db db' :=
  ⟨h.minted, id, [], by simp [h.memory], Evolves.refl, by simp⟩

theorem extends_attempt {clock : Clock} {out : BatchOutcome} (hw : db.WellFormed)
    (h : insertBatchOnce db batch clock = .ok (db', out)) : Extends db db' := by
  obtain ⟨-, -, -, db₁, ha, hall⟩ := insertBatchOnce_ok hw h
  exact (extends_aside ha).trans (extends_wroteAll hall)

/-- A target that one store has open, and the other closed. -/
def Stale (batch : Batch) (s t : Db) : Prop :=
  ∃ r ∈ s.memory, r.space = batch.space ∧ r.id ∈ batch.targets ∧ r.isLive = true ∧
    ∃ q ∈ t.memory, q.id = r.id ∧ q.isLive = false

omit [Hashing] in
/-- A row minted since is no target: the targets were there. -/
theorem not_target_of_minted {s : Db} (hw : s.WellFormed)
    (hin : InSpace s.memory batch.space batch.targets) {q : MemoryRecord}
    (hq : s.minted ≤ q.id.ulid) : q.id ∉ batch.targets := by
  intro hmem
  obtain ⟨r, hr, hid, -⟩ := hin q.id hmem
  have hlt := hw.memory r hr
  rw [hid] at hlt
  exact absurd hq (not_le.mpr hlt)

omit [Hashing] in
/-- Unless a target went stale, a row evolved into a closed target from one. -/
theorem closed_target_iff {s t : Db} {g : MemoryRecord → MemoryRecord} (hg : ∀ r, Evolves r (g r))
    (hstale : ¬ Stale batch s t) {r : MemoryRecord} (hr : r ∈ s.memory.rows)
    (hgr : g r ∈ t.memory.rows) :
    (decide ((g r).space = batch.space ∧ (g r).id ∈ batch.targets) && !(g r).isLive) =
      (decide (r.space = batch.space ∧ r.id ∈ batch.targets) && !r.isLive) := by
  simp only [(hg r).space, (hg r).id]
  cases hl : r.isLive with
  | false =>
    have hgl : (g r).isLive = false := by
      rw [MemoryRecord.isLive, ((hg r).closed hl).1]
      exact hl
    rw [hgl]
  | true =>
    by_cases htarget : r.space = batch.space ∧ r.id ∈ batch.targets
    · have hgl : (g r).isLive = true := by
        by_contra hno
        exact hstale ⟨r, hr, htarget.1, htarget.2, hl, g r, Table.mem_iff.mpr hgr, (hg r).id,
          (Bool.not_eq_true _).mp hno⟩
      rw [hgl]
    · simp [htarget]

omit [Hashing] in
/-- Unless a target went stale, the same targets are read as closed. -/
theorem closedMemories_eq {s t : Db} (hw : s.WellFormed) (h : Extends s t)
    (hin : InSpace s.memory batch.space batch.targets) (hstale : ¬ Stale batch s t) :
    closedMemories t batch.space batch.targets = closedMemories s batch.space batch.targets := by
  obtain ⟨-, g, new, hrows, hg, hnew⟩ := h
  have hnone : new.filter (fun r => decide (r.space = batch.space ∧ r.id ∈ batch.targets) &&
      !r.isLive) = [] := by
    rw [List.filter_eq_nil_iff]
    intro q hq
    simp [not_target_of_minted hw hin (hnew q hq)]
  have hfilter : ∀ r ∈ s.memory.rows,
      ((fun r => decide (r.space = batch.space ∧ r.id ∈ batch.targets) && !r.isLive) ∘ g) r =
        (decide (r.space = batch.space ∧ r.id ∈ batch.targets) && !r.isLive) := by
    intro r hr
    refine closed_target_iff hg hstale hr ?_
    rw [hrows]
    exact List.mem_append_left _ (List.mem_map_of_mem hr)
  unfold closedMemories
  rw [hrows, List.filter_append, hnone, List.append_nil, List.filter_map, List.map_map,
    List.filter_congr hfilter]
  refine List.map_congr_left fun r hr => ?_
  have hl : r.isLive = false := by
    have := (List.mem_filter.mp hr).2
    simpa using (Bool.and_eq_true_iff.mp this).2
  obtain ⟨-, hreason, hby⟩ := (hg r).closed hl
  simp only [Function.comp_apply, (hg r).id, hreason, hby]

omit [Hashing] in
/-- Every target that a block is given is open when it starts. -/
theorem target_open {space : SpaceName} {m : MemoryBinds} {w : Written MemoryId}
    (h : Wrote space m db w db') {r : MemoryRecord} (hr : r ∈ db.memory) (hid : r.id ∈ m.old) :
    r.isLive = true := by
  have hopen {old : List MemoryId} (ho : Open db.memory old) (hid : r.id ∈ old) :
      r.isLive = true := by
    obtain ⟨q, hq, hqid, hql⟩ := ho r.id hid
    rwa [Table.eq_of_key hr hq hqid.symm]
  cases h with
  | created _ _ _ _ _ targets => exact hopen targets hid
  | duplicate mem _ _ live _ targets =>
    rename_i dup _ _ _ _ _ _
    by_cases hdup : r.id = dup.id
    · rwa [Table.eq_of_key hr mem hdup]
    · exact hopen targets (mem_complement.mpr ⟨hid, by simpa using hdup⟩)

omit [Hashing] in
theorem targets_open {space : SpaceName} {ms : List MemoryBinds} {ws : List (Written MemoryId)}
    (h : WroteAll space db ms ws db') {m : MemoryBinds} (hm : m ∈ ms) {r : MemoryRecord}
    (hr : r ∈ db.memory) (hid : r.id ∈ m.old) : r.isLive = true := by
  induction h generalizing r with
  | nil db => cases hm
  | cons h _ ih =>
    rcases List.mem_cons.mp hm with rfl | hm
    · exact target_open h hr hid
    · obtain ⟨r', hr', he⟩ := h.grown.2 r hr
      exact he.live_of_live (ih hm hr' (he.id ▸ hid))

theorem transact_stale {s t : Db} (hs : s.WellFormed) (h : Extends s t)
    (hin : InSpace s.memory batch.space batch.targets) (hstale : Stale batch s t) (clock : Clock) :
    ∃ e, transact batch clock (closedMemories s batch.space batch.targets) t = .error e := by
  obtain ⟨r, hr, hspace, htarget, hlive, q, hq, hqid, hclosed⟩ := hstale
  obtain ⟨m, hm, hmem⟩ := List.mem_flatMap.mp htarget
  have hkept : r.id ∈ (m.retain (closedMemories s batch.space batch.targets)).supersedes := by
    refine mem_retain.mpr ⟨hmem, ?_⟩
    intro c hc
    obtain ⟨r', hr', rfl⟩ := List.mem_map.mp hc
    obtain ⟨hr', hfilter⟩ := List.mem_filter.mp hr'
    intro hid
    have hrr : r' = r := Table.eq_of_key hr' hr hid
    simp [hrr, hlive] at hfilter
  unfold transact
  cases htx : batchTransaction t
      (batch.retain (closedMemories s batch.space batch.targets)) clock with
  | error e => exact ⟨_, rfl⟩
  | ok out =>
    exfalso
    obtain ⟨u, ep, ws⟩ := out
    have hold : ∀ m ∈ (batch.retain (closedMemories s batch.space batch.targets)).memories,
        ∀ id ∈ m.supersedes, id.ulid < t.minted := by
      intro m' hm' id hid
      obtain ⟨m₀, hm₀, rfl⟩ := List.mem_map.mp hm'
      obtain ⟨r₀, hr₀, rfl, -⟩ :=
        hin id (List.mem_flatMap.mpr ⟨m₀, hm₀, (mem_retain.mp hid).1⟩)
      exact (hs.memory r₀ hr₀).trans_le h.1
    obtain ⟨t₁, ha, hall⟩ := batchTransaction_ok hold htx
    obtain ⟨i, hi, rfl⟩ := List.getElem_of_mem hm
    have hbind : bindMemory (batch.retain (closedMemories s batch.space batch.targets)) clock i
        (batch.memories[i].retain (closedMemories s batch.space batch.targets)) ∈
        (batch.retain (closedMemories s batch.space batch.targets)).binds clock := by
      refine List.mem_mapIdx.mpr ⟨i, by simpa [Batch.retain] using hi, ?_⟩
      simp [Batch.retain]
    have hopen := targets_open hall hbind (ha.memory ▸ hq) (hqid ▸ hkept)
    rw [hclosed] at hopen
    cases hopen

/-- Reads of the store before the other's commit, finished on the store after it, come to
what an attempt on the later store comes to, unless a target was closed in between. -/
theorem caller_mixes {other : Batch} {now : Clock} {out : BatchOutcome} {s t : Db}
    (hs : s.WellFormed) (h : insertBatchOnce s other now = .ok (t, out)) :
    Mixes (caller batch clock) s t (Stale batch s t) := by
  have hext := extends_attempt hs h
  intro front back note k hreads hnote
  have htarget (u : Unit) (he : ensureMemoriesExist s batch.space batch.targets = .ok u) :
      InSpace s.memory batch.space batch.targets ∧
        ensureMemoriesExist t batch.space batch.targets = .ok () := by
    have hin := ensureMemoriesExist_ok.mp he
    exact ⟨hin, ensureMemoriesExist_ok.mpr (hin.kept hext.kept)⟩
  match front, hreads with
  | [], hreads =>
    left
    simp only [readAll, Except.ok.injEq] at hnote
    simp only [List.nil_append] at hreads
    subst hnote hreads
    rfl
  | [_], hreads =>
    left
    simp only [caller, List.cons_append, List.nil_append, List.cons.injEq] at hreads
    obtain ⟨rfl, rfl⟩ := hreads
    simp only [readAll, readExisting, caller] at hnote
    cases he : ensureMemoriesExist s batch.space batch.targets with
    | error e => simp [he] at hnote
    | ok u =>
      obtain ⟨-, ht⟩ := htarget u he
      simp [Caller.once, Caller.resumed, caller, readAll, readExisting, readClosed, ht]
  | [_, _], hreads =>
    simp only [caller, List.cons_append, List.nil_append, List.cons.injEq] at hreads
    obtain ⟨rfl, rfl, rfl⟩ := hreads
    simp only [readAll, readExisting, readClosed, caller] at hnote
    cases he : ensureMemoriesExist s batch.space batch.targets with
    | error e => simp [he] at hnote
    | ok u =>
      obtain ⟨hin, ht⟩ := htarget u he
      simp only [he, Except.ok.injEq] at hnote
      subst hnote
      by_cases hstale : Stale batch s t
      · exact .inr ⟨hstale, transact_stale hs hext hin hstale (clock k)⟩
      · left
        simp [Caller.once, Caller.resumed, caller, readAll, readExisting, readClosed, ht,
          closedMemories_eq hs hext hin hstale]
  | _ :: _ :: _ :: _, hreads => simp [caller] at hreads

/-! ### Two calls -/

section Two

variable {batch : Bool → Batch} {clock : Bool → ℕ → Clock} {i : Bool}

/-- The two calls, with the readings of the clock their attempts make. -/
def callers (batch : Bool → Batch) (clock : Bool → ℕ → Clock) :
    Bool → Caller Db (List AlreadyClosed) StoreError BatchOutcome :=
  fun i => caller (batch i) (clock i)

/-- One call after the other, `i` first, each with the readings of one of its attempts. -/
def InOrder (batch : Bool → Batch) (clock : Bool → ℕ → Clock) (i : Bool) (db : Db)
    (S : State Bool Db (List AlreadyClosed) StoreError BatchOutcome) : Prop :=
  ∃ k < 3, ∃ l < 3,
    let first := after db (insertBatch db (batch i) fun _ => clock i k)
    let second := after first.1 (insertBatch first.1 (batch !i) fun _ => clock (!i) l)
    S.phase i = .done first.2 ∧ S.phase (!i) = .done second.2 ∧ S.store = second.1

/-- The call `i` takes effect alone. The other is turned away: a target that it had read as open
was closed by `i`, or its last attempt was aborted, after the index had refused the earlier
ones. -/
def Overtaken (batch : Bool → Batch) (clock : Bool → ℕ → Clock) (i : Bool) (db : Db)
    (S : State Bool Db (List AlreadyClosed) StoreError BatchOutcome) : Prop :=
  ∃ k < 3, ∃ out e, insertBatch db (batch i) (fun _ => clock i k) = .ok (S.store, out) ∧
    S.phase i = .done (.ok out) ∧ S.phase (!i) = .done (.error e) ∧
      (Stale (batch !i) db S.store ∨ retried e = true ∧ ∀ l < 2,
        insertBatchOnce db (batch !i) (clock (!i) l) = .error (.db (.indexExists .memHashLive)))

/-- With the clock standing still, every attempt is the first. -/
theorem insertBatch_const (db : Db) (batch : Batch) (now : Clock) :
    insertBatch db batch (fun _ => now) = insertBatchOnce db batch now := by
  simp only [insertBatch, insertBatchFrom]
  cases insertBatchOnce db batch now with
  | ok out => rfl
  | error e => cases e <;> simp

theorem caller_once_eq {batch : Batch} {clock : ℕ → Clock} (k : ℕ) :
    (caller batch clock).once k db = insertBatch db batch fun _ => clock k := by
  rw [insertBatch_const, caller_once]

/-- An attempt that is refused in a way that is retried is refused by the live claims. -/
theorem refused_index {batch : Batch} {clock : ℕ → Clock} {k : ℕ} {e : StoreError}
    (hw : db.WellFormed) (h : (caller batch clock).once k db = .error e) (hr : retried e = true) :
    insertBatchOnce db batch (clock k) = .error (.db (.indexExists .memHashLive)) := by
  rw [caller_once] at h
  have hin : InSpace db.memory batch.space batch.targets := by
    refine ensureMemoriesExist_ok.mp ?_
    unfold insertBatchOnce at h
    split at h
    · next he =>
      cases h
      unfold ensureMemoriesExist at he
      split at he <;> cases he
      cases hr
    · assumption
  cases e with
  | db e => rw [h, Landing.attempt_race hw hin h hr]
  | _ => cases hr

/-! ### Two scripts -/

/-- The end of a script of two calls, if its steps can be taken: the call `true` is told `e`, and
would not be in turn. -/
def endsApart (batch : Bool → Batch) (now : Clock) (e : StoreError)
    (u : Db × State Bool Db (List AlreadyClosed) StoreError BatchOutcome) : Bool :=
  (match u.2.phase true, u.2.phase false with
    | .done (.error e'), .done _ => decide (e' = e)
    | _, _ => false) &&
  !failsWith e (insertBatch u.1 (batch true) fun _ => now) &&
  !failsWith e (insertBatch (after u.1 (insertBatch u.1 (batch false) fun _ => now)).1 (batch true)
    fun _ => now)

theorem not_inOrder_of_endsApart {now : Clock} {e : StoreError}
    {S : State Bool Db (List AlreadyClosed) StoreError BatchOutcome}
    (h : endsApart batch now e (db, S) = true) : (∀ i, ∃ r, S.phase i = .done r) ∧
      S.phase true = .done (.error e) ∧ ∀ i, ¬ InOrder batch (fun _ _ => now) i db S := by
  simp only [endsApart, Bool.and_eq_true, Bool.not_eq_true'] at h
  obtain ⟨⟨hphase, hfirst⟩, hsecond⟩ := h
  split at hphase
  · next e' r htrue hfalse =>
    obtain rfl := of_decide_eq_true hphase
    have hne {x : Except StoreError (Db × BatchOutcome)} {s : Db} (hno : failsWith e' x = false)
        (heq : Phase.done (.error e') = (Phase.done (after s x).2 :
          Phase Db (List AlreadyClosed) StoreError BatchOutcome)) : False := by
      cases x with
      | ok out => simp [after] at heq
      | error e'' =>
        simp only [after, Phase.done.injEq, Except.error.injEq] at heq
        simp [failsWith, heq] at hno
    refine ⟨fun i => ?_, htrue, fun i hin => ?_⟩
    · cases i
      · exact ⟨_, hfalse⟩
      · exact ⟨_, htrue⟩
    · obtain ⟨k, -, l, -, hi, hother, -⟩ := hin
      cases i
      · exact hne hsecond (htrue.symm.trans hother)
      · exact hne hfirst (htrue.symm.trans hi)
  · cases hphase

end Two

/-- Each call reads what it supersedes; the one commits; the other finds its target closed. -/
def straddle : List (Action Bool StoreError) :=
  [⟨true, .read⟩, ⟨true, .read⟩, ⟨false, .read⟩, ⟨false, .read⟩, ⟨false, .begin⟩,
    ⟨false, .commit⟩, ⟨true, .begin⟩, ⟨true, .commit⟩]

/-- A call that the index refuses twice opens its last transaction, and is aborted. -/
def abortLast : List (Action Bool StoreError) :=
  [⟨true, .read⟩, ⟨true, .read⟩, ⟨true, .begin⟩, ⟨true, .commit⟩,
    ⟨true, .read⟩, ⟨true, .read⟩, ⟨true, .begin⟩, ⟨true, .commit⟩,
    ⟨true, .read⟩, ⟨true, .read⟩, ⟨true, .begin⟩,
    ⟨false, .read⟩, ⟨false, .read⟩, ⟨false, .begin⟩, ⟨false, .commit⟩,
    ⟨true, .lose (.db .conflict)⟩]

omit [Hashing] in
theorem exists_apart (before : List Op) (batch : Bool → Batch) (now : Clock)
    (script : List (Action Bool StoreError)) (e : StoreError)
    (h : (exec (@Store.step plain) (Db.empty 0) before).any (fun u =>
      (exec (Optimistic.step (@callers plain batch fun _ _ => now))
        (initial (@callers plain batch fun _ _ => now) u.2) script).any fun v =>
          @endsApart plain batch now e (u.2, v.2)) = true) :
    ∃ db steps S, @Db.Reachable plain db ∧
      Run (Optimistic.step (@callers plain batch fun _ _ => now))
        (initial (@callers plain batch fun _ _ => now) db) steps S ∧
      (∀ i, ∃ r, S.phase i = .done r) ∧ S.phase true = .done (.error e) ∧
      ∀ i, ¬ @InOrder plain batch (fun _ _ => now) i db S := by
  obtain ⟨opSteps, db, hrun, -, hthen⟩ := exists_run_of_exec _ _ _ _ h
  obtain ⟨steps, S, hsteps, -, hends⟩ := exists_run_of_exec _ _ _ _ hthen
  obtain ⟨hdone, herror, hin⟩ := @not_inOrder_of_endsApart plain _ _ _ _ _ hends
  exact ⟨db, steps, S, ⟨0, opSteps, hrun⟩, hsteps, hdone, herror, hin⟩

/-! ### How two calls end -/

/-- However the steps of two calls fall, they end as one after the other, or one of them is
turned away for a target that the other closed under it, or for its last abort. -/
theorem ends_in_order_or_overtaken {batch : Bool → Batch} {clock : Bool → ℕ → Clock}
    {steps : List (Step _ (Action Bool StoreError))}
    {S : State Bool Db (List AlreadyClosed) StoreError BatchOutcome} (hdb : db.Reachable)
    (h : Run (Optimistic.step (callers batch clock)) (initial (callers batch clock) db) steps S)
    (hdone : ∀ i, ∃ r, S.phase i = .done r) :
    ∃ i, InOrder batch clock i db S ∨ Overtaken batch clock i db S := by
  have hw := hdb.wellFormed
  have hends : ∃ i, InTurn (callers batch clock) i db S ∨
      Overtakes (callers batch clock) (fun i => Stale (batch i)) i db S :=
    two_callers (fun i k t r hok => caller_mixes hw ((caller_once k).symm.trans hok)) h hdone
  obtain ⟨i, hturn | hover⟩ := hends
  · obtain ⟨k, hk, l, hl, hi, hother, hstore⟩ := hturn
    refine ⟨i, .inl ⟨k, Nat.lt_succ_of_le hk, l, Nat.lt_succ_of_le hl, ?_⟩⟩
    simp only [callers, caller_once_eq] at hi hother hstore
    exact ⟨hi, hother, hstore⟩
  · obtain ⟨k, hk, t, out, e, hok, rfl, hi, hother, hwhy⟩ := hover
    refine ⟨i, .inr ⟨k, Nat.lt_succ_of_le hk, out, e, (caller_once_eq k).symm.trans hok, hi,
      hother, ?_⟩⟩
    refine hwhy.imp_right fun ⟨hrefused, hrace⟩ => ⟨hrace, fun l hl => ?_⟩
    obtain ⟨e', he', hr'⟩ := hrefused l hl
    exact refused_index hw he' hr'

omit [Hashing] in
/-- Two calls that supersede one row. -/
theorem ends_in_order_or_overtaken_straddled : ∃ batch clock db steps S, @Db.Reachable plain db ∧
    Run (Optimistic.step (@callers plain batch clock)) (initial (@callers plain batch clock) db)
      steps S ∧ (∀ i, ∃ r, S.phase i = .done r) ∧
    ∃ i, @InOrder plain batch clock i db S ∨ @Overtaken plain batch clock i db S := by
  obtain ⟨db, steps, S, hdb, hrun, hdone, -⟩ := exists_apart [remember 0 [claim 'a' [] none]]
    (fun i => batchOf [claim (cond i 'b' 'c') [0] none]) (ticking 9 0) straddle
    (.db (.thrown (.targetsGone [⟨0⟩]))) (by decide)
  exact ⟨_, _, db, steps, S, hdb, hrun, hdone,
    @ends_in_order_or_overtaken plain db _ _ steps S hdb hrun hdone⟩

/-- Two calls on some store are both done, the one with this error, and not as one after the
other. -/
def DoneApart (e : EngineError) : Prop :=
  ∃ batch clock db steps S, @Db.Reachable plain db ∧
    Run (Optimistic.step (@callers plain batch clock)) (initial (@callers plain batch clock) db)
      steps S ∧
    (∀ i, ∃ r, S.phase i = .done r) ∧ S.phase true = .done (.error (.db e)) ∧
    ∀ i, ¬ @InOrder plain batch clock i db S

omit [Hashing] in
/-- Two calls that supersede one row: the one that read it as open is turned away. And a call that
the index refuses is told of a conflict instead. -/
theorem not_in_order : DoneApart (.thrown (.targetsGone [⟨0⟩])) ∧ DoneApart .conflict := by
  have hstraddle := exists_apart [remember 0 [claim 'a' [] none]]
    (fun i => batchOf [claim (cond i 'b' 'c') [0] none]) (ticking 9 0) straddle
    (.db (.thrown (.targetsGone [⟨0⟩]))) (by decide)
  have habort := exists_apart
    [remember 0 [claim 'a' [] none], remember 1 [claim 'b' [0] (some 5)],
      remember 2 [claim 'a' [] none]]
    (fun i => batchOf [claim (cond i 'c' 'd') (cond i [2] []) (some 5)]) (ticking 9 0) abortLast
    (.db .conflict) (by decide)
  constructor
  · exact ⟨_, _, hstraddle⟩
  · exact ⟨_, _, habort⟩

end Agmem.Store.Interleaving
