import Agmem.Store.Block
import Agmem.Store.Lineage

/-! The two directions of a supersession. Creating a row writes both: its own list of
what it supersedes, and the successor of each row on it. Closing rows in favour of a
row that is already there, as a duplicate of the batch or a standalone supersede does,
writes only the successor. So the links of every database of a run are the same both
ways exactly when no step of it closes a row in that manner. -/

namespace Agmem.Store.Symmetry

open Core Relational Claims Transition

variable {db db' : Db} {space : SpaceName}

/-- A stored row is superseded by exactly the stored row that lists it. -/
def Symmetric (db : Db) : Prop :=
  ∀ x ∈ db.memory, ∀ y ∈ db.memory, x.supersededBy = some y.id ↔ x.id ∈ y.supersedes

theorem symmetric_iff (hl : LinkedBack db) : Symmetric db ↔
    ∀ x ∈ db.memory, ∀ y ∈ db.memory, x.supersededBy = some y.id → x.id ∈ y.supersedes :=
  ⟨fun h x hx y hy => (h x hx y hy).mp,
    fun h x hx y hy => ⟨h x hx y hy, fun hxy => (hl x hx y hy hxy).1⟩⟩

/-- Rows that evolve keep the links they have. -/
theorem Symmetric.inherits (h : Symmetric db) (hl' : LinkedBack db')
    (hi : Inherits db.memory db'.memory)
    (hby : ∀ x' ∈ db'.memory, ∀ id, x'.supersededBy = some id →
      ∃ x ∈ db.memory, x.id = x'.id ∧ x.supersededBy = some id) : Symmetric db' := by
  refine (symmetric_iff hl').mpr fun x' hx' y' hy' hxy => ?_
  obtain ⟨x, hx, hid, hxy⟩ := hby x' hx' _ hxy
  obtain ⟨y, hy, he⟩ := hi y' hy'
  rw [he.id] at hxy
  rw [he.supersedes, ← hid]
  exact (h x hx y hy).mp hxy

/-- A one-way link stays one, for a row keeps its successor and the list of what it closed. -/
theorem Symmetric.of_later (hw : db.WellFormed) (hl : LinkedBack db) (hk : Kept db db')
    (h : Symmetric db') : Symmetric db := by
  refine (symmetric_iff hl).mpr fun x hx y hy hxy => ?_
  obtain ⟨x', hx', hex⟩ := hk x hx
  obtain ⟨y', hy', hey⟩ := hk y hy
  have hclosed : x.isLive = false := by
    by_contra hlive
    rw [hw.live x hx ((Bool.not_eq_false _).mp hlive)] at hxy
    cases hxy
  have := (h x' hx' y' hy').mp (by rw [(hex.closed hclosed).2.2, hxy, hey.id])
  rwa [hex.id, hey.supersedes] at this

/-! ### One block -/

theorem wrote_linkedBack {m : MemoryBinds} {w : Written MemoryId} (hm : m.Coherent space)
    (hin : InSpace db.memory space m.old) (h : Wrote space m db w db') (hw : db.WellFormed)
    (hl : LinkedBack db) : LinkedBack db' :=
  have hc : Change (fun _ => True) db db' := .wrote trivial hm hin h
  linkedBack_change hc hw hl

/-- A memory of a batch whose claim stands names no row but the one that holds it. -/
def KeepsToItself (db : Db) (L : Set Text) (m : MemoryBinds) : Prop :=
  m.hash ∈ L → ∀ r ∈ db.memory, r.id ∈ m.old → r.contentHash = m.hash

/-- A row that is created lists what it closes, so its links are the same both ways. -/
theorem symmetric_of_created {m : MemoryBinds} {source : Source} {now : Timestamp}
    (hw : db.WellFormed) (hl' : LinkedBack db') (hm : m.Coherent space) (hs : Symmetric db)
    (rows : db'.memory.rows = db.memory.rows.map (closing m.old ⟨db.minted⟩ m.row.validFrom) ++
      [m.row.record ⟨db.minted⟩ source now]) : Symmetric db' := by
  refine (symmetric_iff hl').mpr fun x' hx' y' hy' hxy => ?_
  rcases (mem_of_rows_map_append rows).mp hx' with ⟨x, hx, rfl⟩ | rfl
  · by_cases hclose : x.isLive = true ∧ x.id ∈ m.old
    · -- closed just now: its successor is the new row, which lists it
      rw [closing_of_mem hclose.1 hclose.2] at hxy ⊢
      have hid : y'.id = ⟨db.minted⟩ := (Option.some.inj hxy).symm
      rcases (mem_of_rows_map_append rows).mp hy' with ⟨y, hy, rfl⟩ | rfl
      · have hlt := hw.memory y hy
        rw [closing_id] at hid
        rw [hid] at hlt
        exact absurd hlt (lt_irrefl db.minted)
      · show x.id ∈ m.row.supersedes
        rw [hm.supersedes]
        exact hclose.2
    · have hsame : closing m.old ⟨db.minted⟩ m.row.validFrom x = x := if_neg hclose
      rw [hsame] at hxy ⊢
      rcases (mem_of_rows_map_append rows).mp hy' with ⟨y, hy, rfl⟩ | rfl
      · rw [closing_id] at hxy
        rw [closing_supersedes]
        exact (hs x hx y hy).mp hxy
      · exact absurd (hw.supersededBy x hx _ hxy) (lt_irrefl db.minted)
  · cases hxy

/-- A row closed in favour of an open one is not listed there, for what a row lists it has closed
itself. -/
theorem closes_none_of_symmetric {m : MemoryBinds} {dup : MemoryRecord} (hw : db.WellFormed)
    (hl : LinkedBack db) (mem : dup ∈ db.memory)
    (targets : Open db.memory (complement m.old [dup.id]))
    (rows : db'.memory.rows = db.memory.rows.map
      (closing (complement m.old [dup.id]) dup.id m.row.validFrom))
    (hs' : Symmetric db') {r : MemoryRecord} (hr : r ∈ db.memory) :
    r.id ∉ complement m.old [dup.id] := by
  intro hT
  obtain ⟨q, hq, hk, hql⟩ := targets r.id hT
  have hrl : r.isLive = true := by rwa [Table.eq_of_key hq hr hk] at hql
  have hd : dup.id ∉ complement m.old [dup.id] := fun h => (mem_complement.mp h).2 (by simp)
  have hx : supersededBy dup.id m.row.validFrom r ∈ db'.memory :=
    (mem_of_rows_map rows).mpr ⟨r, hr, closing_of_mem hrl hT⟩
  have hy : dup ∈ db'.memory := (mem_of_rows_map rows).mpr ⟨dup, mem, closing_of_notMem hd⟩
  have hlist : r.id ∈ dup.supersedes := (hs' _ hx dup hy).mp rfl
  have hclosed := (hl r hr dup mem hlist).1
  rw [hw.live r hr hrl] at hclosed
  cases hclosed

theorem wrote_symmetric_iff {m : MemoryBinds} {w : Written MemoryId} (hw : db.WellFormed)
    (hl : LinkedBack db) (hm : m.Coherent space) (hin : InSpace db.memory space m.old)
    (h : Wrote space m db w db') (hs : Symmetric db) :
    Symmetric db' ↔ KeepsToItself db (liveClaims db space) m := by
  have hl' := wrote_linkedBack hm hin h hw hl
  have hwrote := h
  cases h with
  | @created source now t _ holder _ targets _ rows =>
    refine iff_of_true (symmetric_of_created hw hl' hm hs rows) ?_
    rintro ⟨r, hr, hrs, hrh, hrl⟩
    rw [holder r hr hrs hrh] at hrl
    cases hrl
  | @duplicate dup t mem inSpace hash live _ targets _ rows =>
    have hclaim : m.hash ∈ liveClaims db space := ⟨dup, mem, inSpace, hash, live⟩
    constructor
    · intro hs' _ r hr hid
      by_contra hne
      have hT : r.id ∈ complement m.old [dup.id] := by
        refine mem_complement.mpr ⟨hid, fun hd => hne ?_⟩
        rw [Table.eq_of_key hr mem (List.mem_singleton.mp hd), hash]
      exact closes_none_of_symmetric hw hl mem targets rows hs' hr hT
    · intro hkeep
      unfold Symmetric
      rw [hwrote.memory_eq hin hclaim (hkeep hclaim)]
      exact hs

/-- Over the blocks of a batch. -/
theorem wroteAll_symmetric_iff {ms : List MemoryBinds} {ws : List (Written MemoryId)}
    (h : WroteAll space db ms ws db') (hw : db.WellFormed) (hl : LinkedBack db)
    (hm : ∀ m ∈ ms, m.Coherent space) (hin : ∀ m ∈ ms, InSpace db.memory space m.old)
    (hs : Symmetric db) : Symmetric db' ↔
      EachTurn (MemoryBinds.assertion db) (KeepsToItself db) (liveClaims db space) ms := by
  induction h with
  | nil db => exact iff_of_true hs trivial
  | @cons db db₁ db' m ms w ws h rest ih =>
    obtain ⟨hm₀, hm⟩ := List.forall_mem_cons.mp hm
    obtain ⟨hin₀, hin⟩ := List.forall_mem_cons.mp hin
    have hg := h.grown
    have hw₁ := h.wellFormed hm₀ hin₀ hw
    have hl₁ := wrote_linkedBack hm₀ hin₀ h hw hl
    have hone := wrote_symmetric_iff hw hl hm₀ hin₀ h hs
    have hin₁ : ∀ m' ∈ ms, InSpace db₁.memory space m'.old := fun m' hm' => (hin m' hm').kept hg.2
    -- the later blocks read the same claims off either database
    have hlater :
        EachTurn (MemoryBinds.assertion db₁) (KeepsToItself db₁) (liveClaims db₁ space) ms ↔
        EachTurn (MemoryBinds.assertion db) (KeepsToItself db) (liveClaims db₁ space) ms := by
      refine eachTurn_congr (List.forall₂_same.mpr fun m' hm' => ⟨?_, fun L => ?_⟩) _
      · rw [MemoryBinds.assertion, MemoryBinds.assertion, claimsOf_eq hw hg.1 hg.2 (hin m' hm')]
      · have hc := claimsOf_eq hw hg.1 hg.2 (hin m' hm')
        have hform (d : Db) : (∀ r ∈ d.memory, r.id ∈ m'.old → r.contentHash = m'.hash) ↔
            ∀ c ∈ claimsOf d m'.old, c = m'.hash :=
          ⟨by rintro h c ⟨r, hr, hid, rfl⟩; exact h r hr hid,
            fun h r hr hid => h _ ⟨r, hr, hid, rfl⟩⟩
        unfold KeepsToItself
        rw [hform, hform, hc]
    rw [eachTurn_cons, ← h.liveClaims hm₀ hin₀, ← hlater, ← hone]
    constructor
    · intro hs'
      have hs₁ := hs'.of_later hw₁ hl₁ rest.grown.2
      exact ⟨hs₁, (ih hw₁ hl₁ hm hin₁ hs₁).mp hs'⟩
    · rintro ⟨hs₁, hturn⟩
      exact (ih hw₁ hl₁ hm hin₁ hs₁).mpr hturn

/-! ### Operations and runs -/

theorem Symmetric.aside (ha : Aside db db') (h : Symmetric db) : Symmetric db' := by
  unfold Symmetric
  rw [ha.memory]
  exact h

/-- A change that links nothing keeps the links as they are. -/
theorem change_symmetric {links : Linking → Prop} (h : Change links db db')
    (hno : ∀ l, ¬ links l) (hw : db.WellFormed) (hl : LinkedBack db) (hs : Symmetric db) :
    Symmetric db' := by
  have hl' := linkedBack_change h hw hl
  cases h with
  | aside h => exact hs.aside h
  | wrote allowed => exact absurd allowed (hno _)
  | supersede allowed => exact absurd allowed (hno _)
  | retire p reason now guard rows =>
    refine hs.inherits hl' (inherits_of_map rows fun r _ => ?_) fun x' hx' id hid => ?_
    · split_ifs with hp
      · exact .closedAs (guard r hp) _ _
      · exact .refl r
    · obtain ⟨r, hr, rfl⟩ := (mem_of_rows_map rows).mp hx'
      refine ⟨r, hr, ?_, ?_⟩
      · split_ifs <;> rfl
      · split_ifs at hid <;> exact hid
  | touch g rows frame =>
    refine hs.inherits hl' (inherits_of_map rows fun r hr => ?_) fun x' hx' id hid => ?_
    · have hg := frame r hr
      exact ⟨by rw [hg], fun _ => by rw [hg]; exact ⟨rfl, rfl, rfl⟩⟩
    · obtain ⟨r, hr, rfl⟩ := (mem_of_rows_map rows).mp hx'
      rw [frame r hr] at hid ⊢
      exact ⟨r, hr, rfl, hid⟩

variable [Hashing]

/-- A memory whose claim stands names no open row of another claim. -/
def NamesOwnClaim (db : Db) (L : Set Text) (m : NewMemory) : Prop :=
  contentHash m.content ∈ L →
    ∀ r ∈ db.memory, r.isLive = true → r.id ∈ m.supersedes → r.contentHash = contentHash m.content

theorem keepsToItself_iff {m : NewMemory} {b : MemoryBinds} (h : BoundFor db m b)
    (L : Set Text) : KeepsToItself db L b ↔ NamesOwnClaim db L m := by
  unfold KeepsToItself NamesOwnClaim
  rw [h.hash]
  refine imp_congr_right fun _ => forall₂_congr fun r hr => ?_
  rw [h.targets r hr, and_comm, and_imp]

theorem insertBatch_symmetric_iff {batch : Batch} {clock : ℕ → Clock} {out : BatchOutcome}
    (hw : db.WellFormed) (hl : LinkedBack db)
    (h : insertBatch db batch clock = .ok (db', out)) (hs : Symmetric db) :
    Symmetric db' ↔ EachTurn (NewMemory.assertion db) (NamesOwnClaim db)
      (liveClaims db batch.space) batch.memories := by
  obtain ⟨k, -, hok⟩ := insertBatch_ok h
  obtain ⟨hin, hclosed, -, db₁, ha, hall⟩ := insertBatchOnce_ok hw hok
  rw [hclosed] at hall
  have hl₁ : LinkedBack db₁ := by unfold LinkedBack; rw [ha.memory]; exact hl
  rw [wroteAll_symmetric_iff hall (ha.wellFormed hw) hl₁ (fun b hb => (Batch.mem_binds hb).1)
    (fun b hb => (retain_inSpace hin b hb).kept ha.kept) (hs.aside ha), ha.liveClaims, ha.assertion]
  refine (eachTurn_congr ((binds_boundFor hin (clock k)).imp fun m b hb => ?_) _).symm
  refine ⟨hb.assertion.symm, fun L => ?_⟩
  rw [← keepsToItself_iff hb L, KeepsToItself, KeepsToItself, ha.memory]

omit [Hashing] in
/-- A row that closes an open one through the standalone supersede never lists it. -/
theorem supersede_not_symmetric {old new : MemoryId} (hw : db.WellFormed) (hl : LinkedBack db)
    (h : supersede db space old new = .ok db') : ¬ Symmetric db' := by
  obtain ⟨o, ho, n, hn, rfl, rfl, -, -, hlive, t, rows, rfl⟩ := supersede_ok h
  intro hs
  have ho' : supersededBy n.id n.validFrom o ∈ t :=
    (mem_of_rows_map rows).mpr ⟨o, ho, closing_of_mem hlive (List.mem_singleton_self _)⟩
  have hn' : closing [o.id] n.id n.validFrom n ∈ t := (mem_of_rows_map rows).mpr ⟨n, hn, rfl⟩
  have hlist := (hs _ ho' _ hn').mp (by rw [closing_id]; rfl)
  rw [closing_supersedes] at hlist
  have hby := (hl o ho n hn hlist).1
  rw [hw.live o ho hlive] at hby
  cases hby

/-- Whether an operation writes its links both ways. -/
def LinksBothWays (db : Db) : Op → Prop
  | .insertBatch batch _ => ∀ pre m post, batch.memories = pre ++ m :: post →
      NamesOwnClaim db (standing (liveClaims db batch.space) (pre.map (NewMemory.assertion db))) m
  | .supersede _ _ _ => False
  | _ => True

theorem step_linkedBack {op : Op} (h : step db op = some db') (hw : db.WellFormed)
    (hl : LinkedBack db) : db'.WellFormed ∧ LinkedBack db' :=
  step_keeps (fun _ _ _ => linkedBack_change) (fun _ _ he _ hl => hl.inherits he.inherits) h hw hl

theorem step_symmetric_iff {op : Op} (h : step db op = some db') (hw : db.WellFormed)
    (hl : LinkedBack db) (hs : Symmetric db) : Symmetric db' ↔ LinksBothWays db op := by
  have hquiet (hno : ∀ l, ¬ op.Links l) : Symmetric db' := by
    obtain ⟨db₁, hch, hend⟩ := step_changes hw h
    have h₁ : db₁.WellFormed ∧ LinkedBack db₁ ∧ Symmetric db₁ := by
      clear hend
      induction hch with
      | refl => exact ⟨hw, hl, hs⟩
      | tail _ hc ih =>
        obtain ⟨hw, hl, hs⟩ := ih
        exact ⟨hc.wellFormed hw, linkedBack_change hc hw hl, change_symmetric hc hno hw hl hs⟩
    rcases hend with rfl | ⟨-, he⟩
    · exact h₁.2.2
    · obtain ⟨t, ht, rfl⟩ := he
      exact fun x hx y hy => h₁.2.2 x (ht x hx) y (ht y hy)
  cases op with
  | insertBatch batch clock =>
    obtain ⟨out, h⟩ := map_fst_ok.mp (step_eq_some.mp h)
    exact (insertBatch_symmetric_iff hw hl h hs).trans eachTurn_iff
  | supersede space old new =>
    exact iff_of_false (supersede_not_symmetric hw hl (step_eq_some.mp h)) id
  | _ => exact iff_of_true (hquiet fun l h => by cases l <;> exact h) trivial

/-- Along a run the links are the same both ways, in every database of the run, exactly when every
operation wrote its links both ways. -/
theorem run_symmetric_iff {dimension : ℕ} {steps : List (Step Db Op)}
    (h : Run step (Db.empty dimension) steps db) :
    (∀ e ∈ steps, Symmetric e.target) ↔ ∀ e ∈ steps, LinksBothWays e.source e.action := by
  refine Run.forall_iff (I := fun db => db.WellFormed ∧ LinkedBack db) (K := fun _ => True)
    (fun s op t hs _ hi => step_linkedBack hs hi.1 hi.2)
    (fun s op t hs _ hi hP => step_symmetric_iff hs hi.1 hi.2 hP) h (fun _ _ => trivial)
    ⟨wellFormed_empty dimension, ?_⟩ ?_
  · exact fun x hx => absurd hx (Table.not_mem_empty x)
  · exact fun x hx => absurd hx (Table.not_mem_empty x)

omit [Hashing] in
/-- One claim is said, and then another in its place. -/
theorem run_symmetric_iff_correction : ∃ steps db, @Run _ _ (@step plain) (Db.empty 0) steps db ∧
    steps.length = 2 ∧ ((∀ e ∈ steps, Symmetric e.target) ↔
      ∀ e ∈ steps, @LinksBothWays plain e.source e.action) := by
  obtain ⟨steps, db, hrun, -, hp⟩ := exists_run_of_exec (@step plain) (Db.empty 0)
    [remember 0 [claim 'a' [] none], remember 9 [claim 'b' [0] none]]
    (fun u => decide (u.1.length = 2)) (by decide)
  exact ⟨steps, db, hrun, of_decide_eq_true hp, @run_symmetric_iff db plain 0 steps hrun⟩

omit [Hashing] in
/-- Two claims are stored; one is said again with the other in `supersedes`. -/
theorem duplicate_links_one_way : ∃ steps db, Run (@step plain) (Db.empty 0) steps db ∧
    (∀ e ∈ steps, ∃ batch clock, e.action = .insertBatch batch clock) ∧
    ∃ x ∈ db.memory, ∃ y ∈ db.memory, x.supersededBy = some y.id ∧ x.id ∉ y.supersedes := by
  obtain ⟨steps, db, hrun, hact, hp⟩ := exists_run_of_exec (@step plain) (Db.empty 0)
    [remember 0 [claim 'a' [] none, claim 'b' [] none], remember 9 [claim 'a' [1] none]]
    (fun u => u.2.memory.rows.any fun x => u.2.memory.rows.any fun y =>
      decide (x.supersededBy = some y.id ∧ x.id ∉ y.supersedes)) (by decide)
  refine ⟨steps, db, hrun, fun e he => ?_, ?_⟩
  · rcases List.mem_pair.mp (hact e he) with h | h
    · exact ⟨_, _, h⟩
    · exact ⟨_, _, h⟩
  · simp only [List.any_eq_true, decide_eq_true_eq] at hp
    exact hp

end Agmem.Store.Symmetry
