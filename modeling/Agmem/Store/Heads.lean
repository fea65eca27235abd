import Agmem.Store.Op
import Agmem.Links.Successor

/-! Where `superseded_by` leads. A batch only closes open rows in favour of a row that
is open itself, so it never closes a loop. The standalone supersede takes any two
stored rows and looks only at whether the old one is open: closing a row in favour of
one whose own chain ends at it makes that chain a cycle, and closing a row in favour of
itself is the shortest one. A run keeps every chain ending in a row without a successor
exactly when no standalone supersede does that. -/

namespace Agmem.Store.Heads

open Core Relational Relation Links Transition

variable {links : Linking → Prop} {db db' : Db}

/-- The link `superseded_by`, as a walk over the table reads it. -/
def successor (db : Db) (id : MemoryId) : Option MemoryId :=
  (db.memory.get? id).bind MemoryRecord.supersededBy

theorem successor_eq_some {a b : MemoryId} :
    successor db a = some b ↔ ∃ r ∈ db.memory, r.id = a ∧ r.supersededBy = some b := by
  unfold successor
  rw [Option.bind_eq_some_iff]
  constructor
  · rintro ⟨r, hr, hb⟩
    obtain ⟨hr, hk⟩ := Table.get?_eq_some.mp hr
    exact ⟨r, hr, hk, hb⟩
  · rintro ⟨r, hr, hk, hb⟩
    exact ⟨r, Table.get?_eq_some.mpr ⟨hr, hk⟩, hb⟩

theorem successor_eq_none {a : MemoryId} :
    successor db a = none ↔ ∀ r ∈ db.memory, r.id = a → r.supersededBy = none := by
  rw [Option.eq_none_iff_forall_ne_some]
  constructor
  · intro h r hr hk
    rw [Option.eq_none_iff_forall_ne_some]
    exact fun b hb => h b (successor_eq_some.mpr ⟨r, hr, hk, hb⟩)
  · intro h b hb
    obtain ⟨r, hr, hk, hb⟩ := successor_eq_some.mp hb
    rw [h r hr hk] at hb
    cases hb

/-- From every row, following `superseded_by` comes to a stored row that has none, and never
comes round. -/
structure Settled (db : Db) : Prop where
  acyclic : Acyclic (successor db)
  head : ∀ r ∈ db.memory, ∃ e ∈ db.memory, ReflTransGen (Link (successor db)) r.id e.id ∧
    e.supersededBy = none

/-- The successor of a stored row is stored. -/
def Targeted (db : Db) : Prop :=
  ∀ r ∈ db.memory, ∀ id, r.supersededBy = some id → ∃ q ∈ db.memory, q.id = id

theorem Targeted.stored (h : Targeted db) {r : MemoryRecord} (hr : r ∈ db.memory) {b : MemoryId}
    (hb : ReflTransGen (Link (successor db)) r.id b) : ∃ q ∈ db.memory, q.id = b := by
  induction hb with
  | refl => exact ⟨r, hr, rfl⟩
  | tail _ hbc ih =>
    obtain ⟨q, hq, -, hc⟩ := successor_eq_some.mp hbc
    exact h q hq _ hc

theorem settled_iff (h : Targeted db) : Settled db ↔ ∀ a, Grounded (successor db) a := by
  constructor
  · intro hs a
    by_cases ha : ∃ r ∈ db.memory, r.id = a
    · obtain ⟨r, hr, rfl⟩ := ha
      obtain ⟨e, he, hw, hn⟩ := hs.head r hr
      refine ⟨e.id, hw, successor_eq_none.mpr fun q hq hk => ?_⟩
      rw [Table.eq_of_key hq he hk, hn]
    · exact ⟨a, .refl, successor_eq_none.mpr fun r hr hk => absurd ⟨r, hr, hk⟩ ha⟩
  · intro hg
    refine ⟨acyclic_of_grounded hg, fun r hr => ?_⟩
    obtain ⟨b, hb, hn⟩ := hg r.id
    obtain ⟨e, he, rfl⟩ := h.stored hr hb
    exact ⟨e, he, hb, successor_eq_none.mp hn e he rfl⟩

/-! ### Statements -/

/-- The successors after a closing: its targets point at the new row. -/
theorem closing_supersededBy_iff {T : List MemoryId} {new : MemoryId} (boundary : Timestamp)
    (hT : Open db.memory T) (a b : MemoryId) :
    (∃ r ∈ db.memory, r.id = a ∧ (closing T new boundary r).supersededBy = some b) ↔
      redirect (successor db) (· ∈ T) new a = some b := by
  unfold redirect
  split_ifs with ha
  · obtain ⟨q, hq, rfl, hl⟩ := hT a ha
    constructor
    · rintro ⟨r, hr, hk, hb⟩
      rw [Table.eq_of_key hr hq hk, closing_of_mem hl ha] at hb
      exact hb
    · intro hb
      exact ⟨q, hq, rfl, by rw [closing_of_mem hl ha]; exact hb⟩
  · rw [successor_eq_some]
    refine exists_congr fun r => and_congr_right fun _ => and_congr_right fun hk => ?_
    rw [closing_of_notMem (hk ▸ ha)]

theorem successor_of_closing {t : Table MemoryRecord} {T : List MemoryId} {new : MemoryId}
    {boundary : Timestamp} (hT : Open db.memory T)
    (rows : t.rows = db.memory.rows.map (closing T new boundary)) :
    successor { db with memory := t } = redirect (successor db) (· ∈ T) new := by
  funext a
  refine Option.ext fun b => ?_
  rw [← closing_supersededBy_iff boundary hT, successor_eq_some]
  constructor
  · rintro ⟨r', hr', hk, hb⟩
    obtain ⟨r, hr, rfl⟩ := (mem_of_rows_map rows).mp hr'
    exact ⟨r, hr, by simpa using hk, hb⟩
  · rintro ⟨r, hr, hk, hb⟩
    exact ⟨_, (mem_of_rows_map rows).mpr ⟨r, hr, rfl⟩, by simpa using hk, hb⟩

theorem successor_eq_of_map {t : Table MemoryRecord} {g : MemoryRecord → MemoryRecord}
    (rows : t.rows = db.memory.rows.map g) (hid : ∀ r ∈ db.memory, (g r).id = r.id)
    (hby : ∀ r ∈ db.memory, (g r).supersededBy = r.supersededBy) :
    successor { db with memory := t } = successor db := by
  funext a
  refine Option.ext fun b => ?_
  rw [successor_eq_some, successor_eq_some]
  constructor
  · rintro ⟨r', hr', hk, hb⟩
    obtain ⟨r, hr, rfl⟩ := (mem_of_rows_map rows).mp hr'
    exact ⟨r, hr, hid r hr ▸ hk, hby r hr ▸ hb⟩
  · rintro ⟨r, hr, hk, hb⟩
    exact ⟨_, (mem_of_rows_map rows).mpr ⟨r, hr, rfl⟩, (hid r hr).trans hk, (hby r hr).trans hb⟩

theorem targeted_change (h : Change links db db') (ht : Targeted db) : Targeted db' := by
  intro r' hr' id hid
  rcases h.supersededBy_cases hr' hid with ⟨r, hr, -, hid⟩ | hq
  · obtain ⟨q, hq, rfl⟩ := ht r hr id hid
    obtain ⟨q', hq', he⟩ := h.kept q hq
    exact ⟨q', hq', he.id⟩
  · exact hq

/-- A block closes no loop: it points open rows at an open row that is none of them. -/
theorem wrote_grounded {space : SpaceName} {m : MemoryBinds} {w : Written MemoryId}
    (hw : db.WellFormed) (hin : InSpace db.memory space m.old) (h : Wrote space m db w db')
    (hg : ∀ a, Grounded (successor db) a) : ∀ a, Grounded (successor db') a := by
  have hopen : ∀ {T : List MemoryId}, Open db.memory T → ∀ a, a ∈ T → successor db a = none := by
    intro T hT a ha
    obtain ⟨r, hr, rfl, hl⟩ := hT a ha
    refine successor_eq_none.mpr fun q hq hk => ?_
    rw [Table.eq_of_key hq hr hk]
    exact hw.live r hr hl
  cases h with
  | @created source now t _ _ _ targets _ rows =>
    have hnew : (⟨db.minted⟩ : MemoryId) ∉ m.old := by
      intro hT
      obtain ⟨q, hq, hk, -⟩ := hin _ hT
      have hlt := hw.memory q hq
      rw [hk] at hlt
      exact absurd hlt (lt_irrefl db.minted)
    have hend : EndsAt (successor db) ⟨db.minted⟩ ⟨db.minted⟩ := by
      refine ⟨.refl, successor_eq_none.mpr fun q hq hk => ?_⟩
      have hlt := hw.memory q hq
      rw [hk] at hlt
      exact absurd hlt (lt_irrefl db.minted)
    have hsucc : successor { db with memory := t, minted := db.minted + 1 } =
        redirect (successor db) (· ∈ m.old) ⟨db.minted⟩ := by
      funext a
      refine Option.ext fun b => ?_
      rw [← closing_supersededBy_iff m.row.validFrom targets, successor_eq_some]
      constructor
      · rintro ⟨r', hr', hk, hb⟩
        rcases (mem_of_rows_map_append rows).mp hr' with ⟨r, hr, rfl⟩ | rfl
        · exact ⟨r, hr, by simpa using hk, hb⟩
        · cases hb
      · rintro ⟨r, hr, hk, hb⟩
        exact ⟨_, (mem_of_rows_map_append rows).mpr (.inl ⟨r, hr, rfl⟩), by simpa using hk, hb⟩
    rw [hsucc]
    exact (grounded_redirect_iff hg (hopen targets) hend).mpr hnew
  | @duplicate dup t mem _ _ live _ targets _ rows =>
    have hend : EndsAt (successor db) dup.id dup.id := by
      refine ⟨.refl, successor_eq_none.mpr fun q hq hk => ?_⟩
      rw [Table.eq_of_key hq mem hk]
      exact hw.live dup mem live
    rw [successor_of_closing targets rows]
    exact (grounded_redirect_iff hg (hopen targets) hend).mpr
      fun h => (mem_complement.mp h).2 (by simp)

/-- A change other than the standalone supersede keeps every chain ending. -/
theorem change_grounded (h : Change links db db') (hno : ¬ links .standalone) (hw : db.WellFormed)
    (hg : ∀ a, Grounded (successor db) a) : ∀ a, Grounded (successor db') a := by
  cases h with
  | aside h =>
    have : successor db' = successor db := by unfold successor; rw [h.memory]
    exact this ▸ hg
  | wrote _ _ hin h => exact wrote_grounded hw hin h hg
  | supersede allowed => exact absurd allowed hno
  | retire p reason now guard rows =>
    rw [successor_eq_of_map rows (fun r _ => ?_) fun r _ => ?_]
    · exact hg
    · split_ifs <;> rfl
    · split_ifs <;> rfl
  | touch g rows frame =>
    rw [successor_eq_of_map rows (fun r hr => ?_) fun r hr => ?_]
    · exact hg
    · rw [frame r hr]
    · rw [frame r hr]

/-! ### Runs -/

variable [Hashing]

/-- A standalone supersede whose new row does not lead to its old one. -/
def OffPath (db : Db) : Op → Prop
  | .supersede _ old new => ¬ ReflTransGen (Link (successor db)) new old
  | _ => True

omit [Hashing] in
theorem supersede_grounded_iff {space : SpaceName} {old new : MemoryId} (hw : db.WellFormed)
    (h : supersede db space old new = .ok db') (hg : ∀ a, Grounded (successor db) a) :
    (∀ a, Grounded (successor db') a) ↔ ¬ ReflTransGen (Link (successor db)) new old := by
  obtain ⟨o, ho, n, hn, rfl, rfl, -, -, hl, t, rows, rfl⟩ := supersede_ok h
  have hone : successor db o.id = none := successor_eq_none.mpr fun q hq hk => by
    rw [Table.eq_of_key hq ho hk]
    exact hw.live o ho hl
  have hopen : Open db.memory [o.id] := fun id hid =>
    ⟨o, ho, (List.mem_singleton.mp hid).symm, hl⟩
  obtain ⟨e, he⟩ := hg n.id
  rw [successor_of_closing hopen rows, grounded_redirect_iff hg (fun a ha => by
    rw [List.mem_singleton.mp ha, hone]) he, List.mem_singleton]
  -- an open row ends every walk that reaches it
  refine not_congr ⟨fun h => h ▸ he.1, fun h => ?_⟩
  exact he.unique ⟨h, hone⟩

theorem step_targeted {op : Op} (hp : ¬ op.Purges) (h : step db op = some db')
    (hw : db.WellFormed) (ht : Targeted db) : Targeted db' := by
  obtain ⟨db₁, hch, rfl | ⟨hpurge, -⟩⟩ := step_changes hw h
  · clear h
    induction hch with
    | refl => exact ht
    | tail _ hc ih => exact targeted_change hc ih
  · exact absurd hpurge hp

theorem step_grounded_iff {op : Op} (hp : ¬ op.Purges) (h : step db op = some db')
    (hw : db.WellFormed) (hg : ∀ a, Grounded (successor db) a) :
    (∀ a, Grounded (successor db') a) ↔ OffPath db op := by
  cases op with
  | supersede space old new => exact supersede_grounded_iff hw (step_eq_some.mp h) hg
  | _ =>
    refine iff_of_true ?_ trivial
    obtain ⟨db₁, hch, rfl | ⟨hpurge, -⟩⟩ := step_changes hw h
    · clear h
      have hboth : db'.WellFormed ∧ ∀ a, Grounded (successor db') a := by
        induction hch with
        | refl => exact ⟨hw, hg⟩
        | tail _ hc ih => exact ⟨hc.wellFormed ih.1, change_grounded hc id ih.1 ih.2⟩
      exact hboth.2
    · exact absurd hpurge hp

omit [Hashing] in
theorem settled_empty (dimension : ℕ) : Settled (Db.empty dimension) where
  acyclic a h := by
    obtain ⟨c, hc, -⟩ := TransGen.head'_iff.mp h
    cases hc
  head r hr := absurd hr (Table.not_mem_empty r)

/-- In a run that deletes nothing, every chain of successors ends, in every database of the run,
exactly when no standalone supersede closed a row in favour of one that leads to it. -/
theorem run_settled_iff {dimension : ℕ} {steps : List (Step Db Op)}
    (h : Run step (Db.empty dimension) steps db) (hp : ∀ e ∈ steps, ¬ e.action.Purges) :
    (∀ e ∈ steps, Settled e.target) ↔ ∀ e ∈ steps, OffPath e.source e.action := by
  refine Run.forall_iff (I := fun db => db.WellFormed ∧ Targeted db)
    (K := fun e => ¬ e.action.Purges) (fun s op t hs hk hi => ?_) (fun s op t hs hk hi hP => ?_)
    h hp ⟨wellFormed_empty dimension, fun r hr => absurd hr (Table.not_mem_empty r)⟩
    (settled_empty dimension)
  · exact ⟨step_wellFormed hs hi.1, step_targeted hk hs hi.1 hi.2⟩
  · rw [settled_iff (step_targeted hk hs hi.1 hi.2)]
    exact step_grounded_iff hk hs hi.1 ((settled_iff hi.2).mp hP)

omit [Hashing] in
/-- Two claims are said, and one closed in favour of the other. -/
theorem run_settled_iff_supersede : ∃ steps db, @Run _ _ (@step plain) (Db.empty 0) steps db ∧
    steps.length = 2 ∧ ((∀ e ∈ steps, Settled e.target) ↔
      ∀ e ∈ steps, OffPath e.source e.action) := by
  obtain ⟨steps, db, hrun, hact, hp⟩ := exists_run_of_exec (@step plain) (Db.empty 0)
    [remember 0 [claim 'a' [] none, claim 'b' [] none], .supersede agmem ⟨0⟩ ⟨1⟩]
    (fun u => decide (u.1.length = 2)) (by decide)
  refine ⟨steps, db, hrun, of_decide_eq_true hp,
    @run_settled_iff db plain 0 steps hrun fun e he => ?_⟩
  rcases List.mem_pair.mp (hact e he) with h | h <;> rw [h] <;> exact id

omit [Hashing] in
/-- A row may be closed in favour of itself. -/
theorem supersede_itself : ∃ steps db, @Run _ _ (@step plain) (Db.empty 0) steps db ∧
    (∀ e ∈ steps, (∃ batch clock, e.action = .insertBatch batch clock) ∨
      ∃ space old new, e.action = .supersede space old new) ∧
    ¬ Acyclic (successor db) ∧ ∃ r ∈ db.memory, ¬ Grounded (successor db) r.id := by
  obtain ⟨steps, db, hrun, hact, hp⟩ := exists_run_of_exec (@step plain) (Db.empty 0)
    [remember 0 [claim 'a' [] none], .supersede agmem ⟨0⟩ ⟨0⟩]
    (fun u => u.2.memory.rows.any fun r => decide (r.supersededBy = some r.id)) (by decide)
  simp only [List.any_eq_true, decide_eq_true_eq] at hp
  obtain ⟨r, hr, hby⟩ := hp
  have hloop : TransGen (Link (successor db)) r.id r.id :=
    .single (successor_eq_some.mpr ⟨r, hr, rfl, hby⟩)
  refine ⟨steps, db, hrun, fun e he => ?_, fun h => h _ hloop, r, hr, fun h => h.not_cycle hloop⟩
  rcases List.mem_pair.mp (hact e he) with h | h
  · exact .inl ⟨_, _, h⟩
  · exact .inr ⟨_, _, _, h⟩

end Agmem.Store.Heads
