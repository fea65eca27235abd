import Agmem.Store.Op

/-! Closing is final. At every moment of every run a space holds at most one open row
of a claim, and the date, the reason and the successor a row was closed with stand
for as long as the row exists. -/

namespace Agmem.Store.Closing

open Core Relational

variable [Hashing]

/-- At most one open row per space and content hash. -/
def UniqueLive (db : Db) : Prop :=
  ∀ r ∈ db.memory, ∀ q ∈ db.memory, r.isLive = true → q.isLive = true → r.space = q.space →
    r.contentHash = q.contentHash → r = q

omit [Hashing] in
theorem uniqueLive (db : Db) : UniqueLive db :=
  fun _ hr _ hq hrl hql hs hh => live_unique hr hq hrl hql hs hh

/-- A stretch of a run only lets rows evolve, drops some, and mints others. -/
theorem run_grown {s t : Db} (hs : s.WellFormed) (h : Transition.Reachable step s t) :
    Grown s t := by
  obtain ⟨steps, h⟩ := h
  induction h with
  | nil s => exact .refl s
  | cons hstep _ ih =>
    exact (step_grown hstep hs).trans (ih (step_wellFormed hstep hs))

/-- Over any stretch of any run: claims are open at most once, and a row that was closed is
found with the date, reason and successor it was closed with. -/
theorem closed_for_good {s t : Db} (hs : s.Reachable) (h : Transition.Reachable step s t) :
    UniqueLive s ∧ UniqueLive t ∧ ∀ r ∈ s.memory, r.isLive = false → ∀ r' ∈ t.memory,
      r'.id = r.id → r'.invalidAt = r.invalidAt ∧ r'.invalidReason = r.invalidReason ∧
        r'.supersededBy = r.supersededBy := by
  refine ⟨uniqueLive s, uniqueLive t, fun r hr hl r' hr' hid => ?_⟩
  have hg := run_grown hs.wellFormed h
  exact (hg.evolves hs.wellFormed hr hr' hid).closed hl

omit [Hashing] in
/-- A claim is replaced, said again, and forgotten. -/
theorem closed_for_good_reasserted : ∃ s t : Db, @Db.Reachable plain s ∧
    Transition.Reachable (@step plain) s t ∧ (∃ r ∈ s.memory, r.isLive = false) ∧
    UniqueLive s ∧ UniqueLive t ∧ ∀ r ∈ s.memory, r.isLive = false → ∀ r' ∈ t.memory,
      r'.id = r.id → r'.invalidAt = r.invalidAt ∧ r'.invalidReason = r.invalidReason ∧
        r'.supersededBy = r.supersededBy := by
  let later : List Op :=
    [remember 20 [claim 'a' [1] none], .forget ⟨[agmem], [⟨0⟩, ⟨2⟩], [], false⟩ fun _ => 30]
  obtain ⟨steps, s, hs, -, hp⟩ := Transition.exists_run_of_exec (@step plain)
    (Db.empty 0) [remember 0 [claim 'a' [] none], remember 10 [claim 'b' [0] none]]
    (fun u => u.2.memory.rows.any (fun r => !r.isLive) &&
      (Transition.exec (@step plain) u.2 later).any fun _ => true) (by decide)
  simp only [Bool.and_eq_true, List.any_eq_true, Bool.not_eq_true'] at hp
  obtain ⟨more, t, ht, -, -⟩ := Transition.exists_run_of_exec _ s later _ hp.2
  have hreach : @Db.Reachable plain s := ⟨0, steps, hs⟩
  exact ⟨s, t, hreach, ⟨more, ht⟩, hp.1, @closed_for_good plain s t hreach ⟨more, ht⟩⟩

end Agmem.Store.Closing
