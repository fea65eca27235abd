import Agmem.Tools.Purge

/-! Who still cites a document after it is purged. Citers are looked up in the space of
the document, but a reflection may cite across spaces: one of a project space cites the
documents of the `user` space too. A purge leaves no live citer behind exactly when every
one shares a space with a selected document that it cites, or goes with a memory the same
call selected. -/

namespace Agmem.Tools.Citations

open Core Relational Links Store Transition Forget

variable {db : Db} {targets : List Target}

/-- The memory cites a document among the targets. -/
def CitesSelected (targets : List Target) (m : MemoryRecord) (d : EpisodeDetail) : Prop :=
  (∃ space, Target.episode space d ∈ targets) ∧ d.episode.isDocument = true ∧
    cites m d.episode.id = true

/-- No live memory, whatever its space, cites a document among the targets. -/
def NoneCites (db : Db) (targets : List Target) : Prop :=
  ∀ m ∈ db.memory, m.isLive = true → ∀ d, ¬ CitesSelected targets m d

/-- On the chain of a memory that was selected itself. -/
def Named (db : Db) (targets : List Target) (m : MemoryRecord) : Prop :=
  ∃ q ∈ db.memory, q.id ∈ named targets ∧ OnChain db q.id m.id

/-- Every live citer of a selected document is deleted by name. -/
def CitersNamed (db : Db) (targets : List Target) : Prop :=
  ∀ m ∈ db.memory, m.isLive = true → ∀ d, CitesSelected targets m d → Named db targets m

/-- Every live citer shares the space of a selected document it cites, or is deleted by name. -/
def CitersInReach (db : Db) (targets : List Target) : Prop :=
  ∀ m ∈ db.memory, m.isLive = true → ∀ d, CitesSelected targets m d →
    (∃ d', CitesSelected targets m d' ∧ d'.episode.space = m.space) ∨ Named db targets m

/-- Nothing precedes a live row on a chain but the row itself, or what it supersedes. -/
theorem eq_of_live_onChain (hl : LinkedBack db) (hw : db.WellFormed) {r m : MemoryRecord}
    (hr : r ∈ db.memory) (hrl : r.isLive = true) (hm : m ∈ db.memory) (hml : m.isLive = true)
    (hon : OnChain db r.id m.id) : m = r := by
  rcases hon with hid | ⟨k, -, hw'⟩ | ⟨k, -, hw'⟩
  · exact Table.eq_of_key hm hr hid
  · -- the last link of a walk back ends at a row that it closed
    obtain ⟨c, -, d, hd, rfl⟩ := hw'.take (j := k) (k := 1)
    obtain ⟨y, hy, rfl, hmem⟩ := mem_supersedesOf.mp hd
    rw [MemoryRecord.isLive, (hl m hm y hy hmem).2] at hml
    cases hml
  · obtain ⟨c, hc, -⟩ := hw'
    rw [supersededByOf_eq hr, hw.live r hr hrl] at hc
    cases hc

/-- Without `cascade` a purge goes through only if the citers are among the targets already. -/
theorem pulls_named (ha : Apart db) {spaces : List SpaceName} {rest out : List Target}
    (hf : ∀ t ∈ targets, Found db spaces t) (h : cascadeFrom db targets false [] rest = .ok out)
    {m : MemoryRecord} (hm : ∃ t ∈ rest, Pulls db m t) : m.id ∈ named targets := by
  induction rest with
  | nil => exact absurd hm (by simp)
  | cons t rest ih =>
    rw [List.exists_mem_cons_iff] at hm
    cases t with
    | memory space r c => exact ih h (hm.resolve_left id)
    | episode space d =>
      unfold cascadeFrom at h
      dsimp only at h
      split_ifs at h with hdoc hempty hcascade
      · refine hm.elim (fun hm => ?_) (ih h)
        rw [List.isEmpty_iff, List.filter_eq_nil_iff] at hempty
        have hseen := hempty m hm.2
        rw [← seen_iff ha hf (mem_documentCiters.mp hm.2).1]
        simpa [seen] using hseen
      · cases hcascade
      · exact ih h (hm.resolve_left fun hm => hdoc hm.1)

/-- A live citer is pulled in by the documents of its own space. -/
theorem pulls_iff {spaces : List SpaceName} (hf : ∀ t ∈ targets, Found db spaces t)
    {m : MemoryRecord} (hm : m ∈ db.memory) (hl : m.isLive = true) :
    (∃ t ∈ targets, Pulls db m t) ↔ ∃ d, CitesSelected targets m d ∧ d.episode.space = m.space := by
  constructor
  · rintro ⟨t, ht, hp⟩
    cases t with
    | memory space r c => exact hp.elim
    | episode space d =>
      obtain ⟨-, rfl, -, hc⟩ := mem_documentCiters.mp hp.2
      exact ⟨d, ⟨⟨_, ht⟩, hp.1, hc⟩, (hf _ ht).2.1⟩
  · rintro ⟨d, ⟨⟨space, ht⟩, hdoc, hc⟩, hs⟩
    exact ⟨_, ht, hdoc, mem_documentCiters.mpr ⟨hm, hs ▸ (hf _ ht).2.1.symm ▸ rfl, hl, hc⟩⟩

/-- Which live memories a purge deletes. -/
theorem seeded_iff (hl : LinkedBack db) (hw : db.WellFormed) {spaces : List SpaceName}
    (hf : ∀ t ∈ targets, Found db spaces t) {m : MemoryRecord} (hm : m ∈ db.memory)
    (hml : m.isLive = true) : (∃ s, Seed db targets s ∧ OnChain db s.id m.id) ↔
      (∃ d, CitesSelected targets m d ∧ d.episode.space = m.space) ∨ Named db targets m := by
  rw [← pulls_iff hf hm hml]
  constructor
  · rintro ⟨s, ⟨hs, hnamed | ⟨t, ht, hp⟩⟩, hon⟩
    · exact .inr ⟨s, hs, hnamed, hon⟩
    · have hlive : s.isLive = true := by
        cases t with
        | memory space r c => exact hp.elim
        | episode space d => exact (mem_documentCiters.mp hp.2).2.2.1
      rw [eq_of_live_onChain hl hw hs hlive hm hml hon]
      exact .inl ⟨t, ht, hp⟩
  · rintro (hp | ⟨q, hq, hnamed, hon⟩)
    · exact ⟨m, ⟨hm, .inr hp⟩, .inl rfl⟩
    · exact ⟨q, ⟨hq, .inl hnamed⟩, hon⟩

variable [Hashing]

/-- A purge that is carried out leaves no live citer of its documents, and without `cascade` is
carried out only if it was asked for all of them, exactly when each live citer is in its reach. -/
theorem none_cites_iff (h : db.Reachable) {service : Service} {pending : Pending}
    {params : ForgetParams} {spaces : List SpaceName} {acted : List Target}
    (hp : Purges service db pending params spaces targets acted) (now : MemoryId → Timestamp) :
    (NoneCites (Forget.run service db pending params now).1.1 targets ∧
      (params.cascade = false → CitersNamed db targets)) ↔ CitersInReach db targets := by
  have ha := apart_reachable h
  have hl := linkedBack_reachable h
  obtain ⟨pending', selection, hselect, rfl, -⟩ := hp.selected
  have hf := select_found hselect
  have hpurged := purged ha hl (sameSpace_reachable h) hf hp.acting
  obtain ⟨pending'', hrun⟩ := hp.run now
  simp only [hrun]
  constructor
  · rintro ⟨hnone, -⟩ m hm hml d hc
    rw [← seeded_iff hl h.wellFormed hf hm hml]
    by_contra hout
    exact hnone m ((hpurged.memory m).mpr ⟨hm, hout⟩) hml d hc
  · intro hreach
    refine ⟨fun m hm hml d hc => ?_, fun hcascade m hm hml d hc => ?_⟩
    · obtain ⟨hm, hout⟩ := (hpurged.memory m).mp hm
      exact hout ((seeded_iff hl h.wellFormed hf hm hml).mpr (hreach m hm hml d hc))
    · refine (hreach m hm hml d hc).elim (fun hs => ?_) id
      have hacting := hp.acting
      rw [hcascade, acting, if_pos rfl] at hacting
      split at hacting
      · cases hacting
      · next out hout =>
        exact ⟨m, hm, pulls_named ha hf hout ((pulls_iff hf hm hml).mpr hs), .inl rfl⟩

/-! ### A citation across spaces -/

omit [Hashing] in
/-- A document, in the space that is shared. -/
def shelved : Call :=
  .remember terminal ⟨some SpaceName.user.name, [], some ⟨['t', 'e', 'x', 't'], none, none,
    some ['n', 'a', 'm', 'e'], some .plan, [], none⟩⟩ agent 0 (ticking 0)

omit [Hashing] in
/-- An insight in the project space that cites the document. -/
def insight : Call :=
  .reflect terminal ⟨none, ['i'], [.reads ⟨none, .reads 0⟩], none, [], [], []⟩ agent 1 (ticking 1)

omit [Hashing] in
/-- The document is purged by its id. -/
def burned : ForgetParams := ⟨[.reads (.episode ⟨0⟩)], none, none, true, false, false⟩

omit [Hashing] in
/-- Whether the purge goes through with a document that a live memory left behind cites. -/
def leavesCiter (db : Db) : Bool :=
  succeedsWith (fun spaces => succeedsWith (fun (selection : Selection) =>
    succeedsWith (fun acted => (unseen selection.previewed acted).isEmpty &&
      selection.targets.any fun t =>
        match t with
        | .memory _ _ _ => false
        | .episode _ d => d.episode.isDocument &&
          (forgetPurge db (forgetRequest spaces true acted)).1.memory.rows.any fun m =>
            m.isLive && cites m d.episode.id)
    (acting db true false selection.targets)) (select terminal db none spaces burned).2)
    (Tools.spaces terminal db none)

omit [Hashing] in
theorem purges_of_leavesCiter (h : leavesCiter db = true) :
    ∃ spaces targets acted, Purges terminal db none burned spaces targets acted ∧
      ¬ NoneCites (forgetPurge db (forgetRequest spaces true acted)).1 targets := by
  obtain ⟨spaces, hspaces, h⟩ := exists_of_succeedsWith h
  obtain ⟨selection, hselect, h⟩ := exists_of_succeedsWith h
  obtain ⟨acted, hacting, h⟩ := exists_of_succeedsWith h
  obtain ⟨hseen, h⟩ := Bool.and_eq_true_iff.mp h
  obtain ⟨t, ht, h⟩ := List.any_eq_true.mp h
  refine ⟨spaces, _, acted, ⟨rfl, rfl, hspaces,
    ⟨_, selection, Prod.ext rfl hselect, rfl, hseen⟩, hacting⟩, fun hnone => ?_⟩
  cases t with
  | memory space r c => cases h
  | episode space d =>
    obtain ⟨hdoc, h⟩ := Bool.and_eq_true_iff.mp h
    obtain ⟨m, hm, h⟩ := List.any_eq_true.mp h
    obtain ⟨hml, hc⟩ := Bool.and_eq_true_iff.mp h
    exact hnone m hm hml d ⟨⟨space, ht⟩, hdoc, hc⟩

omit [Hashing] in
theorem exists_leavesCiter : ∃ steps s, Run (@serve plain) (Server.empty 0) steps s ∧
    leavesCiter s.db = true := by
  obtain ⟨steps, s, hrun, -, hp⟩ := exists_run_of_exec (@serve plain) (Server.empty 0)
    [shelved, insight] (fun u => leavesCiter u.2.db) (by decide)
  exact ⟨steps, s, hrun, hp⟩

omit [Hashing] in
/-- The document is purged while the insight cites it. -/
theorem none_cites_iff_insight : ∃ s : Server, ∃ spaces targets acted,
    Purges terminal s.db none burned spaces targets acted ∧
      ((NoneCites (Forget.run terminal s.db none burned fun _ => 0).1.1 targets ∧
        (burned.cascade = false → CitersNamed s.db targets)) ↔ CitersInReach s.db targets) := by
  obtain ⟨steps, s, hrun, hp⟩ := exists_leavesCiter
  obtain ⟨spaces, targets, acted, hpurges, -⟩ := purges_of_leavesCiter hp
  exact ⟨s, spaces, targets, acted, hpurges,
    @none_cites_iff s.db targets plain (@reachable_of_run plain s 0 steps hrun) terminal none
      burned spaces acted hpurges fun _ => 0⟩

omit [Hashing] in
/-- The purge goes through, and the insight still cites what is gone. -/
theorem cited_across_spaces : ∃ steps s, Run (@serve plain) (Server.empty 0) steps s ∧
    ∃ spaces targets acted, Purges terminal s.db none burned spaces targets acted ∧
      ¬ NoneCites (Forget.run terminal s.db none burned fun _ => 0).1.1 targets := by
  obtain ⟨steps, s, hrun, hp⟩ := exists_leavesCiter
  obtain ⟨spaces, targets, acted, hpurges, hcited⟩ := purges_of_leavesCiter hp
  obtain ⟨pending', hafter⟩ := hpurges.run fun _ => 0
  exact ⟨steps, s, hrun, spaces, targets, acted, hpurges, by rwa [hafter]⟩

end Agmem.Tools.Citations
