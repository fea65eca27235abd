import Agmem.Tools.Purge

/-! What purges leave of a chain. A merge closes several rows in favour of one, so the
corrections around a row branch, while the walk from a row leads back over all the rows
before it but forward along one line only, and gives up after `MAX_CHAIN` links. A purge
therefore leaves the store with no dangling link, and with nothing of what it was asked to
delete, exactly when the walks from its seeds span the corrections around them. -/

namespace Agmem.Tools.Erasure

open Core Relational Relation Links Store Store.Heads Transition Forget

variable {db db' : Db} {targets : List Target}

/-! ### Corrections -/

/-- The links of a record, both ways. -/
def links (db : Db) (id : MemoryId) : List MemoryId := supersedesOf db id ++ supersededByOf db id

/-- Wordings of one fact: links lead from one to the other, whichever way they point. -/
def Linked (db : Db) : MemoryId → MemoryId → Prop := EqvGen fun a b => b ∈ links db a

/-- On the walk from a seed of the purge. -/
def Spanned (db : Db) (targets : List Target) (id : MemoryId) : Prop :=
  ∃ s, Seed db targets s ∧ OnChain db s.id id

/-- No link joins a row on the walks of a purge to a row off them. -/
def Spans (db : Db) (targets : List Target) : Prop :=
  ∀ p ∈ db.memory, ∀ q ∈ db.memory, q.id ∈ links db p.id ∨ p.id ∈ links db q.id →
    Spanned db targets p.id → Spanned db targets q.id

theorem linked_of_walk {f : MemoryId → List MemoryId} (hf : ∀ a b, b ∈ f a → b ∈ links db a)
    {k : ℕ} {a b : MemoryId} (h : Walk f k a b) : Linked db a b := by
  induction k generalizing a with
  | zero => exact h ▸ .refl a
  | succ k ih =>
    obtain ⟨c, hc, hw⟩ := h
    exact .trans _ _ _ (.rel _ _ (hf a c hc)) (ih hw)

theorem linked_of_onChain {a b : MemoryId} (h : OnChain db a b) : Linked db a b := by
  rcases h with rfl | ⟨k, -, hw⟩ | ⟨k, -, hw⟩
  · exact .refl b
  · exact linked_of_walk (fun _ _ h => List.mem_append_left _ h) hw
  · exact linked_of_walk (fun _ _ h => List.mem_append_right _ h) hw

/-- A link between stored rows has both ends stored. -/
theorem stored_of_link (hc : Closed db) {a b : MemoryId} (h : b ∈ links db a) :
    (∃ p ∈ db.memory, p.id = a) ∧ ∃ q ∈ db.memory, q.id = b := by
  rcases List.mem_append.mp h with h | h
  · obtain ⟨p, hp, rfl, hb⟩ := mem_supersedesOf.mp h
    exact ⟨⟨p, hp, rfl⟩, hc.supersedes p hp b hb⟩
  · obtain ⟨p, hp, rfl, hb⟩ := mem_supersededByOf.mp h
    exact ⟨⟨p, hp, rfl⟩, hc.supersededBy p hp b hb⟩

/-- What is linked to a row on the walks is on them, where no link leads off them. -/
theorem spanned_iff_of_linked (hc : Closed db) (hs : Spans db targets) {a b : MemoryId}
    (h : Linked db a b) : Spanned db targets a ↔ Spanned db targets b := by
  induction h with
  | rel a b h =>
    obtain ⟨⟨p, hp, rfl⟩, q, hq, rfl⟩ := stored_of_link hc h
    exact ⟨hs p hp q hq (.inl h), hs q hq p hp (.inr h)⟩
  | refl a => rfl
  | symm a b _ ih => exact ih.symm
  | trans a b c _ _ ih ih' => exact ih.trans ih'

/-- A purge leaves no row linked to its seeds exactly when its walks span what they are linked to.
-/
theorem nothing_left_iff (hc : Closed db) (hp : Purged db targets db') :
    (∀ s, Seed db targets s → ∀ r ∈ db'.memory, ¬ Linked db s.id r.id) ↔ Spans db targets := by
  constructor
  · rintro hnone p hp' q hq hlink ⟨s, hs, hon⟩
    by_contra hoff
    refine hnone s hs q ((hp.memory q).mpr ⟨hq, hoff⟩) ((linked_of_onChain hon).trans _ _ _ ?_)
    exact hlink.elim (fun h => .rel _ _ h) fun h => .symm _ _ (.rel _ _ h)
  · intro hspans s hs r hr hlinked
    have hself : Spanned db targets s.id := ⟨s, hs, .inl rfl⟩
    exact ((hp.memory r).mp hr).2 ((spanned_iff_of_linked hc hspans hlinked).mp hself)

/-! ### Sound stores -/

/-- A call that purges one memory by its id, written either way. -/
structure PurgesOne (db : Db) (service : Service) (params : ForgetParams) (r : MemoryRecord) :
    Prop where
  ids : ∃ raw, params.ids = [raw] ∧
    (raw = .reads (.memory r.id) ∨ raw = .reads (.unqualified r.id.ulid))
  query : params.query = none
  purge : params.purge = true
  wet : params.dryRun = false
  searched : ∃ spaces, Tools.spaces service db params.space = .ok spaces ∧ r.space ∈ spaces

/-- No link dangles, and every memory can be read along its chain, inspected, and purged. -/
structure Sound (db : Db) : Prop where
  closed : Closed db
  read : ∀ r ∈ db.memory, ∃ chain, historyChain db r.space r.id = .ok chain
  inspected : ∀ r ∈ db.memory, ∀ spaces, r.space ∈ spaces →
    ∃ found, Inspect.memory db spaces r.id = .ok (some found)
  purged : ∀ r ∈ db.memory, ∀ service params pending now, PurgesOne db service params r →
    ∃ result, (Forget.run service db pending params now).2 = .ok result ∧
      r ∉ (Forget.run service db pending params now).1.1.memory

/-- What the links of a store that no purge has torn are like. -/
structure Sane (db : Db) : Prop where
  linkedBack : LinkedBack db
  sameSpace : SameSpace db
  apart : Apart db
  closed : Closed db
  grounded : ∀ a, Grounded (successor db) a

/-- In a sane store a space either has the whole chain of an id to show, or does not hold it. -/
theorem Sane.historyChain_cases (h : Sane db) (space : SpaceName) (id : MemoryId) :
    (∃ r ∈ db.memory, r.id = id ∧ r.space = space ∧
      ∃ chain, historyChain db space id = .ok chain ∧ r ∈ chain) ∨
      historyChain db space id = .error (.unknownMemory space id) ∧
        ∀ r ∈ db.memory, r.id = id → r.space ≠ space := by
  by_cases hin : ∃ r ∈ db.memory, r.id = id ∧ r.space = space
  · obtain ⟨r, hr, rfl, rfl⟩ := hin
    have hwhole := h.closed.whole h.linkedBack (acyclic_of_grounded h.grounded) hr
    have hin : InSpace db.memory r.space [r.id] := fun id hid =>
      ⟨r, hr, (List.mem_singleton.mp hid).symm, rfl⟩
    obtain ⟨chain, hchain⟩ := historyChain_isOk_iff.mpr ⟨hin, hwhole⟩
    exact .inl ⟨r, hr, rfl, rfl, chain, hchain, (mem_historyChain hchain).mpr ⟨hr, .inl rfl⟩⟩
  · refine .inr ⟨historyChain_unknown ?_, fun r hr hid hs => hin ⟨r, hr, hid, hs⟩⟩
    rintro hstored
    obtain ⟨r, hr, hid, hs⟩ := hstored id (List.mem_singleton_self id)
    exact hin ⟨r, hr, hid, hs⟩

/-- The row a walk started from is found in it. -/
theorem find_of_mem {chain : List MemoryRecord} {r : MemoryRecord} (hr : r ∈ chain) :
    ∃ q, (chain.find? fun link => decide (link.id = r.id)) = some q ∧ q ∈ chain ∧ q.id = r.id := by
  cases hf : chain.find? fun link => decide (link.id = r.id) with
  | none => exact absurd (decide_eq_true rfl) (List.find?_eq_none.mp hf r hr)
  | some q => exact ⟨q, rfl, List.mem_of_find?_eq_some hf, by simpa using List.find?_some hf⟩

theorem Sane.walked (h : Sane db) (id : MemoryId) (spaces : List SpaceName) :
    Inspect.walked db id spaces = .ok none ∧ (∀ r ∈ db.memory, r.id = id → r.space ∉ spaces) ∨
      ∃ space chain, Inspect.walked db id spaces = .ok (some (space, chain)) ∧
        ∃ r ∈ chain, r.id = id := by
  induction spaces with
  | nil => exact .inl ⟨rfl, fun _ _ _ => List.not_mem_nil⟩
  | cons space spaces ih =>
    unfold Inspect.walked
    rcases h.historyChain_cases space id with
      ⟨r, -, hid, -, chain, hchain, hr⟩ | ⟨hnone, hout⟩
    · rw [hchain]
      exact .inr ⟨space, chain, rfl, r, hr, hid⟩
    · rw [hnone]
      refine ih.imp_left fun hmiss => ⟨hmiss.1, fun r hr hid => ?_⟩
      exact fun hs => (List.mem_cons.mp hs).elim (hout r hr hid) (hmiss.2 r hr hid)

theorem Sane.expands (h : Sane db) (spaces : List SpaceName) (cited : List Derivation) :
    ∃ rows, Inspect.expandsFrom db spaces cited = .ok rows := by
  induction cited with
  | nil => exact ⟨[], rfl⟩
  | cons d cited ih =>
    obtain ⟨rows, hrows⟩ := ih
    cases d with
    | episode id => exact ⟨rows, hrows⟩
    | memory id =>
      have hview : ∃ o, Inspect.view db spaces id = .ok o := by
        unfold Inspect.view
        rcases h.walked id spaces with ⟨hnone, -⟩ | ⟨space, chain, hsome, -⟩
        · exact ⟨none, by rw [hnone]⟩
        · exact ⟨_, by rw [hsome]⟩
      obtain ⟨o, ho⟩ := hview
      exact ⟨o.toList ++ rows, by rw [Inspect.expandsFrom, ho, hrows]⟩

theorem sourceText_ok (db : Db) (space : SpaceName) (source : Source) :
    ∃ e, Inspect.sourceText db space source = .ok e := by
  cases source with
  | episode id =>
    unfold Inspect.sourceText
    rcases episode_cases db space id with ⟨d, hd⟩ | hd
    · exact ⟨some d.episode, by simp only [hd]⟩
    · exact ⟨none, by simp only [hd]⟩
  | _ => exact ⟨none, rfl⟩

theorem Sane.inspected (h : Sane db) {r : MemoryRecord} (hr : r ∈ db.memory)
    {spaces : List SpaceName} (hs : r.space ∈ spaces) :
    ∃ found, Inspect.memory db spaces r.id = .ok (some found) := by
  unfold Inspect.memory
  rcases h.walked r.id spaces with ⟨-, hmiss⟩ | ⟨space, chain, hsome, q, hq, hid⟩
  · exact absurd hs (hmiss r hr rfl)
  · rw [hsome, ← hid]
    obtain ⟨target, hfind, -⟩ := find_of_mem hq
    obtain ⟨e, he⟩ := sourceText_ok db space target.source
    obtain ⟨rows, hrows⟩ := h.expands spaces target.derivedFrom
    simp only [hfind, he, hrows]
    exact ⟨_, rfl⟩

theorem Sane.memory (h : Sane db) {r : MemoryRecord} (hr : r ∈ db.memory)
    {spaces : List SpaceName} (hs : r.space ∈ spaces) :
    Forget.memory db r.id spaces = .ok (some (.memory r.space r none)) := by
  induction spaces with
  | nil => cases hs
  | cons space spaces ih =>
    unfold Forget.memory
    rcases h.historyChain_cases space r.id with
      ⟨q, hq, hid, rfl, chain, hchain, hmem⟩ | ⟨hnone, hout⟩
    · cases Table.eq_of_key hq hr hid
      obtain ⟨p, hfind, hp, hid⟩ := find_of_mem hmem
      cases Table.eq_of_key ((mem_historyChain hchain).mp hp).1 hr hid
      simp only [hchain, hfind]
    · rw [hnone]
      exact ih ((List.mem_cons.mp hs).resolve_left (hout r hr rfl))

theorem Sane.resolve (h : Sane db) {r : MemoryRecord} (hr : r ∈ db.memory)
    {spaces : List SpaceName} (hs : r.space ∈ spaces) {raw : Raw Reference}
    (hraw : raw = .reads (.memory r.id) ∨ raw = .reads (.unqualified r.id.ulid)) :
    Forget.resolve db spaces true raw = .ok (.memory r.space r none) := by
  rcases hraw with rfl | rfl
  · simp only [Forget.resolve, h.memory hr hs]
  · simp only [Forget.resolve, Forget.unqualified, h.memory hr hs]

theorem Sane.purges (h : Sane db) {r : MemoryRecord} (hr : r ∈ db.memory) {service : Service}
    {params : ForgetParams} (hp : PurgesOne db service params r) (pending : Pending) :
    ∃ spaces acted, r.space ∈ spaces ∧
      Purges service db pending params spaces [.memory r.space r none] acted := by
  obtain ⟨⟨raw, hids, hraw⟩, hquery, hpurge, hwet, spaces, hspaces, hs⟩ := hp
  obtain ⟨q, hq, hid, -, chain, hchain, -⟩ := (h.historyChain_cases r.space r.id).resolve_right
    fun hout => hout.2 r hr rfl rfl
  have hbyIds : byIds db spaces [raw] true = .ok [.memory r.space r none] := by
    simp [byIds, byIdsFrom, h.resolve hr hs hraw, seen]
  have hacting : acting db true params.cascade [.memory r.space r none] =
      .ok (addLinks r.space none [] chain) := by
    simp [acting, cascadeDocuments, cascadeFrom, expandChains, expandFrom, hchain]
  refine ⟨spaces, _, hs, hpurge, hwet, hspaces, ⟨pending, ⟨_, none, none⟩, ?_, rfl, rfl⟩, hacting⟩
  unfold select
  simp [hquery, hids, hpurge, hbyIds]

theorem Sane.purged (h : Sane db) {r : MemoryRecord} (hr : r ∈ db.memory) {service : Service}
    {params : ForgetParams} (hp : PurgesOne db service params r) (pending : Pending)
    (now : MemoryId → Timestamp) :
    ∃ result, (Forget.run service db pending params now).2 = .ok result ∧
      r ∉ (Forget.run service db pending params now).1.1.memory := by
  obtain ⟨spaces, acted, hs, hpurges⟩ := h.purges hr hp pending
  obtain ⟨pending', hrun⟩ := hpurges.run now
  have hfound : ∀ t ∈ [Target.memory r.space r none], Found db spaces t := fun t ht =>
    List.mem_singleton.mp ht ▸ ⟨hr, rfl, hs⟩
  rw [hrun]
  refine ⟨_, rfl, fun hleft => ?_⟩
  have hpurged := Forget.purged h.apart h.linkedBack h.sameSpace hfound hpurges.acting
  refine ((hpurged.memory r).mp hleft).2 ?_
  exact ⟨r, ⟨hr, .inl (List.mem_singleton_self _)⟩, .inl rfl⟩

theorem Sane.sound (h : Sane db) : Sound db where
  closed := h.closed
  read r hr := by
    obtain ⟨q, -, -, -, chain, hchain, -⟩ := (h.historyChain_cases r.space r.id).resolve_right
      fun hout => hout.2 r hr rfl rfl
    exact ⟨chain, hchain⟩
  inspected _ hr _ hs := h.inspected hr hs
  purged _ hr _ _ pending now hp := h.purged hr hp pending now

/-! ### What calls do to links -/

/-- Rows that are gone take their links with them; the links of the others stay. -/
theorem successor_of_subset (h : ∀ r ∈ db'.memory, r ∈ db.memory) (a : MemoryId) :
    successor db' a = successor db a ∨ successor db' a = none := by
  cases hs : successor db' a with
  | none => exact .inr rfl
  | some b =>
    obtain ⟨r, hr, hid, hb⟩ := successor_eq_some.mp hs
    exact .inl (successor_eq_some.mpr ⟨r, h r hr, hid, hb⟩).symm

/-- A purge that spans the corrections around its seeds leaves no link that dangles. -/
theorem closed_of_spans (hc : Closed db) (hp : Purged db targets db') (hs : Spans db targets) :
    Closed db' := by
  have hkept {r : MemoryRecord} (hr : r ∈ db'.memory) {id : MemoryId}
      (hlink : id ∈ links db r.id) : ∃ q ∈ db'.memory, q.id = id := by
    obtain ⟨hmem, hoff⟩ := (hp.memory r).mp hr
    obtain ⟨-, q, hq, rfl⟩ := stored_of_link hc hlink
    exact ⟨q, (hp.memory q).mpr ⟨hq, fun hon => hoff (hs q hq r hmem (.inr hlink) hon)⟩, rfl⟩
  refine ⟨fun r hr id hid => hkept hr (List.mem_append_right _ ?_), fun r hr id hid =>
    hkept hr (List.mem_append_left _ ?_)⟩
  · exact mem_supersededByOf.mpr ⟨r, ((hp.memory r).mp hr).1, rfl, hid⟩
  · exact mem_supersedesOf.mpr ⟨r, ((hp.memory r).mp hr).1, rfl, hid⟩

variable [Hashing]

/-- The operations of the tools, purges apart, leave no link dangling and close no loop. -/
theorem step_links {op : Op} (hp : ¬ op.Purges) (hl : ¬ op.Links .standalone)
    (h : step db op = some db') (hw : db.WellFormed) (hc : Closed db)
    (hg : ∀ a, Grounded (successor db) a) : Closed db' ∧ ∀ a, Grounded (successor db') a := by
  obtain ⟨db₁, hch, rfl | ⟨hpurge, -⟩⟩ := step_changes hw h
  · clear h
    have hall : db'.WellFormed ∧ Closed db' ∧ ∀ a, Grounded (successor db') a := by
      induction hch with
      | refl => exact ⟨hw, hc, hg⟩
      | tail _ hc' ih =>
        obtain ⟨hw, hc, hg⟩ := ih
        exact ⟨hc'.wellFormed hw, closed_change hc' hc, change_grounded hc' hl hw hg⟩
    exact hall.2
  · exact absurd hpurge hp

theorem writesTo_links (h : WritesTo db db') (hw : db.WellFormed) (hc : Closed db)
    (hg : ∀ a, Grounded (successor db) a) : Closed db' ∧ ∀ a, Grounded (successor db') a := by
  obtain ⟨steps, hrun, hwrites⟩ := h
  let Good (db : Db) : Prop := db.WellFormed ∧ Closed db ∧ ∀ a, Grounded (successor db) a
  have hkept : ∀ s op t, step s op = some t → Writes op → Good s → Good t := by
    rintro s op t hs hop ⟨hw, hc, hg⟩
    refine ⟨step_wellFormed hs hw, step_links ?_ ?_ hs hw hc hg⟩
    · cases op <;> simp_all [Writes, Op.Purges]
    · cases op <;> simp_all [Writes, Op.Links]
  exact (hrun.invariant (I := Good) (Q := fun e => Writes e.action) hkept hwrites
    ⟨hw, hc, hg⟩).1.2

/-! ### Runs -/

/-- The store of a run none of whose purges left anything behind. -/
structure Untorn (db : Db) : Prop where
  reachable : db.Reachable
  closed : Closed db
  grounded : ∀ a, Grounded (successor db) a

theorem Untorn.sane (h : Untorn db) : Sane db where
  linkedBack := linkedBack_reachable h.reachable
  sameSpace := sameSpace_reachable h.reachable
  apart := apart_reachable h.reachable
  closed := h.closed
  grounded := h.grounded

variable {s t : Server} {call : Call}

omit [Hashing] in
/-- Of what a purge was asked to delete, no other wording is left. -/
def NothingLeft (s : Server) (call : Call) (t : Server) : Prop :=
  ∀ spaces targets acted, call.Purges s spaces targets acted → ∀ seed, Seed s.db targets seed →
    ∀ r ∈ t.db.memory, ¬ Linked s.db seed.id r.id

omit [Hashing] in
/-- If the call is a purge, its walks span the corrections around its seeds. -/
def PurgeSpans (s : Server) (call : Call) : Prop :=
  ∀ spaces targets acted, call.Purges s spaces targets acted → Spans s.db targets

theorem purged_of_purges (hs : serve s call = some t) (h : Untorn s.db) {spaces : List SpaceName}
    {targets acted : List Target} (hp : call.Purges s spaces targets acted) :
    Purged s.db targets t.db := by
  rw [serve_purges hs hp]
  cases call with
  | forget session service params now =>
    obtain ⟨pending', selection, hselect, rfl, -⟩ := hp.selected
    exact purged h.sane.apart h.sane.linkedBack h.sane.sameSpace (select_found hselect) hp.acting
  | _ => exact hp.elim

/-- A call keeps the store untorn, provided its purge spans what it starts from. -/
theorem serve_untorn (hs : serve s call = some t) (hq : PurgeSpans s call) (h : Untorn s.db) :
    Untorn t.db := by
  suffices Closed t.db ∧ ∀ a, Grounded (successor t.db) a from
    ⟨serve_reachable hs h.reachable, this.1, this.2⟩
  rcases serve_cases hs with hwrites | ⟨spaces, targets, acted, hpurges⟩
  · exact writesTo_links hwrites h.reachable.wellFormed h.closed h.grounded
  · have hp := purged_of_purges hs h hpurges
    have hsub : ∀ r ∈ t.db.memory, r ∈ s.db.memory := fun r hr => ((hp.memory r).mp hr).1
    exact ⟨closed_of_spans h.closed hp (hq _ _ _ hpurges), fun a =>
      (h.grounded a).of_fewer (successor_of_subset hsub)⟩

theorem serve_sound_iff (hs : serve s call = some t) (h : Untorn s.db) :
    Sound t.db ∧ NothingLeft s call t ↔ PurgeSpans s call := by
  constructor
  · rintro ⟨-, hnone⟩ spaces targets acted hp
    exact (nothing_left_iff h.closed (purged_of_purges hs h hp)).mp (hnone _ _ _ hp)
  · intro hq
    refine ⟨(serve_untorn hs hq h).sane.sound, fun spaces targets acted hp => ?_⟩
    exact (nothing_left_iff h.closed (purged_of_purges hs h hp)).mpr (hq _ _ _ hp)

theorem untorn_empty (dimension : ℕ) : Untorn (Db.empty dimension) where
  reachable := ⟨dimension, [], .nil _⟩
  closed := closed_empty dimension
  grounded a := ⟨a, .refl, successor_eq_none.mpr fun r hr => absurd hr (Table.not_mem_empty r)⟩

/-- Along a run of calls the store stays sound and no purge leaves anything behind, exactly when
each purge spans the corrections around what it starts from. -/
theorem run_sound_iff {dimension : ℕ} {steps : List (Step Server Call)}
    (h : Run serve (Server.empty dimension) steps t) :
    (∀ e ∈ steps, Sound e.target.db ∧ NothingLeft e.source e.action e.target) ↔
      ∀ e ∈ steps, PurgeSpans e.source e.action :=
  Run.forall_congr (I := fun s => Untorn s.db) (fun _ _ _ hs hi => serve_sound_iff hs hi)
    (fun _ _ _ hs hq hi => serve_untorn hs hq hi) h (untorn_empty dimension)

omit [Hashing] in
/-- Two claims are merged into one, and the merged claim is purged. -/
theorem run_sound_iff_merge : ∃ steps t, @Run _ _ (@serve plain) (Server.empty 0) steps t ∧
    steps.length = 4 ∧
      ((∀ e ∈ steps, Sound e.target.db ∧ NothingLeft e.source e.action e.target) ↔
        ∀ e ∈ steps, PurgeSpans e.source e.action) := by
  obtain ⟨steps, t, hrun, -, hp⟩ := exists_run_of_exec (@serve plain) (Server.empty 0)
    [.say 0 'a' [], .say 1 'b' [], .say 2 'c' [0, 1], .purge 2]
    (fun u => decide (u.1.length = 4)) (by decide)
  exact ⟨steps, t, hrun, of_decide_eq_true hp, @run_sound_iff plain t 0 steps hrun⟩

omit [Hashing] in
/-- Two claims are merged into one, and one of the two is purged. -/
theorem merge_left_behind : ∃ steps t, Run (@serve plain) (Server.empty 0) steps t ∧
    (∀ e ∈ steps, (∃ start letter supersedes, e.action = .say start letter supersedes) ∨
      ∃ id, e.action = .purge id) ∧
    ∃ r ∈ t.db.memory, (∃ id, r.supersededBy = some id ∧ ∀ q ∈ t.db.memory, q.id ≠ id) ∧
      ∀ chain, historyChain t.db r.space r.id ≠ .ok chain := by
  obtain ⟨steps, t, hrun, hact, hp⟩ := exists_run_of_exec (@serve plain) (Server.empty 0)
    [.say 0 'a' [], .say 1 'b' [], .say 2 'c' [0, 1], .purge 0]
    (fun u => u.2.db.memory.rows.any fun r => r.supersededBy.any fun id =>
      decide (∀ q ∈ u.2.db.memory.rows, q.id ≠ id)) (by decide)
  simp only [List.any_eq_true, Option.any_eq_true, decide_eq_true_eq] at hp
  obtain ⟨r, hr, id, hid, hgone⟩ := hp
  refine ⟨steps, t, hrun, fun e he => ?_, r, hr, ⟨id, hid, hgone⟩, fun chain hchain => ?_⟩
  · rcases List.mem_cons.mp (hact e he) with h | h
    · exact .inl ⟨_, _, _, h⟩
    · simp only [List.mem_cons, List.not_mem_nil, or_false] at h
      rcases h with h | h | h
      · exact .inl ⟨_, _, _, h⟩
      · exact .inl ⟨_, _, _, h⟩
      · exact .inr ⟨_, h⟩
  · have hlink : id ∈ supersededByOf t.db r.id := mem_supersededByOf.mpr ⟨r, hr, rfl, hid⟩
    obtain ⟨q, hq, hqid⟩ := (historyChain_isOk_iff.mp ⟨chain, hchain⟩).2.stored id
      (.inr (.inr ⟨0, by decide, .single hlink⟩))
    exact hgone q hq hqid

end Agmem.Tools.Erasure
